import SimKv.Acknowledgement
import SimKv.Kv.Applied

set_option autoImplicit false

/-!
# The snapshots a leader sends

A leader answers a follower that is behind its log with the image it keeps, labelled with the index and
the term its log begins at. The two are not always of one snapshot: taking a snapshot replaces the image
at once, and the log is compacted when the image is on disk.
-/

namespace SimKv

section Committed

variable (committed : Nat → Entry) (initial : List NodeId)

def membersAt : Nat → List NodeId
  | 0 => initial
  | index + 1 => (committed (index + 1)).cmd.members.getD (membersAt index)

def termOf (index : Nat) : Nat := if index = noIndex then 0 else (committed index).term

def portrait (index : Nat) : Bytes :=
  encodeSnapshotPayload (membersAt committed initial index) (stateAfter committed index).encode

structure Carried (index term : Nat) (data : Bytes) : Prop where
  labelled : term = termOf committed index
  exact_ : data = portrait committed initial index
  decoded : decodeSnapshotPayload data =
    some (membersAt committed initial index, (stateAfter committed index).encode)
  restored : StateMachine.restore (stateAfter committed index).encode = .ok (stateAfter committed index)

def RaftMsg.Brings : RaftMsg → Prop
  | .installSnapshot _ _ index indexTerm data => Carried committed initial index indexTerm data
  | _ => True

def KvEvent.Brings : KvEvent → Prop
  | .message _ _ msg => msg.Brings committed initial
  | .restart _ wal a b =>
    ∀ snap ∈ (readDisk wal a b).snapshot, Carried committed initial snap.index snap.term snap.data
  | _ => True

def Raft.Holds (r : Raft) : Prop := r.Agrees committed ∧ r.commitIndex ≤ r.log.lastIndex

instance (index term : Nat) (data : Bytes) : Decidable (Carried committed initial index term data) :=
  decidable_of_iff (term = termOf committed index ∧ data = portrait committed initial index ∧
      decodeSnapshotPayload data =
        some (membersAt committed initial index, (stateAfter committed index).encode) ∧
      StateMachine.restore (stateAfter committed index).encode = .ok (stateAfter committed index))
    ⟨fun ⟨labelled, exact_, decoded, restored⟩ => ⟨labelled, exact_, decoded, restored⟩,
      fun ⟨labelled, exact_, decoded, restored⟩ => ⟨labelled, exact_, decoded, restored⟩⟩

instance : (msg : RaftMsg) → Decidable (msg.Brings committed initial)
  | .installSnapshot .. => inferInstanceAs (Decidable (Carried ..))
  | .requestVote .. | .requestVoteResp .. | .appendEntries .. | .appendEntriesResp ..
  | .installSnapshotResp .. | .readProbe .. | .readProbeResp .. | .preVote .. | .preVoteResp .. =>
    inferInstanceAs (Decidable True)

instance : (event : KvEvent) → Decidable (event.Brings committed initial)
  | .message .. => inferInstanceAs (Decidable (RaftMsg.Brings ..))
  | .restart .. => inferInstanceAs (Decidable (∀ snap ∈ _, Carried ..))
  | .timer .. | .storage .. | .request .. | .membership .. => inferInstanceAs (Decidable True)

instance (r : Raft) : Decidable (r.Holds committed) := inferInstanceAs (Decidable (_ ∧ _))

def RaftMsg.Labelled : RaftMsg → Prop
  | .installSnapshot _ _ index indexTerm data =>
    data = portrait committed initial index ∧ indexTerm = termOf committed index
  | _ => True

end Committed

namespace Persister

variable (p : Persister)

def images : List Persist := (p.duties.map Duty.action).filter fun action => action.image.isSome

variable {p}

theorem images_clampAll (cap : Nat) : (p.clampAll cap).images = p.images := by
  rw [images, images, duties_clampAll, List.map_map]
  induction p.duties with
  | nil => rfl
  | cons d rest ih =>
    have same : (d.action.clamp cap).image.isSome = d.action.image.isSome := by cases d.action <;> rfl
    simp only [List.map_cons, Function.comp, List.filter_cons, same] at ih ⊢
    split
    · next image =>
      have kept : d.action.clamp cap = d.action := by
        cases action : d.action with
        | logDurable =>
          rw [action] at image
          cases image
        | _ => rfl
      rw [ih, kept]
    · exact ih

theorem images_opened (file : FileId) (action : Persist) (hard : Option HardState) (ops : List OpId) :
    (p.opened file action hard ops).images = p.images ++ if action.image.isSome then [action] else [] := by
  rw [images, images, opened_opens.2, List.map_append, List.filter_append]
  simp only [List.map_cons, List.map_nil, List.filter_cons, List.filter_nil]

theorem images_congr {q : Persister} (same : q.duties = p.duties) : q.images = p.images := by
  rw [images, images, same]

-- A completion leaves the images as they are, or takes out the one that is done.
theorem onComplete_images (op : OpId) (ok : Bool) :
    ((p.onComplete op ok).1 ≠ .failed → (∀ action hard, (p.onComplete op ok).1 ≠ .done action hard) →
      (p.onComplete op ok).2.images = p.images) ∧
    ∀ action hard, (p.onComplete op ok).1 = .done action hard → ∃ before after,
      p.images = before ++ ((if action.image.isSome then [action] else []) ++ after) ∧
        (p.onComplete op ok).2.images = before ++ after := by
  unfold onComplete
  split
  · exact ⟨fun _ _ => rfl, nofun⟩
  · next id kind _ =>
    dsimp only
    split
    · exact ⟨fun unfailed => absurd rfl unfailed, nofun⟩
    · split
      · exact ⟨fun _ _ => rfl, nofun⟩
      · next b found =>
        split
        · have same := duties_modifyBatch { p with ops := p.ops.eraseP fun o => o.1 = op } id
            (f := fun b => { b with writesOutstanding := b.writesOutstanding - 1 }) fun _ => rfl
          split
          · exact ⟨fun _ _ => images_congr same, nofun⟩
          · exact ⟨fun _ _ => images_congr same, nofun⟩
        · refine ⟨fun _ undone => absurd rfl (undone _ _), ?_⟩
          intro action hard same
          cases same
          obtain ⟨here, before, after, batches, earlier⟩ := List.find?_eq_some_iff_append.mp found
          have erased : (before ++ b :: after).eraseP (fun b => b.id = id) = before ++ after := by
            rw [List.eraseP_append_right _ (by simpa using earlier), List.eraseP_cons_of_pos (by simpa using here)]
          refine ⟨((before.map Batch.duty).map Duty.action).filter fun action => action.image.isSome,
            ((after.map Batch.duty).map Duty.action).filter fun action => action.image.isSome, ?_, ?_⟩
          · simp only [images, duties, batches, List.map_append, List.map_cons, List.filter_append,
              List.filter_cons, Batch.duty]
            split <;> rfl
          · simp only [images, duties, batches, erased, List.map_append, List.filter_append]

end Persister

section Committed

variable (committed : Nat → Entry) (initial : List NodeId)

def Raft.Fitting (r : Raft) : Prop :=
  r.snapshotData = [] ∨ r.snapshotData = portrait committed initial r.log.snapshotIndex

inductive Raft.Portrayed (r : Raft) : List Persist → Prop where
  | settled (fitting : r.Fitting committed initial) : Portrayed r []
  | taking (index : Nat) (file : FileId) (busy : r.snapshotInFlight = true)
      (newer : r.log.snapshotIndex < index) (ahead : r.snapshotData = portrait committed initial index) :
      Portrayed r [.snapshotTaken index (termOf committed index) file]
  | installing (index term : Nat) (data : Bytes) (file : FileId) (replyTo : NodeId) (replyTerm : Nat)
      (busy : r.snapshotInFlight = true) (newer : r.log.snapshotIndex < index)
      (carried : Carried committed initial index term data) (fitting : r.Fitting committed initial) :
      Portrayed r [.snapshotInstalled index term data file replyTo replyTerm]

structure Raft.Pictured (r : Raft) (images : List Persist) : Prop where
  start : r.initialMembers = initial
  base : r.baseConfig = membersAt committed initial r.log.snapshotIndex
  term : r.log.snapshotTerm = termOf committed r.log.snapshotIndex
  portrayed : r.Portrayed committed initial images

/-- A snapshot taken by the server itself that is still being written has the image the label is for. -/
def RaftMsg.Apart (r : Raft) : RaftMsg → Prop
  | .installSnapshot _ _ index _ _ => ∀ i t file, .snapshotTaken i t file ∈ r.persister.images →
      portrait committed initial i = portrait committed initial index
  | _ => True

end Committed

variable {committed : Nat → Entry} {initial : List NodeId}

theorem Raft.Holds.get {r : Raft} (holds : r.Holds committed) (contiguous : r.log.Contiguous) {index : Nat}
    (above : r.log.snapshotIndex < index) (within : index ≤ r.commitIndex) :
    r.log.get index = some (committed index) := by
  have size := contiguous.lastIndex_eq
  have inside : index - r.log.firstIndex < r.log.entries.length := by
    have reaches := holds.2
    rw [RaftLog.firstIndex]
    omega
  obtain ⟨e, found⟩ : ∃ e, r.log.entries[index - r.log.firstIndex]? = some e :=
    ⟨_, List.getElem?_eq_getElem inside⟩
  have here : e.index = index := by
    rw [contiguous _ e found, RaftLog.firstIndex]
    omega
  rw [contiguous.get_eq above, found, holds.1 e (List.mem_of_getElem? found) (here ▸ within), here]

theorem Raft.configScan_committed {r : Raft} (holds : r.Holds committed) (contiguous : r.log.Contiguous)
    (base : r.baseConfig = membersAt committed initial r.log.snapshotIndex) {index : Nat}
    (above : r.log.snapshotIndex ≤ index) (within : index ≤ r.commitIndex) :
    ((configScan r.log index).getD (r.baseConfig, 0)).1 = membersAt committed initial index := by
  induction index with
  | zero =>
    have bottom : r.log.snapshotIndex = 0 := Nat.le_zero.mp above
    rw [bottom] at base
    exact base
  | succ index ih =>
    rw [configScan]
    split
    · next below =>
      -- the walk has come to the snapshot
      have here : index + 1 = r.log.snapshotIndex := by
        rw [RaftLog.firstIndex] at below
        omega
      rw [here]
      exact base
    · next inside =>
      rw [RaftLog.firstIndex] at inside
      rw [holds.get contiguous (by omega) within, membersAt]
      cases changes : (committed (index + 1)).cmd.members with
      | none =>
        simp only [Option.bind_some, changes, Option.getD_none]
        exact ih (by omega) (by omega)
      | some members => simp [changes]

theorem Raft.configAt_committed {r : Raft} (holds : r.Holds committed) (contiguous : r.log.Contiguous)
    (base : r.baseConfig = membersAt committed initial r.log.snapshotIndex) {index : Nat}
    (above : r.log.snapshotIndex ≤ index) (within : index ≤ r.commitIndex) :
    (r.configAt index).1 = membersAt committed initial index := by
  rw [configAt, min_eq_left (within.trans holds.2)]
  exact configScan_committed holds contiguous base above within

def Populated (committed : Nat → Entry) : Prop :=
  ∀ index members, (committed index).cmd.members = some members → members ≠ []

theorem membersAt_ne_nil (populated : Populated committed) {index : Nat}
    (empty : membersAt committed initial index = []) : initial = [] := by
  induction index with
  | zero => exact empty
  | succ index ih =>
    rw [membersAt] at empty
    cases changes : (committed (index + 1)).cmd.members with
    | none =>
      rw [changes] at empty
      exact ih empty
    | some members =>
      rw [changes] at empty
      exact absurd empty (populated _ _ changes)

-- Whoever starts from the membership at an index computes with it.
theorem Raft.baseConfig_of {r : Raft} (populated : Populated committed) (start : r.initialMembers = initial)
    {index : Nat} (members : r.snapshotMembers = membersAt committed initial index) :
    r.baseConfig = membersAt committed initial index := by
  rw [baseConfig, members, start]
  split
  · next empty => rw [empty, membersAt_ne_nil populated empty]
  · rfl

structure Raft.SameImage (n m : Raft) : Prop where
  initialMembers : m.initialMembers = n.initialMembers
  snapshotMembers : m.snapshotMembers = n.snapshotMembers
  snapshotIndex : m.log.snapshotIndex = n.log.snapshotIndex
  snapshotTerm : m.log.snapshotTerm = n.log.snapshotTerm
  snapshotData : m.snapshotData = n.snapshotData
  busy : n.snapshotInFlight = true → m.snapshotInFlight = true

-- Unless a snapshot is done or taken, an act keeps the image.
theorem Raft.Becomes.sameImage {cause : Cause} {r n m : Raft} (becomes : Becomes cause r n m)
    (plain : ∀ action hard, cause = .durable action hard → action.image = none)
    (untaken : cause = .other → m.snapshotSeq = n.snapshotSeq) : n.SameImage m := by
  cases becomes with
  | splice _ _ _ _ _ _ p t es i conflict =>
    exact ⟨rfl, rfl, n.log.snapshotIndex_splice p es i conflict, n.log.snapshotTerm_splice p es i conflict,
      rfl, fun busy => busy⟩
  | taken index term file hard done => cases plain _ _ done
  | landed index term data file replyTo replyTerm hard done => cases plain _ _ done
  | adopt index term data file replyTo replyTerm hard done => cases plain _ _ done
  | capture blob term drains =>
    have same : n.snapshotSeq + 1 = n.snapshotSeq := untaken drains
    omega
  | receive => exact ⟨rfl, rfl, rfl, rfl, rfl, fun _ => rfl⟩
  | _ => exact ⟨rfl, rfl, rfl, rfl, rfl, fun busy => busy⟩

theorem Raft.Becomes.snapshotSeq_le {cause : Cause} {r n m : Raft} (becomes : Becomes cause r n m) :
    n.snapshotSeq ≤ m.snapshotSeq := by
  cases becomes with
  | capture | receive => exact Nat.le_succ _
  | _ => exact le_rfl

theorem Raft.Becomes.snapshotSeq_lt {cause : Cause} {r n m : Raft} (becomes : Becomes cause r n m)
    (free : n.snapshotInFlight = false) (busy : m.snapshotInFlight = true) : n.snapshotSeq < m.snapshotSeq := by
  cases becomes with
  | capture | receive => exact Nat.lt_succ_self _
  | taken | landed => cases busy
  | _ =>
    rw [free] at busy
    cases busy

theorem Raft.SameImage.fitting {n m : Raft} (same : n.SameImage m) (fitting : n.Fitting committed initial) :
    m.Fitting committed initial := by
  rw [Fitting, same.snapshotData, same.snapshotIndex]
  exact fitting

theorem Raft.SameImage.portrayed {n m : Raft} {images : List Persist} (same : n.SameImage m)
    (portrayed : n.Portrayed committed initial images) : m.Portrayed committed initial images := by
  cases portrayed with
  | settled fitting => exact .settled (same.fitting fitting)
  | taking index file busy newer ahead =>
    exact .taking index file (same.busy busy) (same.snapshotIndex ▸ newer) (same.snapshotData.trans ahead)
  | installing index term data file replyTo replyTerm busy newer carried fitting =>
    exact .installing index term data file replyTo replyTerm (same.busy busy) (same.snapshotIndex ▸ newer)
      carried (same.fitting fitting)

theorem Raft.SameImage.pictured {n m : Raft} {images : List Persist} (same : n.SameImage m)
    (pictured : n.Pictured committed initial images) : m.Pictured committed initial images where
  start := same.initialMembers.trans pictured.start
  base := by
    rw [baseConfig, same.snapshotMembers, same.initialMembers, same.snapshotIndex]
    exact pictured.base
  term := by
    rw [same.snapshotTerm, same.snapshotIndex]
    exact pictured.term
  portrayed := same.portrayed pictured.portrayed

-- A node that is free to write an image is writing none.
theorem Raft.Portrayed.free {r : Raft} {images : List Persist} (portrayed : r.Portrayed committed initial images)
    (free : r.snapshotInFlight = false) : images = [] ∧ r.Fitting committed initial := by
  cases portrayed with
  | settled fitting => exact ⟨rfl, fitting⟩
  | taking _ _ busy =>
    rw [free] at busy
    cases busy
  | installing _ _ _ _ _ _ busy =>
    rw [free] at busy
    cases busy

theorem Act.pictured {cause : Cause} {r : Raft} {n m : Node} (act : Act cause r n m)
    (plain : ∀ action hard, cause = .durable action hard → action.image = none)
    (untaken : cause = .other → m.snapshotSeq = n.snapshotSeq)
    (brings : ∀ src msg, cause = .message src msg → msg.Brings committed initial)
    (ordered : n.persister.Ordered) (place : n.Place)
    (pictured : n.Pictured committed initial n.persister.images) :
    m.Pictured committed initial m.persister.images := by
  have same := act.becomes.sameImage plain untaken
  have kept := same.pictured pictured
  cases act.asks ordered with
  | nothing _ _ persister | clear persister => rwa [persister]
  | clamp cap persister => rwa [persister, Persister.images_clampAll]
  | wal action _ _ _ wal _ opened =>
    rw [opened.persister, Persister.images_opened, wal]
    simpa using kept
  | snapshot snap action free _ owes image _ log _ busy _ _ opened =>
    obtain ⟨idle, fitting⟩ := pictured.portrayed.free free
    have images : m.persister.images = [action] := by
      rw [opened.persister, Persister.images_opened, idle, image]
      rfl
    refine ⟨kept.start, kept.base, kept.term, ?_⟩
    rw [images]
    cases owes with
    | installed src leader index indexTerm data offered ahead =>
      refine .installing index indexTerm data _ _ _ busy ?_ (brings _ _ offered) (same.fitting fitting)
      rw [log]
      exact place.base.trans_lt ahead
    | taken term drains =>
      -- what starts to write an image counts it
      exact absurd (untaken drains) (act.becomes.snapshotSeq_lt free busy).ne'
    | _ => cases image

-- A snapshot a handler sends is labelled rightly just if the image has not moved ahead of the log.
theorem Raft.Pictured.labelled_iff {cause : Cause} {r n : Raft} (pictured : n.Pictured committed initial n.persister.images)
    {dst : NodeId} {msg : RaftMsg} (allowed : Says cause r n dst msg) :
    msg.Labelled committed initial ↔ msg.Apart committed initial n := by
  cases msg with
  | installSnapshot term leader index indexTerm data =>
    obtain ⟨_, _, _, rfl, rfl, rfl, full, _⟩ := allowed
    have settled (fitting : n.Fitting committed initial) : (RaftMsg.installSnapshot term leader n.log.snapshotIndex
        n.log.snapshotTerm n.snapshotData).Labelled committed initial :=
      ⟨fitting.resolve_left full, pictured.term⟩
    have portrayed := pictured.portrayed
    simp only [RaftMsg.Apart]
    generalize n.persister.images = images at portrayed ⊢
    cases portrayed with
    | settled fitting => exact ⟨fun _ _ _ _ member => (List.not_mem_nil member).elim, fun _ => settled fitting⟩
    | taking index file _ _ ahead =>
      constructor
      · rintro ⟨right, _⟩ i t other member
        cases List.mem_singleton.mp member
        exact ahead.symm.trans right
      · intro apart
        exact ⟨ahead.trans (apart index _ file (List.mem_singleton_self _)), pictured.term⟩
    | installing index term data file replyTo replyTerm _ _ _ fitting =>
      refine ⟨fun _ i t other member => ?_, fun _ => settled fitting⟩
      cases List.mem_singleton.mp member
  | _ => exact Iff.rfl

theorem Act.labels {cause : Cause} {r : Raft} {n m : Node} (act : Act cause r n m)
    (pictured : n.Pictured committed initial n.persister.images)
    (batch : ∀ action hard, cause = .durable action hard → action.Keeps n.toRaft)
    (said : ∀ moment ∈ n.moments,
      moment.msg.Labelled committed initial ↔ moment.msg.Apart committed initial moment.raft) :
    ∀ moment ∈ m.moments,
      moment.msg.Labelled committed initial ↔ moment.msg.Apart committed initial moment.raft := by
  cases act.speaks with
  | nothing same =>
    rw [same]
    exact said
  | message dst msg _ allowed sent =>
    intro moment member
    rw [sent] at member
    rcases List.mem_append.mp member with old | new
    · exact said moment old
    · rw [List.mem_singleton.mp new]
      rcases allowed with allowed | ⟨hard, done⟩
      · exact pictured.labelled_iff allowed
      · -- no snapshot is held back until a batch is durable
        have keeps := batch _ _ done
        cases msg with
        | installSnapshot => exact keeps.elim
        | _ => exact Iff.rfl

-- A node that begins at an image of the sequence, and keeps it.
theorem Raft.Pictured.fresh {r : Raft} {index : Nat} (populated : Populated committed)
    (start : r.initialMembers = initial) (members : r.snapshotMembers = membersAt committed initial index)
    (here : r.log.snapshotIndex = index) (labelled : r.log.snapshotTerm = termOf committed index)
    (image : r.snapshotData = portrait committed initial index) : r.Pictured committed initial [] := by
  subst here
  exact ⟨start, baseConfig_of populated start members, labelled, .settled (.inr image)⟩

-- The log is compacted to the image that was kept already.
theorem Node.snapshotTaken_pictured {n : Node} {index term : Nat} {file : FileId} (populated : Populated committed)
    (holds : n.Holds committed) (contiguous : n.log.Contiguous) (within : index ≤ n.commitIndex)
    (pictured : n.Pictured committed initial [.snapshotTaken index term file]) :
    (n.snapshotTaken index term file).Pictured committed initial [] := by
  obtain ⟨_, _, _, _, raft⟩ := { n with
    snapshotInFlight := false
    durableSnapshotFile := some file
    snapshotMembers := (n.configAt index).1
    log := n.log.compactTo index term }.refreshConfig_toRaft
  cases pictured.portrayed with
  | taking _ _ _ newer ahead =>
    obtain ⟨here, labelled⟩ := RaftLog.compactTo_base newer (within.trans holds.2) (termOf committed index)
    rw [snapshotTaken, raft]
    exact .fresh populated pictured.start
      (Raft.configAt_committed holds contiguous pictured.base newer.le within) here labelled ahead

-- The image that was sent is kept from now on, and the log begins where it says.
theorem Node.adoptSnapshot_pictured {n : Node} {index term : Nat} {data : Bytes} (populated : Populated committed)
    (start : n.initialMembers = initial) (newer : n.log.snapshotIndex < index)
    (carried : Carried committed initial index term data) :
    (n.adoptSnapshot index term data).Pictured committed initial [] := by
  obtain ⟨_, _, _, _, _, _, _, raft, _⟩ := n.adoptSnapshot_becomes index term data
  obtain ⟨image, _⟩ := n.adoptSnapshot_current index term data
  obtain ⟨here, labelled⟩ := RaftLog.adopt_base newer term
  rw [carried.decoded] at image
  rw [raft] at image ⊢
  exact .fresh populated start image here (labelled.trans carried.labelled) carried.exact_

-- What was kept is kept still where the installed snapshot comes too late.
theorem Node.snapshotInstalled_pictured {n : Node} {index term : Nat} {data : Bytes} {file : FileId}
    {replyTo : NodeId} {replyTerm : Nat} (populated : Populated committed)
    (pictured : n.Pictured committed initial [.snapshotInstalled index term data file replyTo replyTerm]) :
    (n.snapshotInstalled index term data file replyTo replyTerm).Pictured committed initial [] := by
  cases pictured.portrayed with
  | installing _ _ _ _ _ _ _ newer carried fitting =>
    simp only [snapshotInstalled]
    split
    · rw [send_toRaft]
      exact ⟨pictured.start, pictured.base, pictured.term, .settled fitting⟩
    · rw [send_toRaft]
      exact adoptSnapshot_pictured populated pictured.start newer carried

theorem Node.takeSnapshot_moments (n : Node) (blob : Bytes) : (n.takeSnapshot blob).moments = n.moments := by
  simp only [takeSnapshot]
  split
  · rfl
  · split <;> rfl

theorem Raft.Holds.termAt {r : Raft} (holds : r.Holds committed) (contiguous : r.log.Contiguous) {index term : Nat}
    (above : r.log.snapshotIndex < index) (within : index ≤ r.commitIndex) (known : r.log.termAt index = some term) :
    term = termOf committed index := by
  have inside : index ≠ noIndex := by
    rw [noIndex]
    omega
  rw [RaftLog.termAt, if_neg inside, if_neg (by omega), holds.get contiguous above within] at known
  cases known
  rw [termOf, if_neg inside]

-- The image is that of the entries applied, and the log does not begin there yet.
theorem Node.takeSnapshot_pictured {n : Node} {blob : Bytes} (holds : n.Holds committed)
    (contiguous : n.log.Contiguous) (ordered : n.persister.Ordered) (applied : n.lastApplied ≤ n.commitIndex)
    (machine : blob = (stateAfter committed n.lastApplied).encode)
    (pictured : n.Pictured committed initial n.persister.images) :
    (n.takeSnapshot blob).Pictured committed initial (n.takeSnapshot blob).persister.images := by
  simp only [takeSnapshot]
  split
  · exact pictured
  · next wanted =>
    obtain ⟨_, free, _, newer, _⟩ := not_not.mp wanted
    split
    · exact pictured
    · next term known =>
      obtain ⟨idle, _⟩ := pictured.portrayed.free free
      have members := Raft.configAt_committed holds contiguous pictured.base newer.le applied
      have labelled := holds.termAt contiguous newer applied known
      obtain ⟨p, raft⟩ := { n.claimSnapshot n.lastApplied with
        snapshotData := encodeSnapshotPayload (n.configAt n.lastApplied).1 blob }.writeSnapshot_toRaft
        n.nextSnapshotFile
        { seq := n.snapshotSeq, index := n.lastApplied, term,
          data := encodeSnapshotPayload (n.configAt n.lastApplied).1 blob }
        (.snapshotTaken n.lastApplied term n.nextSnapshotFile)
      have opened := @writeSnapshot_opened { n.claimSnapshot n.lastApplied with
        snapshotData := encodeSnapshotPayload (n.configAt n.lastApplied).1 blob } ordered n.nextSnapshotFile
        { seq := n.snapshotSeq, index := n.lastApplied, term,
          data := encodeSnapshotPayload (n.configAt n.lastApplied).1 blob }
        (.snapshotTaken n.lastApplied term n.nextSnapshotFile)
      have books := opened.persister
      have images : p.images = [.snapshotTaken n.lastApplied term n.nextSnapshotFile] := by
        rw [raft] at books
        rw [show p = _ from books, Persister.images_opened]
        change n.persister.images ++ _ = _
        rw [idle]
        rfl
      rw [raft]
      simp only [images]
      refine ⟨pictured.start, pictured.base, pictured.term, ?_⟩
      rw [labelled]
      refine .taking n.lastApplied n.nextSnapshotFile rfl newer ?_
      rw [portrait, ← members, ← machine]

def Node.Labels (committed : Nat → Entry) (initial : List NodeId) (n : Node) : Prop :=
  ∀ moment ∈ n.moments,
    moment.msg.Labelled committed initial ↔ moment.msg.Apart committed initial moment.raft

structure Node.Portraying (committed : Nat → Entry) (initial : List NodeId) (n : Node) (sm : StateMachine) :
    Prop where
  follows : n.Follows committed sm
  keeping : n.Keeping
  pictured : n.Pictured committed initial n.persister.images
  labels : n.Labels committed initial

theorem Carried.restores {index term : Nat} {data : Bytes} (carried : Carried committed initial index term data) :
    Restores committed index data := ⟨_, _, carried.decoded, carried.restored⟩

theorem RaftMsg.Brings.genuine {msg : RaftMsg} (brings : msg.Brings committed initial) : msg.Genuine committed := by
  cases msg with
  | installSnapshot => exact Carried.restores brings
  | _ => trivial

theorem KvEvent.Brings.genuine {event : KvEvent} (brings : event.Brings committed initial) :
    event.Genuine committed := by
  cases event with
  | message => exact RaftMsg.Brings.genuine brings
  | restart => exact fun snap found => (brings snap found).restores
  | _ => trivial

-- A call that acts on no image and takes none.
theorem portraying_of_leads {cause : Cause} {r : Raft} {n m : Node} {sm : StateMachine} (leads : Leads cause r n m)
    (calm : m.panicked = false) (plain : ∀ action hard, cause = .durable action hard → action.image = none)
    (untaken : cause = .other → m.snapshotSeq = n.snapshotSeq)
    (brings : ∀ src msg, cause = .message src msg → msg.Brings committed initial)
    (fits : cause.Fits committed n.lastApplied)
    (batch : ∀ action hard, cause = .durable action hard → action.Keeps n.toRaft)
    (portraying : n.Portraying committed initial sm) : m.Portraying committed initial sm := by
  have chain := leads calm
  clear leads calm
  suffices n.snapshotSeq ≤ m.snapshotSeq ∧ cause.Fits committed m.lastApplied ∧ m.Follows committed sm ∧
      m.Keeping ∧ (∀ action hard, cause = .durable action hard → action.Keeps m.toRaft) ∧
      m.Pictured committed initial m.persister.images ∧ m.Labels committed initial by
    obtain ⟨_, _, follows, keeping, _, pictured, labels⟩ := this
    exact ⟨follows, keeping, pictured, labels⟩
  induction chain with
  | refl =>
    exact ⟨le_rfl, fits, portraying.follows, portraying.keeping, batch, portraying.pictured, portraying.labels⟩
  | @tail mid last chain act ih =>
    have grows := act.becomes.snapshotSeq_le
    have bound : n.snapshotSeq ≤ mid.snapshotSeq := by
      clear ih untaken grows act
      induction chain with
      | refl => exact le_rfl
      | tail _ act ih => exact ih.trans act.becomes.snapshotSeq_le
    obtain ⟨_, fits, follows, keeping, batch, pictured, labels⟩ := ih fun other => by
      have := untaken other
      omega
    obtain ⟨fits, follows'⟩ := act.follows fits follows
    obtain ⟨keeping', batch'⟩ := act.keeping keeping follows.ordered batch
    refine ⟨bound.trans grows, fits, follows', keeping', batch', ?_, act.labels pictured batch labels⟩
    refine act.pictured plain (fun other => ?_) brings follows.ordered keeping.place pictured
    have := untaken other
    omega

namespace Node

variable (n : Node)

theorem becomeCandidate_snapshotSeq : n.becomeCandidate.snapshotSeq = n.snapshotSeq := by
  rw [becomeCandidate, resetElectionTimer, persistHard_toRaft]

theorem startPreVote_snapshotSeq : n.startPreVote.snapshotSeq = n.snapshotSeq := by
  simp only [startPreVote]
  split
  · rw [becomeCandidate_snapshotSeq]
    rfl
  · rw [sendAll_toRaft]
    rfl

theorem onElectionTimer_snapshotSeq : n.onElectionTimer.snapshotSeq = n.snapshotSeq := by
  simp only [onElectionTimer]
  split
  · rfl
  · split
    · rfl
    · split
      · rfl
      · split
        · exact startPreVote_snapshotSeq _
        · exact becomeCandidate_snapshotSeq _

theorem onHeartbeatTimer_snapshotSeq : n.onHeartbeatTimer.snapshotSeq = n.snapshotSeq := by
  simp only [onHeartbeatTimer]
  split
  · rfl
  · split
    · rfl
    · split
      · rw [resetHeartbeatTimer, broadcastProbe_toRaft, broadcastAppend_toRaft]
      · rw [resetHeartbeatTimer, broadcastAppend_toRaft]

theorem onTimer_snapshotSeq (tag : TimerTag) : (n.onTimer tag).snapshotSeq = n.snapshotSeq := by
  unfold onTimer
  split
  · rfl
  · cases tag with
    | election => exact n.onElectionTimer_snapshotSeq
    | heartbeat => exact n.onHeartbeatTimer_snapshotSeq

theorem propose_snapshotSeq (cmd : Command) : (n.propose cmd).2.snapshotSeq = n.snapshotSeq := by
  simp only [propose]
  split
  · rfl
  · obtain ⟨_, raft, _⟩ := (n.appendEntry (n.ownEntry cmd)).persistLogFrom_spec (n.log.lastIndex + 1) false none 0
      unverified
    rw [broadcastAppend_toRaft, raft, appendEntry]
    split <;> rfl

end Node

namespace Server

variable {s : Server} {now : Nat} {input : Input} {cause : Cause} {n : Node}

-- But for completions, a call begins with the node as it is.
theorem Begins.awake (begins : s.Begins now input cause n) (unstored : ∀ op ok, input ≠ .storage op ok)
    (undrained : ∀ blob, input ≠ .drain blob) :
    n = s.wake now ∧ (∀ action hard, cause ≠ .durable action hard) ∧
      (cause = .other → (s.handle now input).1.snapshotSeq = n.snapshotSeq) := by
  cases begins with
  | timer tag => exact ⟨rfl, nofun, fun _ => (s.wake now).onTimer_snapshotSeq tag⟩
  | propose cmd => exact ⟨rfl, nofun, fun _ => (s.wake now).propose_snapshotSeq cmd⟩
  | message | proposeMembers | reconfigure | read => exact ⟨rfl, nofun, nofun⟩
  | drain blob => exact absurd rfl (undrained blob)
  | dead op ok | booked op ok | failed op ok | sync op ok | done op ok => exact absurd rfl (unstored op ok)

-- A node whose disk has failed does nothing.
theorem handle_failed (failed : s.raft.failed = true) (undrained : ∀ blob, input ≠ .drain blob) :
    (s.handle now input).1 = s.wake now := by
  have dead : (s.wake now).failed = true := failed
  cases input with
  | deliver p => simp only [handle, Node.onMessage, dead, if_true]
  | timer tag => simp only [handle, Node.onTimer, dead, if_true]
  | storage op ok => simp only [handle, Node.onStorage, dead, if_true]
  | propose cmd => simp only [handle, Node.propose, dead, or_true, if_true]
  | reconfigure members => simp only [handle, Node.proposeMembership, dead, or_true, if_true]
  | read => simp only [handle, Node.requestRead, dead, or_true, if_true]
  | drain blob => exact absurd rfl (undrained blob)

end Server

def Node.completed (n : Node) : BatchEvent × Persister → Node
  | (.nothing, p) => { n with persister := p }
  | (.failed, p) => { n with persister := p, failed := true }
  | (.needSync id file, p) => { n.sync file with persister := p.noteSync id n.nextOp }
  | (.done action hard, p) => ({ n with persister := p }.noteDurable hard).onDurable action

theorem Node.onStorage_completed (n : Node) (alive : n.failed = false) (op : OpId) (ok : Bool) :
    n.onStorage op ok = n.completed (n.persister.onComplete op ok) := by
  unfold onStorage
  rw [if_neg (by simp [alive])]
  rcases n.persister.onComplete op ok with ⟨event, p⟩
  cases event <;> rfl

structure Node.Framed (committed : Nat → Entry) (initial : List NodeId) (n : Node) (sm : StateMachine) : Prop where
  follows : n.Follows committed sm
  keeping : n.Keeping
  labels : n.Labels committed initial
  pictured : n.failed = false → n.Pictured committed initial n.persister.images

theorem Node.Portraying.framed {n : Node} {sm : StateMachine} (portraying : n.Portraying committed initial sm) :
    n.Framed committed initial sm :=
  ⟨portraying.follows, portraying.keeping, portraying.labels, fun _ => portraying.pictured⟩

theorem Node.labels_of_silent {n : Node} (silent : n.moments = []) : n.Labels committed initial := by
  intro moment member
  rw [silent] at member
  cases member

theorem Raft.Keeping.emptyQueues {n : Node} (keeping : n.Keeping) : n.emptyQueues.Keeping := by
  have advances : n.Advances n.emptyQueues.toRaft := by
    have applied := keeping.place.takeApplied
    rw [Node.emptyQueues_eq]
    exact keeping.place.still rfl le_rfl le_rfl applied
  refine ⟨advances.place, fun d member => ?_⟩
  rw [Node.emptyQueues_eq] at member
  exact (keeping.duties d member).advances advances

namespace KvServer

variable {who : Identity} {k : KvServer} {event : KvEvent}

theorem wake_framed {now : Nat} (framed : k.toNode.Framed committed initial k.sm) :
    (k.server.wake now).Framed committed initial k.sm :=
  ⟨framed.follows, framed.keeping, Node.labels_of_silent rfl, framed.pictured⟩

-- What a completion leaves of the image while it is being acted on.
theorem completed_image (now : Nat) (p : Persister) (hard : Option HardState) :
    k.SameImage ({ k.server.wake now with persister := p }.noteDurable hard).toRaft := by
  cases hard with
  | none => exact ⟨rfl, rfl, rfl, rfl, rfl, fun busy => busy⟩
  | some hs =>
    obtain ⟨_, _, raft, _⟩ := Node.noteDurable_spec { k.server.wake now with persister := p } hs
    rw [raft]
    exact ⟨rfl, rfl, rfl, rfl, rfl, fun busy => busy⟩

-- The one image on its way is done.
theorem image_done {action : Persist} {images before after : List Persist}
    (portrayed : k.Portrayed committed initial images) (whole : images = before ++ ([action] ++ after)) :
    images = [action] ∧ before ++ after = [] := by
  have single : images.length ≤ 1 := by cases portrayed <;> simp
  rw [whole] at single ⊢
  simp only [List.length_append, List.length_cons, List.length_nil] at single
  have none : before = [] ∧ after = [] := ⟨List.eq_nil_of_length_eq_zero (by omega),
    List.eq_nil_of_length_eq_zero (by omega)⟩
  rw [none.1, none.2]
  exact ⟨rfl, rfl⟩

theorem keeping_of_leads {cause : Cause} {r : Raft} {n m : Node} (leads : Leads cause r n m)
    (calm : m.panicked = false) (ordered : n.persister.Ordered)
    (batch : ∀ action hard, cause = .durable action hard → action.Keeps n.toRaft) (keeping : n.Keeping) :
    m.Keeping := by
  have chain := leads calm
  clear leads calm
  suffices m.Keeping ∧ m.persister.Ordered ∧
      ∀ action hard, cause = .durable action hard → action.Keeps m.toRaft from this.1
  induction chain with
  | refl => exact ⟨keeping, ordered, batch⟩
  | tail _ act ih =>
    obtain ⟨keeping, ordered, batch⟩ := ih
    obtain ⟨keeping', batch'⟩ := act.keeping keeping ordered batch
    exact ⟨keeping', (act.asks ordered).ordered ordered, batch'⟩

-- An image that is on disk: the log begins where it says, or has passed it.
theorem durable_pictured {n : Node} {action : Persist} (populated : Populated committed)
    (holds : n.Holds committed) (contiguous : n.log.Contiguous) (keeps : action.Keeps n.toRaft)
    (image : action.image.isSome) (written : n.persister.images = []) (silent : n.moments = [])
    (pictured : n.Pictured committed initial [action]) :
    (n.onDurable action).Pictured committed initial (n.onDurable action).persister.images ∧
      (n.onDurable action).Labels committed initial := by
  cases action with
  | snapshotTaken index term file =>
    have same : (n.snapshotTaken index term file).persister = n.persister := by
      obtain ⟨_, _, _, _, raft⟩ := { n with
        snapshotInFlight := false
        durableSnapshotFile := some file
        snapshotMembers := (n.configAt index).1
        log := n.log.compactTo index term }.refreshConfig_toRaft
      rw [Node.snapshotTaken, raft]
    rw [Node.onDurable, same, written]
    refine ⟨Node.snapshotTaken_pictured populated holds contiguous keeps pictured, Node.labels_of_silent ?_⟩
    rw [Node.snapshotTaken, Node.refreshConfig_toIo]
    exact silent
  | snapshotInstalled index term data file replyTo replyTerm =>
    have same : (n.snapshotInstalled index term data file replyTo replyTerm).persister = n.persister := by
      obtain ⟨_, _, _, _, _, _, _, raft, _⟩ := (n.land file).adoptSnapshot_becomes index term data
      simp only [Node.snapshotInstalled]
      split
      · rw [Node.send_toRaft]
        rfl
      · rw [Node.send_toRaft, raft]
        rfl
    rw [Node.onDurable, same, written]
    refine ⟨Node.snapshotInstalled_pictured populated pictured, ?_⟩
    have answers (m : Node) (quiet : m.moments = []) (at_ : Nat) :
        (m.send replyTo (.installSnapshotResp replyTerm at_)).Labels committed initial := by
      unfold Node.send Node.ioSend
      split
      · exact Node.labels_of_silent quiet
      · split
        · exact Node.labels_of_silent quiet
        · intro moment member
          simp only [Node.emit, quiet, List.nil_append, List.mem_singleton] at member
          rw [member]
          exact Iff.rfl
    simp only [Node.snapshotInstalled]
    split
    · exact answers (n.land file) silent _
    · refine answers _ ?_ _
      rw [Node.adoptSnapshot_moments]
      exact silent
  | _ => cases image

theorem call_framed {now : Nat} {input : Input} (populated : Populated committed)
    (framed : k.toNode.Framed committed initial k.sm) (holds : k.Holds committed) (brings : event.Brings committed initial)
    (call : k.Calls event now input) (calm : (k.server.handle now input).1.panicked = false) :
    (k.server.handle now input).1.Framed committed initial k.sm := by
  cases failed : k.failed with
  | true =>
    rw [Server.handle_failed failed call.undrained]
    exact wake_framed framed
  | false =>
    have pictured := framed.pictured failed
    -- the log and the machine, whatever the call does about images
    obtain ⟨follows, _⟩ := (Drains.called now input call).follows calm framed.follows brings.genuine
    obtain ⟨cause, n, begun, leads⟩ := k.server.handle_leads now input
    obtain ⟨kept, batch⟩ := begun.keeping framed.keeping
    obtain ⟨_, _, fits, start⟩ := begins_follows framed.follows brings.genuine call begun
    have keeping := keeping_of_leads leads calm start.ordered batch kept
    have here : n.Holds committed := by
      obtain ⟨_, _, _, _, _, _, raft⟩ := begun.toRaft_eq call.undrained
      rw [raft]
      exact holds
    by_cases stored : ∃ op ok, input = .storage op ok
    · obtain ⟨op, ok, rfl⟩ := stored
      have result : (k.server.handle now (.storage op ok)).1 =
          (k.server.wake now).completed (k.persister.onComplete op ok) :=
        (k.server.wake now).onStorage_completed failed op ok
      obtain ⟨quiet, done⟩ := @Persister.onComplete_images k.persister op ok
      cases begun with
      | dead _ _ dead =>
        change k.failed = true at dead
        rw [failed] at dead
        cases dead
      | booked _ _ p completed =>
        change k.persister.onComplete op ok = _ at completed
        rw [completed, Node.completed] at result
        rw [completed] at quiet
        have images : p.images = k.persister.images := quiet nofun nofun
        rw [result] at follows keeping ⊢
        refine ⟨follows, keeping, Node.labels_of_silent rfl, fun _ => ?_⟩
        rw [images]
        exact (completed_image now p none).pictured pictured
      | failed _ _ p completed =>
        change k.persister.onComplete op ok = _ at completed
        rw [completed, Node.completed] at result
        rw [result] at follows keeping ⊢
        exact ⟨follows, keeping, Node.labels_of_silent rfl, nofun⟩
      | sync _ _ id file p completed =>
        change k.persister.onComplete op ok = _ at completed
        rw [completed, Node.completed] at result
        rw [completed] at quiet
        have images : (p.noteSync id k.nextOp).images = k.persister.images :=
          (Persister.images_congr (Persister.duties_noteSync p id k.nextOp)).trans (quiet nofun nofun)
        rw [result] at follows keeping ⊢
        refine ⟨follows, keeping, Node.labels_of_silent rfl, fun _ => ?_⟩
        change Raft.Pictured committed initial _ (p.noteSync id k.nextOp).images
        rw [images]
        have same : k.SameImage ({ (k.server.wake now).sync file with persister := p.noteSync id k.nextOp } : Node).toRaft :=
          ⟨rfl, rfl, rfl, rfl, rfl, fun busy => busy⟩
        exact same.pictured pictured
      | done _ _ action hard p completed =>
        change k.persister.onComplete op ok = _ at completed
        rw [completed, Node.completed] at result
        rw [completed] at done
        obtain ⟨before, after, whole, rest⟩ := done action hard rfl
        have same := completed_image (k := k) now p hard
        have books : ({ k.server.wake now with persister := p }.noteDurable hard).persister = p :=
          Node.noteDurable_persister _ hard
        have silent : ({ k.server.wake now with persister := p }.noteDurable hard).moments = [] :=
          congrArg Io.moments (Node.noteDurable_toIo _ hard)
        cases image : action.image.isSome with
        | false =>
          have plain : action.image = none := by simpa using image
          rw [image] at whole
          have images : p.images = k.persister.images := rest.trans whole.symm
          refine (portraying_of_leads leads calm ?_ nofun nofun fits batch ⟨start, kept, ?_, ?_⟩).framed
          · rintro _ _ ⟨⟩
            exact plain
          · rw [books, images]
            exact same.pictured pictured
          · exact Node.labels_of_silent silent
        | true =>
          rw [image] at whole
          obtain ⟨single, none⟩ := image_done pictured.portrayed whole
          rw [single] at pictured
          rw [result] at follows keeping ⊢
          obtain ⟨later, labels⟩ := durable_pictured populated here start.contiguous (batch _ _ rfl) image
            (by rw [books, rest, none]) silent (same.pictured pictured)
          exact ⟨follows, keeping, labels, fun _ => later⟩
    · push Not at stored
      obtain ⟨rfl, apart, untaken⟩ := begun.awake stored call.undrained
      refine (portraying_of_leads leads calm (fun _ _ done => absurd done (apart _ _)) untaken ?_ fits batch
        ⟨start, kept, pictured, Node.labels_of_silent rfl⟩).framed
      rintro src msg rfl
      obtain ⟨p, rfl, rfl, rfl, -⟩ := begun.message_inv rfl
      cases call with
      | message now src msg => exact brings

theorem holds_of_drain {n : Node} {blob : Bytes} (holds : (n.drain blob).node.Holds committed) :
    n.Holds committed := by
  refine ⟨agrees_of_drain holds.1, ?_⟩
  have reaches := holds.2
  rw [Node.drain_node] at reaches
  obtain ⟨_, _, _, _, _, raft⟩ := n.emptyQueues.takeSnapshot_toRaft blob
  rw [raft, Node.emptyQueues_eq] at reaches
  exact reaches

-- The image that is taken while the queues are drained is that of the machine as it then is.
theorem drained_framed {n : Node} {sm : StateMachine} (framed : n.Framed committed initial sm)
    (calm : (n.drain (n.machine sm).encode).node.panicked = false)
    (holds : (n.drain (n.machine sm).encode).node.Holds committed) :
    (n.drain (n.machine sm).encode).node.Framed committed initial (n.machine sm) := by
  have before := holds_of_drain holds
  obtain ⟨follows, _⟩ := drained_follows framed.follows calm holds.1
  have machine := framed.follows.machine before.1
  have emptied := framed.follows.emptyQueues before.1
  have books : n.emptyQueues.persister = n.persister := by rw [Node.emptyQueues_eq]
  have keeping := framed.keeping.emptyQueues
  have leads : Leads .other n.emptyQueues.toRaft n.emptyQueues (n.emptyQueues.takeSnapshot (n.machine sm).encode) :=
    takeSnapshot_leads rfl _
  rw [Node.drain_node] at *
  refine ⟨follows, keeping_of_leads leads calm emptied.ordered nofun keeping, ?_, ?_⟩
  · intro moment member
    rw [Node.takeSnapshot_moments, Node.emptyQueues_eq] at member
    exact framed.labels moment member
  · intro alive
    have fine : n.failed = false := by
      obtain ⟨_, _, _, _, _, raft⟩ := n.emptyQueues.takeSnapshot_toRaft (n.machine sm).encode
      rw [raft, Node.emptyQueues_eq] at alive
      exact alive
    have same : n.SameImage n.emptyQueues.toRaft := by
      rw [Node.emptyQueues_eq]
      exact ⟨rfl, rfl, rfl, rfl, rfl, fun busy => busy⟩
    refine Node.takeSnapshot_pictured ?_ keeping.place.contiguous emptied.ordered keeping.place.applied ?_ ?_
    · rw [Node.emptyQueues_eq]
      exact before
    · rw [machine]
    · rw [books]
      exact same.pictured (framed.pictured fine)

theorem drain_framed (framed : k.toNode.Framed committed initial k.sm) (calm : k.drain.panicked = false)
    (holds : k.drain.Holds committed) : k.drain.toNode.Framed committed initial k.drain.sm := by
  have node := k.drain_toNode
  rw [drained_sm] at node
  rw [drain_sm]
  generalize k.drain.toNode = after at node calm holds ⊢
  subst node
  exact drained_framed framed calm holds

theorem readDisk_snapshotTerm (wal a b : Bytes) : (readDisk wal a b).log.snapshotTerm =
    ((readDisk wal a b).snapshot.map Snapshot.term).getD 0 := by
  simp only [readDisk, recoveredLog, Option.map_map]
  rfl

-- What survived begins at an image of the sequence, or at its start.
theorem survived_pictured {now : Nat} {wal a b : Bytes} (populated : Populated committed) (id : NodeId)
    (cfg : RaftConfig) (brings : (KvEvent.restart now wal a b).Brings committed initial) :
    ((readDisk wal a b).raft id initial cfg).Pictured committed initial [] := by
  have index := readDisk_snapshotIndex wal a b
  have term := readDisk_snapshotTerm wal a b
  cases found : (readDisk wal a b).snapshot with
  | none =>
    rw [found] at index term
    refine ⟨rfl, ?_, ?_, .settled (.inl ?_)⟩
    · simp only [Survived.raft, Raft.baseConfig, found, index]
      rfl
    · simp only [Survived.raft, index, term]
      rfl
    · simp only [Survived.raft, found]
      rfl
  | some snap =>
    rw [found] at index term
    have carried := brings snap found
    refine .fresh populated rfl ?_ index (term.trans carried.labelled) ?_
    · simp only [Survived.raft, found, Option.bind_some, carried.decoded]
      rfl
    · simp only [Survived.raft, found]
      exact carried.exact_

theorem recover_moments (wal a b : Bytes) (id : NodeId) (members : List NodeId) (cfg : RaftConfig) (io : Io) :
    (recover wal a b id members cfg io).moments = io.moments := by
  rw [recover_toNode]
  change (Raft.recover wal a b id members cfg io).moments = io.moments
  rw [Raft.recover, Survived.boot, Node.resetElectionTimer]
  exact (congrArg Io.moments (Node.refreshConfig_toIo _)).trans rfl

theorem recover_keeping (wal a b : Bytes) (id : NodeId) (members : List NodeId) (cfg : RaftConfig) (io : Io) :
    (recover wal a b id members cfg io).Keeping ∧ (recover wal a b id members cfg io).persister.Ordered := by
  obtain ⟨⟨⟨contiguous, applied, base⟩, duties⟩, ordered⟩ := Raft.recover_keeping wal a b id members cfg io
  rw [recover_toNode]
  exact ⟨⟨⟨contiguous, applied, base⟩, duties⟩, ordered⟩

theorem recover_framed {now : Nat} {wal a b : Bytes} (populated : Populated committed) (io : Io)
    (silent : io.moments = []) (brings : (KvEvent.restart now wal a b).Brings committed who.members) :
    (recover wal a b who.id who.members who.cfg io).toNode.Framed committed who.members
      (recover wal a b who.id who.members who.cfg io).sm := by
  obtain ⟨follows, _⟩ := @recover_follows committed who now wal a b io brings.genuine
  obtain ⟨keeping, _⟩ := recover_keeping wal a b who.id who.members who.cfg io
  obtain ⟨_, _, _, _, _, raft, _⟩ := Raft.recover_toRaft wal a b who.id who.members who.cfg io
  have quiet := (recover_moments wal a b who.id who.members who.cfg io).trans silent
  have pictured := survived_pictured populated who.id who.cfg brings
  have same : ((readDisk wal a b).raft who.id who.members who.cfg).SameImage
      (recover wal a b who.id who.members who.cfg io).toRaft := by
    rw [recover_toNode]
    simp only [raft]
    exact ⟨rfl, rfl, rfl, rfl, rfl, fun busy => busy⟩
  have idle : (recover wal a b who.id who.members who.cfg io).persister.images = [] := by
    rw [recover_toNode]
    simp only [raft]
    rfl
  exact ⟨follows, keeping, Node.labels_of_silent quiet, fun _ => idle ▸ same.pictured pictured⟩

-- There is nothing in the log of a first start.
theorem init_holds : (init who).Holds committed := by
  obtain ⟨_, _, _, _, _, raft, _⟩ := Raft.recover_toRaft [] [] [] who.id who.members who.cfg {}
  rw [init, recover_toNode]
  simp only [raft]
  refine ⟨?_, Nat.zero_le _⟩
  intro e member
  have empty : (readDisk [] [] []).log.entries = [] := rfl
  simp only [Survived.raft, empty] at member
  cases member

theorem handle_framed (populated : Populated committed)
    (framed : k.toNode.Framed committed who.members k.sm) (held : k.Holds committed)
    (brings : event.Brings committed who.members) (calm : (k.handle who event).panicked = false)
    (holds : (k.handle who event).Holds committed) :
    (k.handle who event).toNode.Framed committed who.members (k.handle who event).sm := by
  by_cases boots : ∃ now wal a b, event = .restart now wal a b
  · obtain ⟨now, wal, a, b, rfl⟩ := boots
    exact recover_framed populated _ rfl brings
  · push Not at boots
    have moves := k.handle_moves who boots
    generalize k.handle who event = after at moves calm holds ⊢
    cases moves with
    | asleep now _ node machine =>
      rw [node, machine]
      exact wake_framed framed
    | changed now members call _ node machine =>
      rw [node] at calm
      rw [node, machine]
      exact call_framed populated framed held brings call calm
    | drained now k' node machine =>
      refine drain_framed ?_ calm holds
      rw [node, machine]
      exact wake_framed framed
    | called now input call k' node machine =>
      refine drain_framed ?_ calm holds
      have fine : k'.panicked = false := by
        rw [drain_toNode] at calm
        exact panicked_of_drain calm
      rw [node] at fine
      rw [node, machine]
      exact call_framed populated framed held brings call fine

/-- What is taken for granted of an event: the snapshots it brings are right, and the log it leaves holds what
is committed. -/
def Truthful (committed : Nat → Entry) (who : Identity) (k : KvServer) (event : KvEvent) : Prop :=
  event.Brings committed who.members ∧ (k.handle who event).Holds committed

instance (committed : Nat → Entry) (who : Identity) (k : KvServer) (event : KvEvent) :
    Decidable (Truthful committed who k event) := inferInstanceAs (Decidable (_ ∧ _))

end KvServer

/-- A snapshot is sent under the label of its image just if no snapshot that the server took itself is still
being written, but for one with the same image. -/
theorem snapshot_labelled_iff {committed : Nat → Entry} {who : Identity} {k : KvServer}
    (populated : Populated committed)
    (reached : KvServer.Reachable who (KvServer.Truthful committed who) k) :
    ∀ moment ∈ k.moments, moment.msg.Labelled committed who.members ↔
      moment.msg.Apart committed who.members moment.raft := by
  have invariant : k.toNode.Framed committed who.members k.sm ∧ k.Holds committed := by
    refine @KvServer.Reachable.rule who k _
      (fun k => k.toNode.Framed committed who.members k.sm ∧ k.Holds committed) reached ?_ ?_
    · have brings : (KvEvent.restart 0 [] [] []).Brings committed who.members := by
        intro snap found
        cases found
      exact ⟨KvServer.recover_framed populated {} rfl brings, KvServer.init_holds⟩
    · intro k event ⟨framed, held⟩ ⟨brings, holds⟩ calm
      exact ⟨KvServer.handle_framed populated framed held brings calm holds, holds⟩
  exact invariant.1.labels

def shepherd : Identity where
  id := 0
  members := [0, 1, 2]
  cfg := { preVote := false, snapshotThreshold := 1 }

def flock (index : Nat) : Entry :=
  { term := 1, index, cmd := if index = 1 then .noop else { client := 7, seq := 1, op := .put "k" "v" } }

theorem flock_populated : Populated flock := by
  intro index members changes
  simp only [flock] at changes
  split at changes <;> cases changes

instance (committed : Nat → Entry) (initial : List NodeId) : (msg : RaftMsg) → Decidable (msg.Labelled committed initial)
  | .installSnapshot .. => inferInstanceAs (Decidable (_ ∧ _))
  | .requestVote .. | .requestVoteResp .. | .appendEntries .. | .appendEntriesResp ..
  | .installSnapshotResp .. | .readProbe .. | .readProbeResp .. | .preVote .. | .preVoteResp .. =>
    inferInstanceAs (Decidable True)

/-- One follower keeps up, and the no-op is committed and compacted. Then a write is proposed, and the
follower that lags is sent the snapshot. -/
def oneStray : List KvEvent :=
  [.timer 0 .election, .storage 0 1 true, .storage 0 2 true, .message 0 1 (.requestVoteResp 1 true),
    .storage 0 3 true, .storage 0 4 true, .message 0 1 (.appendEntriesResp 1 true 1 0),
    .storage 0 5 true, .storage 0 6 true, .storage 0 7 true, .request 0 9 1 7 1 (.put "k" "v")]

theorem oneStray_labels :
    (Execution.play (KvServer.step shepherd) (KvServer.Truthful flock shepherd) (KvServer.init shepherd)
      oneStray).map (fun k => k.moments.map fun moment =>
        (moment.dst, decide (moment.msg.Labelled flock shepherd.members))) =
      some [(1, true), (2, true)] := by decide +kernel

theorem snapshot_labelled_iff_shepherd : ∃ k : KvServer,
    KvServer.Reachable shepherd (KvServer.Truthful flock shepherd) k ∧ k.moments.map Moment.dst = [1, 2] ∧
      ∀ moment ∈ k.moments, moment.msg.Labelled flock shepherd.members ↔
        moment.msg.Apart flock shepherd.members moment.raft := by
  obtain ⟨k, played, seen⟩ := Option.map_eq_some_iff.mp oneStray_labels
  have reached : KvServer.Reachable shepherd (KvServer.Truthful flock shepherd) k := Execution.run_of_play played
  have sent := congrArg (List.map Prod.fst) seen
  rw [List.map_map] at sent
  exact ⟨k, reached, sent, snapshot_labelled_iff flock_populated reached⟩

def strayAgain : List KvEvent :=
  oneStray ++ [.storage 0 8 true, .storage 0 9 true, .message 0 1 (.appendEntriesResp 1 true 2 0),
    .timer 0 .heartbeat]

theorem strayAgain_mislabelled :
    (Execution.play (KvServer.step shepherd) (KvServer.Truthful flock shepherd) (KvServer.init shepherd)
      strayAgain).map (fun k => (k.role, decide (∀ moment ∈ k.moments,
        moment.msg.Labelled flock shepherd.members))) = some (.leader, false) := by decide +kernel

/-- The follower is sent the image of two entries as that of one. -/
theorem snapshot_mislabelled : ∃ k : KvServer,
    KvServer.Reachable shepherd (KvServer.Truthful flock shepherd) k ∧ k.role = .leader ∧
      ¬ ∀ moment ∈ k.moments, moment.msg.Labelled flock shepherd.members := by
  obtain ⟨k, played, seen⟩ := Option.map_eq_some_iff.mp strayAgain_mislabelled
  obtain ⟨leads, wrong⟩ := Prod.mk.inj seen
  exact ⟨k, Execution.run_of_play played, leads, of_decide_eq_false wrong⟩

end SimKv
