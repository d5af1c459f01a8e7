import SimKv.Raft.Replication

set_option autoImplicit false

/-!
# A follower comes to agree with its leader

Within a term the leader's log only grows. Whatever append messages cut from its versions reach a follower, in whatever
order and however often, the follower's log agrees with the leader's at least as far as before.
-/

namespace SimKv

open Agreement Node

def RaftLog.VersionOf (log : RaftLog) (lead : List Entry) : Prop := ∃ k, log.LeftOf (lead.take k)

/-- `send_append_to` sends `msg` from some version of the leader's log; next index, batch size and commit index may be
anything. -/
def Produced (term : Nat) (lead : List Entry) (dst : NodeId) (msg : RaftMsg) : Prop :=
  ∃ n : Node, n.term = term ∧ n.log.VersionOf lead ∧ n.sent = [] ∧ (dst, msg) ∈ (n.sendAppendTo dst).sent

theorem Node.mem_sent_send {n : Node} {dst dst' : NodeId} {msg msg' : RaftMsg}
    (member : (dst', msg') ∈ (n.send dst msg).sent) : (dst', msg') ∈ n.sent ∨ msg' = msg := by
  unfold send at member
  split at member
  · exact .inl member
  · rw [sent_ioSend] at member
    rcases List.mem_append.mp member with old | new
    · exact .inl old
    · split at new
      · cases new
      · cases List.mem_singleton.mp new
        exact .inr rfl

theorem Node.sendAppendTo_sends {n : Node} {dst leader : NodeId} {term prevIndex prevTerm leaderCommit : Nat}
    {entries : List Entry} (start : n.sent = [])
    (member : (dst, .appendEntries term leader prevIndex prevTerm entries leaderCommit) ∈ (n.sendAppendTo dst).sent) :
    n.log.termAt prevIndex = some prevTerm ∧ entries = n.log.sliceFrom (prevIndex + 1) n.cfg.maxBatch := by
  simp only [sendAppendTo] at member
  split at member
  · rcases mem_sent_send member with old | new
    · rw [start] at old
      cases old
    · cases new
  · split at member
    · rw [start] at member
      cases member
    · next prevTerm' known =>
      rcases mem_sent_send member with old | new
      · rw [start] at old
        cases old
      · cases new
        refine ⟨known, ?_⟩
        congr 1
        omega

-- The message says what follows an entry of the leader's.
theorem Produced.slices {term : Nat} {lead : List Entry} {dst leader : NodeId} {prevIndex prevTerm leaderCommit : Nat}
    {entries : List Entry}
    (produced : Produced term lead dst (.appendEntries term leader prevIndex prevTerm entries leaderCommit)) :
    ∃ k, WellFormed (lead.take k) ∧ Slices (lead.take k) prevIndex entries ∧ prevIndex ≤ (lead.take k).length ∧
      (prevIndex ≠ noIndex → ∃ e, (lead.take k)[prevIndex - 1]? = some e ∧ e.term = prevTerm) ∧
      (prevIndex = noIndex → prevTerm = 0) := by
  obtain ⟨n, _, ⟨k, left⟩, start, member⟩ := produced
  obtain ⟨known, rfl⟩ := sendAppendTo_sends start member
  have before : prevIndex ≠ noIndex → ∃ e, (lead.take k)[prevIndex - 1]? = some e ∧ e.term = prevTerm := by
    intro positive
    rw [left.termAt, if_neg positive] at known
    split at known
    · cases known
    · exact Option.map_eq_some_iff.mp known
  refine ⟨k, left.wellFormed, ?_, ?_, before, ?_⟩
  · intro i e found
    rw [left.sliceFrom] at found
    split at found
    · cases found
    · rw [List.getElem?_take, Nat.add_sub_cancel] at found
      split at found
      · rwa [List.getElem?_drop] at found
      · cases found
  · by_cases origin : prevIndex = noIndex
    · rw [origin]
      exact Nat.zero_le _
    · obtain ⟨e, found, _⟩ := before origin
      have inside := (List.getElem?_eq_some_iff.mp found).1
      rw [noIndex] at origin
      omega
  · intro origin
    rw [RaftLog.termAt, if_pos origin] at known
    cases known
    rfl

structure Follower where
  node : Node
  whole : List Entry

namespace Follower

variable {term : Nat} {lead : List Entry} {f f' : Follower}

def become (f : Follower) (n : Node) : Follower where
  node := n
  whole := f.whole.take n.log.snapshotIndex ++ n.log.entries

/-- A message from the leader, a compaction of what is committed, or anything that leaves the log and the commit index
alone. -/
inductive Step (term : Nat) (lead : List Entry) (f : Follower) : Follower → Prop where
  | deliver (src dst leader : NodeId) (prevIndex prevTerm : Nat) (entries : List Entry) (leaderCommit : Nat)
      (produced : Produced term lead dst (.appendEntries term leader prevIndex prevTerm entries leaderCommit)) :
      Step term lead f
        (f.become (f.node.onAppendEntries src term leader prevIndex prevTerm entries leaderCommit))
  | compact (index indexTerm : Nat) (file : FileId) (committed : index ≤ f.node.commitIndex)
      (known : f.node.log.termAt index = some indexTerm) :
      Step term lead f (f.become (f.node.snapshotTaken index indexTerm file))
  | other (n : Node) (log : n.log = f.node.log) (commit : n.commitIndex = f.node.commitIndex) :
      Step term lead f (f.become n)

/-- The log matches the leader's, and what is committed is in both. -/
structure Fits (lead : List Entry) (f : Follower) : Prop where
  left : f.node.log.LeftOf f.whole
  matching : Matching Entry.term f.whole lead
  committed : f.node.commitIndex ≤ agreed f.whole lead
  compacted : f.node.log.snapshotIndex ≤ f.node.commitIndex

theorem become_whole {n : Node} {entries : List Entry} (left : n.log.LeftOf entries)
    (below : entries.take n.log.snapshotIndex = f.whole.take n.log.snapshotIndex) : (f.become n).whole = entries := by
  rw [become, ← below, left.whole]

-- Nothing is lost if neither the log nor the commit index changes.
theorem Fits.spared (fits : f.Fits lead) {n : Node} (log : n.log = f.node.log)
    (commit : n.commitIndex = f.node.commitIndex) : (f.become n).whole = f.whole ∧ (f.become n).Fits lead := by
  have left : n.log.LeftOf f.whole := log ▸ fits.left
  have same : (f.become n).whole = f.whole := become_whole left rfl
  refine ⟨same, ?_⟩
  constructor
  case left => rwa [same]
  case matching => exact same.symm ▸ fits.matching
  case committed => exact same.symm ▸ commit.trans_le fits.committed
  case compacted =>
    change n.log.snapshotIndex ≤ n.commitIndex
    rw [log, commit]
    exact fits.compacted

section Delivery

variable {dst leader src : NodeId} {prevIndex prevTerm leaderCommit : Nat} {entries : List Entry}

-- A message that passes the consistency check goes on from where the logs agree.
theorem Fits.follows (fits : f.Fits lead)
    (produced : Produced term lead dst (.appendEntries term leader prevIndex prevTerm entries leaderCommit))
    {p t : Nat} {es : List Entry} (trims : Trims f.node.log prevIndex prevTerm entries p t es)
    (agrees : f.node.log.matchesAt p t) :
    ∃ k, WellFormed (lead.take k) ∧ Slices (lead.take k) p es ∧ p ≤ agreed f.whole (lead.take k) ∧
      f.node.log.snapshotIndex ≤ p ∧ p + es.length = prevIndex + entries.length := by
  obtain ⟨k, formed, slices, start, before, _⟩ := produced.slices
  have compacted := fits.compacted.trans fits.committed
  cases trims with
  | whole above =>
    refine ⟨k, formed, slices, ?_, above, rfl⟩
    by_cases origin : prevIndex = noIndex
    · rw [origin]
      exact Nat.zero_le _
    · obtain ⟨e, theirs, rfl⟩ := before origin
      rw [RaftLog.matchesAt, fits.left.termAt, if_neg origin, if_neg (by omega)] at agrees
      obtain ⟨mine, own, same⟩ := Option.map_eq_some_iff.mp agrees
      have within := (fits.matching.take_right k).lt_agreed own theirs same
      rw [noIndex] at origin
      omega
  | skip below longer =>
    have size := slices.length_le start
    have rest := slices.drop (f.node.log.snapshotIndex - prevIndex)
    rw [show prevIndex + (f.node.log.snapshotIndex - prevIndex) = f.node.log.snapshotIndex by omega] at rest
    refine ⟨k, formed, rest, ?_, le_rfl, ?_⟩
    · rw [agreed_take_right]
      rw [List.length_take] at size
      omega
    · rw [List.length_drop]
      omega

-- What is cut off lies beyond everything that agrees.
theorem Fits.cut_beyond (fits : f.Fits lead)
    (produced : Produced term lead dst (.appendEntries term leader prevIndex prevTerm entries leaderCommit))
    {p t i : Nat} {es : List Entry} (trims : Trims f.node.log prevIndex prevTerm entries p t es)
    (agrees : f.node.log.matchesAt p t) (found : firstNew f.node.log p es 0 = some (i, true)) :
    agreed f.whole lead < p + 1 + i := by
  obtain ⟨k, formed, slices, start, base, _⟩ := fits.follows produced trims agrees
  have scanned := fits.left.scanned (fits.matching.take_right k) base start slices
  have bound := slices.length_le (start.trans agreed_le_right)
  rw [found] at scanned
  cases scanned with
  | conflict _ inside edge =>
    rw [agreed_take_right] at edge
    rw [List.length_take] at bound
    omega

theorem Fits.deliver (fits : f.Fits lead) (src : NodeId)
    (produced : Produced term lead dst (.appendEntries term leader prevIndex prevTerm entries leaderCommit)) :
    (f.become (f.node.onAppendEntries src term leader prevIndex prevTerm entries leaderCommit)).Fits lead ∧
      agreed f.whole lead ≤ agreed
        (f.become (f.node.onAppendEntries src term leader prevIndex prevTerm entries leaderCommit)).whole lead ∧
      (f.node.Accepts term prevIndex prevTerm entries → prevIndex + entries.length ≤ agreed
        (f.become (f.node.onAppendEntries src term leader prevIndex prevTerm entries leaderCommit)).whole lead) ∧
      (f.node.onAppendEntries src term leader prevIndex prevTerm entries leaderCommit).panicked = f.node.panicked := by
  have received := f.node.onAppendEntries_received src term leader prevIndex prevTerm entries leaderCommit
  generalize f.node.onAppendEntries src term leader prevIndex prevTerm entries leaderCommit = m at received ⊢
  have compacted := fits.compacted.trans fits.committed
  cases received with
  | refused unfit spares =>
    obtain ⟨same, still⟩ := fits.spared spares.log spares.commit
    rw [same]
    exact ⟨still, le_rfl, fun accepts => absurd accepts unfit, spares.panicked⟩
  | covered below short spares =>
    obtain ⟨same, still⟩ := fits.spared spares.log spares.commit
    rw [same]
    exact ⟨still, le_rfl, fun _ => by omega, spares.panicked⟩
  | accepted p t es trims agrees taken =>
    obtain ⟨k, formed, slices, start, base, reach⟩ := fits.follows produced trims agrees
    obtain ⟨sound, entries', left, takes⟩ :=
      fits.left.accept (fits.matching.take_right k) formed base start slices
    obtain ⟨log, grows, bound, calm⟩ := taken sound
    have takes := takes.of_take
    rw [← log] at left
    have kept : m.log.snapshotIndex = f.node.log.snapshotIndex := by
      rw [log, RaftLog.accept]
      split
      · rfl
      · exact RaftLog.snapshotIndex_splice ..
    have same : (f.become m).whole = entries' := become_whole left (by rw [kept, takes.take_eq compacted])
    have reaches := takes.reaches
    rw [same]
    refine ⟨?_, takes.mono, fun _ => by omega, calm⟩
    constructor
    case left => rwa [same]
    case matching => exact same.symm ▸ takes.matching fits.matching
    case committed =>
      have mono := takes.mono
      have committed := fits.committed
      change m.commitIndex ≤ _
      rw [same]
      omega
    case compacted =>
      have compacted := fits.compacted
      change m.log.snapshotIndex ≤ m.commitIndex
      omega

end Delivery

theorem Fits.compact (fits : f.Fits lead) {index indexTerm : Nat} (file : FileId)
    (committed : index ≤ f.node.commitIndex) (known : f.node.log.termAt index = some indexTerm) :
    (f.become (f.node.snapshotTaken index indexTerm file)).whole = f.whole ∧
      (f.become (f.node.snapshotTaken index indexTerm file)).Fits lead := by
  obtain ⟨log, commit⟩ : (f.node.snapshotTaken index indexTerm file).log = f.node.log.compactTo index indexTerm ∧
      (f.node.snapshotTaken index indexTerm file).commitIndex = f.node.commitIndex := by
    have spares := refreshConfig_spares { f.node with
      snapshotInFlight := false
      durableSnapshotFile := some file
      snapshotMembers := (f.node.configAt index).1
      log := f.node.log.compactTo index indexTerm }
    exact ⟨spares.log, spares.commit⟩
  generalize f.node.snapshotTaken index indexTerm file = m at log commit ⊢
  have left : m.log.LeftOf f.whole := log ▸ fits.left.compactTo known
  have same : (f.become m).whole = f.whole := become_whole left rfl
  refine ⟨same, ?_⟩
  constructor
  case left => rwa [same]
  case matching => exact same.symm ▸ fits.matching
  case committed => exact same.symm ▸ commit.trans_le fits.committed
  case compacted =>
    have bound := f.node.log.snapshotIndex_compactTo index indexTerm
    have compacted := fits.compacted
    change m.log.snapshotIndex ≤ m.commitIndex
    rw [log, commit]
    omega

theorem Step.fits (step : Step term lead f f') (fits : f.Fits lead) :
    f'.Fits lead ∧ agreed f.whole lead ≤ agreed f'.whole lead := by
  cases step with
  | deliver src dst leader prevIndex prevTerm entries leaderCommit produced =>
    obtain ⟨still, mono, _⟩ := fits.deliver src produced
    exact ⟨still, mono⟩
  | compact index indexTerm file committed known =>
    obtain ⟨same, still⟩ := fits.compact file committed known
    exact ⟨still, same.symm ▸ le_rfl⟩
  | other n log commit =>
    obtain ⟨same, still⟩ := fits.spared log commit
    exact ⟨still, same.symm ▸ le_rfl⟩

abbrev Run (term : Nat) (lead : List Entry) : Follower → Follower → Prop := Relation.ReflTransGen (Step term lead)

theorem Run.fits (run : Run term lead f f') (fits : f.Fits lead) :
    f'.Fits lead ∧ agreed f.whole lead ≤ agreed f'.whole lead := by
  induction run with
  | refl => exact ⟨fits, le_rfl⟩
  | tail _ step ih =>
    obtain ⟨still, mono⟩ := step.fits ih.1
    exact ⟨still, ih.2.trans mono⟩

/-- Whatever messages of one term reach a follower, it agrees with the leader's log no less than before, nothing that
agrees is cut off, and a message that is accepted is held whole. -/
theorem replication_kept (fits : f.Fits lead) (run : Run term lead f f') :
    f'.node.log.LeftOf f'.whole ∧ agreed f.whole lead ≤ agreed f'.whole lead ∧
      (∀ (i : Nat) (e : Entry), f.whole[i]? = some e → lead[i]? = some e → f'.whole[i]? = some e) ∧
      ∀ src dst leader prevIndex prevTerm entries leaderCommit,
        Produced term lead dst (.appendEntries term leader prevIndex prevTerm entries leaderCommit) →
        (∀ p t es i, Trims f'.node.log prevIndex prevTerm entries p t es → f'.node.log.matchesAt p t →
          firstNew f'.node.log p es 0 = some (i, true) → agreed f'.whole lead < p + 1 + i) ∧
        (f'.node.Accepts term prevIndex prevTerm entries → prevIndex + entries.length ≤ agreed
          (f'.become (f'.node.onAppendEntries src term leader prevIndex prevTerm entries leaderCommit)).whole lead) := by
  obtain ⟨still, mono⟩ := run.fits fits
  refine ⟨still.left, mono, fun _ _ => fits.matching.kept mono, ?_⟩
  intro src dst leader prevIndex prevTerm entries leaderCommit produced
  refine ⟨?_, (still.deliver src produced).2.2.1⟩
  intro p t es i trims agrees found
  exact still.cut_beyond produced trims agrees found

def newLead : List Entry := [⟨1, 1, .noop⟩, ⟨2, 2, .noop⟩]

theorem newLead_formed : WellFormed newLead where
  numbered := by
    rintro (_ | _ | k) e found
    · cases found
      rfl
    · cases found
      rfl
    · cases found
  ordered := by decide

def holding (id : NodeId) (entries : List Entry) : Node where
  id := id
  members := [0, 1]
  cfg := {}
  term := 2
  votedFor := none
  log := RaftLog.fromSnapshot 0 0 entries
  commitIndex := 1
  lastApplied := 1
  nextIndex := fun _ => some 2
  durableIndex := 1
  stateSeq := 1
  snapshotSeq := 1
  pendingRestore := none
  durableSnapshotFile := none
  snapshotData := []
  highestSnapshot := 0
  initialMembers := [0, 1]
  snapshotMembers := []
  durableTerm := 2
  durableHardState := { term := 2 }

def oldTail : List Entry := [⟨1, 1, .noop⟩, ⟨1, 2, .noop⟩]

theorem oldTail_formed : WellFormed oldTail where
  numbered := by
    rintro (_ | _ | k) e found
    · cases found
      rfl
    · cases found
      rfl
    · cases found
  ordered := by decide

theorem oldTail_matches : Matching Entry.term oldTail newLead := by
  rintro (_ | _ | i) a b left right same
  · rfl
  · cases left
    cases right
    cases same
  · cases left

def behind : Follower where
  node := holding 1 oldTail
  whole := oldTail

theorem behind_fits : behind.Fits newLead where
  left := RaftLog.leftOf_fromSnapshot oldTail_formed
  matching := oldTail_matches
  committed := by decide
  compacted := by decide

theorem newLead_produced : Produced 2 newLead 1 (.appendEntries 2 0 1 1 [⟨2, 2, .noop⟩] 1) :=
  ⟨holding 0 newLead, rfl, ⟨2, RaftLog.leftOf_fromSnapshot newLead_formed⟩, rfl, by decide⟩

theorem behind_catchesUp :
    (behind.become (behind.node.onAppendEntries 0 2 0 1 1 [⟨2, 2, .noop⟩] 1)).whole[0]? = some ⟨1, 1, .noop⟩ ∧
      2 ≤ agreed (behind.become (behind.node.onAppendEntries 0 2 0 1 1 [⟨2, 2, .noop⟩] 1)).whole newLead := by
  have delivered : Run 2 newLead behind (behind.become (behind.node.onAppendEntries 0 2 0 1 1 [⟨2, 2, .noop⟩] 1)) :=
    .single (.deliver 0 1 0 1 1 _ 1 newLead_produced)
  refine ⟨(replication_kept behind_fits delivered).2.2.1 0 _ rfl rfl, ?_⟩
  have held := ((replication_kept behind_fits .refl).2.2.2 0 1 0 1 1 _ 1 newLead_produced).2
  exact held ⟨le_rfl, .inr ⟨1, 1, _, .whole (Nat.zero_le _), rfl⟩⟩

end Follower

end SimKv
