import SimKv.Raft.Claims
import SimKv.Raft.Replication
import SimKv.Raft.Slices
import SimKv.Server

set_option autoImplicit false

/-!
# What a node keeps track of

Where the snapshot ends, what is applied, what is committed and where the log ends come in this order, and nothing is
claimed to be on disk that the log does not hold. Every operation keeps it so.
-/

namespace SimKv

/-- The order of the indices a node keeps. -/
structure Raft.Orderly (r : Raft) : Prop where
  base : r.log.snapshotIndex ≤ r.lastApplied
  applied : r.lastApplied ≤ r.commitIndex
  committed : r.commitIndex ≤ r.log.lastIndex
  durable : r.durableIndex ≤ r.log.lastIndex
  uncut : r.truncatedCommitted = 0

def Persist.Backed (r : Raft) : Persist → Prop
  | .snapshotTaken index term _ =>
      index ≤ r.lastApplied ∧ (r.log.snapshotIndex < index → r.log.termAt index = some term)
  | .snapshotInstalled index term _ _ _ _ => index ≠ noIndex ∧ term ≤ r.term
  | _ => True

def Persister.actions (p : Persister) : List Persist := p.batches.map Batch.action

structure Raft.Books (r : Raft) : Prop extends r.Orderly where
  contiguous : r.log.Contiguous
  rooted : r.log.Rooted
  bounded : ∀ t ∈ r.log.terms, t ≤ r.term
  backed : ∀ a ∈ r.persister.actions, a.Backed r

theorem Persist.Backed.keeps {r r' : Raft} {a : Persist} (backed : a.Backed r) (orderly : r.Orderly)
    (log : RaftLog.KeepsTo r.commitIndex r.log r'.log) (applied : r.lastApplied ≤ r'.lastApplied)
    (term : r.term ≤ r'.term) : a.Backed r' := by
  cases a with
  | snapshotTaken index t file =>
    refine ⟨backed.1.trans applied, fun above => ?_⟩
    rw [log.same index (backed.1.trans orderly.applied) above]
    exact backed.2 (log.base.trans_lt above)
  | snapshotInstalled => exact ⟨backed.1, backed.2.trans term⟩
  | _ => trivial

theorem Persist.Backed.clamp {r : Raft} {a : Persist} (backed : a.Backed r) (cap : Nat) : (a.clamp cap).Backed r := by
  cases a with
  | logDurable => trivial
  | _ => exact backed

namespace Persister

variable (p : Persister)

theorem actions_modifyBatch (id : Nat) {f : Batch → Batch} (same : ∀ b, (f b).action = b.action) :
    (p.modifyBatch id f).actions = p.actions := by
  simp only [actions, modifyBatch, List.map_map]
  apply List.map_congr_left
  intro b _
  simp only [Function.comp]
  split
  · exact same b
  · rfl

@[simp] theorem actions_start (action : Persist) : (p.start action).actions = p.actions ++ [action] := by
  simp [actions, start]

@[simp] theorem actions_noteWrite (id : Nat) (op : OpId) : (p.noteWrite id op).actions = p.actions :=
  p.actions_modifyBatch id fun _ => rfl

@[simp] theorem actions_noteSync (id : Nat) (op : OpId) : (p.noteSync id op).actions = p.actions :=
  p.actions_modifyBatch id fun _ => rfl

@[simp] theorem actions_noteFile (id : Nat) (file : FileId) : (p.noteFile id file).actions = p.actions :=
  p.actions_modifyBatch id fun _ => rfl

@[simp] theorem actions_noteHardState (id : Nat) (hs : HardState) : (p.noteHardState id hs).actions = p.actions :=
  p.actions_modifyBatch id fun _ => rfl

theorem actions_clampAll (cap : Nat) : (p.clampAll cap).actions = p.actions.map (Persist.clamp cap) := by
  simp [actions, clampAll]

theorem actions_eq : p.actions = p.duties.map Duty.action := by
  simp only [actions, duties, List.map_map]
  rfl

end Persister

namespace Node

variable {starved : Prop} {n m k : Node}

structure Upholds (starved : Prop) (n m : Node) : Prop where
  books : m.Books
  commit : n.commitIndex ≤ m.commitIndex
  applied : n.lastApplied ≤ m.lastApplied
  calm : m.panicked = true → n.panicked = true ∨ starved

theorem Upholds.refl (books : n.Books) : Upholds starved n n := ⟨books, le_rfl, le_rfl, .inl⟩

theorem Upholds.trans (first : Upholds starved n m) (second : m.Books → Upholds starved m k) : Upholds starved n k := by
  have last := second first.books
  refine ⟨last.books, first.commit.trans last.commit, first.applied.trans last.applied, fun failed => ?_⟩
  rcases last.calm failed with before | reason
  · exact first.calm before
  · exact .inr reason

-- An operation that edits the log.
theorem Upholds.edit (books : n.Books) (orderly : m.Orderly) (contiguous : m.log.Contiguous) (rooted : m.log.Rooted)
    (bounded : ∀ t ∈ m.log.terms, t ≤ m.term) (keeps : RaftLog.KeepsTo n.commitIndex n.log m.log)
    (commit : n.commitIndex ≤ m.commitIndex) (applied : n.lastApplied ≤ m.lastApplied) (term : n.term ≤ m.term)
    (actions : ∀ a ∈ m.persister.actions, ∃ b ∈ n.persister.actions, ∃ cap, a = b ∨ a = b.clamp cap)
    (panicked : m.panicked = n.panicked) : Upholds starved n m where
  books := by
    refine ⟨orderly, contiguous, rooted, bounded, fun a member => ?_⟩
    obtain ⟨b, old, cap, same⟩ := actions a member
    have backed := (books.backed b old).keeps books.toOrderly keeps applied term
    rcases same with rfl | rfl
    · exact backed
    · exact backed.clamp cap
  commit := commit
  applied := applied
  calm failed := .inl (panicked ▸ failed)

-- An operation that leaves the log and the indices alone.
theorem Upholds.still (books : n.Books) (log : m.log = n.log) (commit : m.commitIndex = n.commitIndex)
    (applied : m.lastApplied = n.lastApplied) (durable : m.durableIndex = n.durableIndex)
    (uncut : m.truncatedCommitted = n.truncatedCommitted) (term : n.term ≤ m.term)
    (actions : ∀ a ∈ m.persister.actions, a ∈ n.persister.actions ∨ a.Backed m.toRaft)
    (panicked : m.panicked = n.panicked) : Upholds starved n m where
  books := by
    have same : RaftLog.KeepsTo n.commitIndex n.log m.log := by
      rw [log]
      exact .refl n.log
    constructor
    · constructor
      · exact log ▸ applied ▸ books.base
      · exact applied ▸ commit ▸ books.applied
      · exact log ▸ commit ▸ books.committed
      · exact log ▸ durable ▸ books.durable
      · exact uncut ▸ books.uncut
    · exact log ▸ books.contiguous
    · exact log ▸ books.rooted
    · intro t member
      exact (books.bounded t (log ▸ member)).trans term
    · intro a member
      rcases actions a member with old | new
      · exact (books.backed a old).keeps books.toOrderly same applied.ge term
      · exact new
  commit := commit.ge
  applied := applied.ge
  calm failed := .inl (panicked ▸ failed)

-- An operation that leaves the batches alone as well.
theorem Upholds.idle (books : n.Books) (log : m.log = n.log) (commit : m.commitIndex = n.commitIndex)
    (applied : m.lastApplied = n.lastApplied) (durable : m.durableIndex = n.durableIndex)
    (uncut : m.truncatedCommitted = n.truncatedCommitted) (term : n.term ≤ m.term)
    (actions : m.persister.actions = n.persister.actions) (panicked : m.panicked = n.panicked) : Upholds starved n m :=
  .still books log commit applied durable uncut term (fun _ member => .inl (actions ▸ member)) panicked

theorem Upholds.of_toRaft (books : n.Books) (raft : m.toRaft = n.toRaft) (panicked : m.panicked = n.panicked) :
    Upholds starved n m :=
  .idle books (congrArg Raft.log raft) (congrArg Raft.commitIndex raft) (congrArg Raft.lastApplied raft)
    (congrArg Raft.durableIndex raft) (congrArg Raft.truncatedCommitted raft) (congrArg Raft.term raft).ge
    (congrArg (fun r : Raft => r.persister.actions) raft) panicked

theorem send_upholds (books : n.Books) (dst : NodeId) (msg : RaftMsg) : Upholds starved n (n.send dst msg) :=
  .of_toRaft books (n.send_toRaft dst msg) (n.send_spares dst msg).panicked

theorem sendAll_upholds (books : n.Books) (dsts : List NodeId) (msg : RaftMsg) :
    Upholds starved n (n.sendAll dsts msg) := by
  unfold sendAll
  induction dsts generalizing n with
  | nil => exact .refl books
  | cons dst rest ih => exact (send_upholds books dst msg).trans ih

theorem sendAppendTo_upholds (books : n.Books) (dst : NodeId) : Upholds starved n (n.sendAppendTo dst) := by
  simp only [sendAppendTo]
  split
  · exact send_upholds books dst _
  · split
    · exact .refl books
    · exact send_upholds books dst _

theorem broadcastAppend_upholds (books : n.Books) : Upholds starved n n.broadcastAppend := by
  unfold broadcastAppend
  generalize n.peers = dsts
  induction dsts generalizing n with
  | nil => exact .refl books
  | cons dst rest ih => exact (sendAppendTo_upholds books dst).trans ih

theorem startBatch_upholds (books : n.Books) {action : Persist} (backed : action.Backed n.toRaft) :
    Upholds starved n (n.startBatch action) := by
  refine .still books rfl rfl rfl rfl rfl le_rfl ?_ rfl
  intro a member
  have opened : (n.startBatch action).persister.actions = n.persister.actions ++ [action] :=
    n.persister.actions_start action
  rw [opened] at member
  rcases List.mem_append.mp member with old | new
  · exact .inl old
  · have same := List.mem_singleton.mp new
    subst same
    exact .inr (backed.keeps books.toOrderly (.refl _) le_rfl le_rfl)

theorem Writes.upholds (writes : n.Writes m) (books : n.Books) : Upholds starved n m := by
  have raft := writes.raft
  refine .idle books ?_ ?_ ?_ ?_ ?_ ?_ ?_ writes.panicked
  · rw [raft]
  · rw [raft]
  · rw [raft]
  · rw [raft]
  · rw [raft]
  · rw [raft]
  · rw [m.persister.actions_eq, n.persister.actions_eq, writes.duties]

theorem persistHard_upholds (books : n.Books) {action : Persist} (backed : action.Backed n.toRaft) :
    Upholds starved n (n.persistHard action) := by
  refine (startBatch_upholds books backed).trans fun opened => ?_
  refine .idle opened rfl rfl rfl rfl rfl le_rfl ?_ rfl
  rw [persistHard_toRaft, Persister.actions_noteWrite, Persister.actions_noteHardState]
  rfl

theorem persistLogFrom_upholds (books : n.Books) (start : Nat) (truncated : Bool) (replyTo : Option NodeId)
    (replyTerm verified : Nat) : Upholds starved n (n.persistLogFrom start truncated replyTo replyTerm verified) := by
  have backed : (n.logAction start verified replyTo replyTerm).Backed n.toRaft := trivial
  exact (startBatch_upholds books backed).trans (writeLogFrom_writes ..).upholds

theorem persistHardAndLog_upholds (books : n.Books) (start : Nat) (truncated : Bool) (replyTo : Option NodeId)
    (replyTerm verified : Nat) :
    Upholds starved n (n.persistHardAndLog start truncated replyTo replyTerm verified) := by
  have backed : (n.logAction start verified replyTo replyTerm).Backed n.toRaft := trivial
  exact (persistHard_upholds books backed).trans (writeLogFrom_writes ..).upholds

theorem writeSnapshot_upholds (books : n.Books) (file : FileId) (snap : Snapshot) {action : Persist}
    (backed : action.Backed n.toRaft) : Upholds starved n (n.writeSnapshot file snap action) := by
  obtain ⟨m, whole, writes⟩ : ∃ m, n.writeSnapshot file snap action =
      { m with persister := m.persister.noteFile (n.persister.nextId + 1) file } ∧
      (n.startBatch action).Writes m :=
    ⟨_, rfl, (setLen_writes ..).trans (writeAt_writes ..)⟩
  rw [whole]
  refine ((startBatch_upholds books backed).trans writes.upholds).trans fun written => ?_
  exact .idle written rfl rfl rfl rfl rfl le_rfl (m.persister.actions_noteFile _ _) rfl

-- The claim may move, but not past the log.
theorem Upholds.claim (books : n.Books) {durableIndex : Nat} {parked : List (Nat × Nat)}
    (raft : m.toRaft = { n.toRaft with durableIndex, parked }) (inside : durableIndex ≤ n.log.lastIndex)
    (panicked : m.panicked = n.panicked) : Upholds starved n m := by
  have log : m.log = n.log := by rw [raft]
  have commit : m.commitIndex = n.commitIndex := by rw [raft]
  have applied : m.lastApplied = n.lastApplied := by rw [raft]
  have term : m.term = n.term := by rw [raft]
  refine .edit books ?_ (log ▸ books.contiguous) (log ▸ books.rooted) ?_ (by rw [log]; exact .refl _) commit.ge applied.ge
    term.ge ?_ panicked
  · rw [raft]
    exact ⟨books.base, books.applied, books.committed, inside, books.uncut⟩
  · rw [log, term]
    exact books.bounded
  · intro a member
    rw [raft] at member
    exact ⟨a, member, 0, .inl rfl⟩

theorem advanceDurable_upholds (books : n.Books) : Upholds starved n n.advanceDurable := by
  obtain ⟨d, parked, raft, _, bound⟩ := n.advanceDurable_spec
  exact .claim books raft (bound.trans (max_le books.durable (books.contiguous.atMost_le _))) rfl

theorem noteDurable_upholds (books : n.Books) (hard : Option HardState) : Upholds starved n (n.noteDurable hard) := by
  cases hard with
  | none => exact .refl books
  | some hs =>
    have noted : Upholds starved n (if n.durableHardState.seq ≤ hs.seq then { n with durableHardState := hs } else n) := by
      split
      · exact .idle books rfl rfl rfl rfl rfl le_rfl rfl rfl
      · exact .refl books
    simp only [noteDurable]
    generalize (if n.durableHardState.seq ≤ hs.seq then { n with durableHardState := hs } else n) = m at noted ⊢
    apply noted.trans
    intro later
    split
    · have raised : Upholds starved m { m with durableTerm := hs.term } := .idle later rfl rfl rfl rfl rfl le_rfl rfl rfl
      exact raised.trans advanceDurable_upholds
    · exact .refl later

theorem claimRange_upholds (books : n.Books) (start index : Nat) : Upholds starved n (n.claimRange start index) := by
  obtain ⟨d, parked, raft, _, bound⟩ := n.claimRange_spec start index
  exact .claim books raft (bound.trans (max_le books.durable (books.contiguous.atMost_le _)))
    (congrArg Io.panicked (n.claimRange_toIo start index))

theorem refreshConfig_upholds (books : n.Books) : Upholds starved n n.refreshConfig := by
  obtain ⟨_, _, _, _, raft⟩ := n.refreshConfig_toRaft
  refine .idle books ?_ ?_ ?_ ?_ ?_ ?_ ?_ (congrArg Io.panicked n.refreshConfig_toIo) <;> rw [raft]

theorem appendEntry_upholds (books : n.Books) {e : Entry} (sound : n.log.AppendOk e) (current : e.term ≤ n.term) :
    Upholds starved n (n.appendEntry e) := by
  rw [appendEntry, if_pos sound]
  have longer : n.log.lastIndex ≤ (n.log.append e).lastIndex := by
    rw [n.log.lastIndex_append, sound.1]
    exact Nat.le_succ _
  refine .edit books ?_ (books.contiguous.append sound.1) books.rooted ?_
    (books.contiguous.keepsTo_append books.committed sound) le_rfl le_rfl le_rfl (fun a old => ⟨a, old, 0, .inl rfl⟩) rfl
  · exact ⟨books.base, books.applied, books.committed.trans longer, books.durable.trans longer, books.uncut⟩
  · intro t member
    rcases RaftLog.mem_terms_append member with old | rfl
    · exact books.bounded t old
    · exact current

theorem appendAll_upholds (books : n.Books) {entries : List Entry} (sound : n.log.AppendsOk entries)
    (current : ∀ e ∈ entries, e.term ≤ n.term) : Upholds starved n (n.appendAll entries) := by
  unfold appendAll
  induction entries generalizing n with
  | nil => exact .refl books
  | cons e rest ih =>
    have first : Upholds starved n (n.appendEntry e) :=
      appendEntry_upholds books sound.1 (current e List.mem_cons_self)
    have appended : n.appendEntry e = { n with log := n.log.append e } := if_pos sound.1
    refine first.trans fun later => ih later ?_ ?_
    · rw [appended]
      exact sound.2
    · rw [appended]
      exact fun e' member => current e' (List.mem_cons_of_mem _ member)

theorem ownEntry_ok (books : n.Books) (cmd : Command) : n.log.AppendOk (n.ownEntry cmd) :=
  ⟨rfl, books.bounded _ n.log.lastTerm_mem⟩

theorem appendOwn_upholds (books : n.Books) (cmd : Command) : Upholds starved n (n.appendEntry (n.ownEntry cmd)) :=
  appendEntry_upholds books (ownEntry_ok books cmd) le_rfl

-- A cut above the commit index is not counted.
theorem truncate_uncut {at_ : Nat} (above : n.commitIndex < at_) :
    (n.truncate at_).truncatedCommitted = n.truncatedCommitted := by
  simp only [truncate, if_neg (not_le.mpr above)]
  obtain ⟨_, _, _, _, raft⟩ := { n with log := n.log.truncateFrom at_ }.refreshConfig_toRaft
  rw [raft]

theorem truncate_upholds (books : n.Books) {at_ : Nat} (above : n.commitIndex < at_) :
    Upholds starved n (n.truncate at_) := by
  have uncut := truncate_uncut above
  have io := n.truncate_toIo at_
  obtain ⟨_, _, _, _, _, raft⟩ := n.truncate_toRaft at_
  generalize n.truncate at_ = m at uncut io raft ⊢
  have base : n.log.snapshotIndex < at_ := (books.base.trans books.applied).trans_lt above
  have last := books.contiguous.lastIndex_truncateFrom base
  have committed := books.committed
  have durable := books.durable
  have log : m.log = n.log.truncateFrom at_ := by rw [raft]
  have commit : m.commitIndex = n.commitIndex := by rw [raft]
  have applied : m.lastApplied = n.lastApplied := by rw [raft]
  have term : m.term = n.term := by rw [raft]
  have claim : m.durableIndex = min n.durableIndex (at_ - 1) := by rw [raft]
  refine .edit books ?_ (log ▸ books.contiguous.truncateFrom at_) ?_ ?_ ?_ commit.ge applied.ge term.ge ?_
    (congrArg Io.panicked io)
  · refine ⟨?_, ?_, ?_, ?_, uncut.trans books.uncut⟩
    · rw [log, applied, n.log.snapshotIndex_truncateFrom]
      exact books.base
    · rw [applied, commit]
      exact books.applied
    · rw [log, commit, last]
      omega
    · rw [log, claim, last]
      omega
  · rw [log]
    intro zero
    rw [n.log.snapshotIndex_truncateFrom] at zero
    rw [n.log.snapshotTerm_truncateFrom, books.rooted zero]
  · rw [log, term]
    exact fun t member => books.bounded t (RaftLog.mem_terms_truncateFrom member)
  · rw [log]
    exact books.contiguous.keepsTo_truncateFrom above
  · intro a member
    rw [raft, Persister.actions_clampAll] at member
    obtain ⟨b, old, rfl⟩ := List.mem_map.mp member
    exact ⟨b, old, at_ - 1, .inr rfl⟩

-- What a slice brings is taken in above what is committed.
theorem takeEntries_upholds (books : n.Books) {p t i : Nat} {es : List Entry} {conflict : Bool}
    (sliced : Sliced n.term p t es) (undisputed : n.Undisputed es) (base : n.log.snapshotIndex ≤ p)
    (agrees : n.log.matchesAt p t) (found : firstNew n.log p es 0 = some (i, conflict)) :
    Upholds starved n (n.takeEntries p es i conflict) := by
  obtain ⟨sound, e, here, stops⟩ := sliced.appendsOk books.contiguous books.rooted base agrees found
  have cut : Upholds starved n (if conflict then n.truncate (p + 1 + i) else n) ∧
      (if conflict then n.truncate (p + 1 + i) else n).log =
        (if conflict then n.log.truncateFrom (p + 1 + i) else n.log) ∧
      (if conflict then n.truncate (p + 1 + i) else n).term = n.term := by
    cases conflict with
    | false => exact ⟨.refl books, rfl, rfl⟩
    | true =>
      obtain ⟨own, known, differs⟩ := stops.here
      have index := sliced.index here
      have above : n.commitIndex < p + 1 + i := by
        by_contra low
        rw [← index] at low known
        exact differs (undisputed e (List.mem_of_getElem? here) (not_lt.mp low) own known)
      obtain ⟨_, _, _, _, _, raft⟩ := n.truncate_toRaft (p + 1 + i)
      have term : (n.truncate (p + 1 + i)).term = n.term := by rw [raft]
      exact ⟨truncate_upholds books above, (n.truncate_frame _).1, term⟩
  simp only [takeEntries]
  generalize (if conflict then n.truncate (p + 1 + i) else n) = m at cut ⊢
  obtain ⟨upholds, log, term⟩ := cut
  have appended : Upholds starved n (m.appendAll (es.drop i)) := by
    refine upholds.trans fun later => appendAll_upholds later (log ▸ sound) ?_
    intro e' member
    rw [term]
    exact sliced.bounded e' (List.mem_of_mem_drop member)
  split
  · exact appended.trans refreshConfig_upholds
  · exact appended

theorem followCommit_upholds (books : n.Books) (leaderCommit lastNew : Nat) :
    Upholds starved n (n.followCommit leaderCommit lastNew) := by
  obtain ⟨last, followed, grows, bound⟩ := n.followCommit_spec leaderCommit lastNew
  have committed := books.committed
  have inside : last ≤ n.log.lastIndex := by omega
  rw [followed]
  refine .edit books ?_ books.contiguous books.rooted books.bounded (.refl _) grows le_rfl le_rfl
    (fun a old => ⟨a, old, 0, .inl rfl⟩) rfl
  exact ⟨books.base, books.applied.trans grows, inside, books.durable, books.uncut⟩

theorem stepAsideIfRemoved_upholds (books : n.Books) : Upholds starved n n.stepAsideIfRemoved := by
  unfold stepAsideIfRemoved
  split
  · exact .idle books rfl rfl rfl rfl rfl le_rfl rfl rfl
  · exact .refl books

-- Only a membership without members leaves nothing to count.
theorem maybeCommit_upholds (books : n.Books) (empty : n.members = [] → starved) : Upholds starved n n.maybeCommit := by
  unfold maybeCommit
  split
  · next nothing =>
    refine ⟨⟨books.toOrderly, books.contiguous, books.rooted, books.bounded, books.backed⟩, le_rfl, le_rfl, fun _ => .inr ?_⟩
    by_contra fed
    obtain ⟨candidate, counted⟩ := exists_candidate (n := n) fun none => fed (empty none)
    cases counted.symm.trans nothing
  · next candidate _ =>
    split
    · next newer =>
      have inside := books.contiguous.inside_of_termAt (by rw [noIndex]; omega) newer.2
      have counted : Upholds starved n { n with commitIndex := candidate } := by
        refine .edit books ?_ books.contiguous books.rooted books.bounded (.refl _) newer.1.le le_rfl le_rfl
          (fun a old => ⟨a, old, 0, .inl rfl⟩) rfl
        exact ⟨books.base, books.applied.trans newer.1.le, inside, books.durable, books.uncut⟩
      exact counted.trans stepAsideIfRemoved_upholds
    · exact .refl books

theorem noteMatch_upholds (books : n.Books) (empty : n.members = [] → starved) (src : NodeId) (index : Nat) :
    Upholds starved n (n.noteMatch src index) := by
  unfold noteMatch
  refine .trans ?_ fun noted => maybeCommit_upholds noted empty
  exact .idle books rfl rfl rfl rfl rfl le_rfl rfl rfl

theorem snapshotTaken_upholds (books : n.Books) {index term : Nat} {file : FileId}
    (backed : (Persist.snapshotTaken index term file).Backed n.toRaft) :
    Upholds starved n (n.snapshotTaken index term file) := by
  have last := books.contiguous.lastIndex_compactTo index term
  unfold snapshotTaken
  refine .trans ?_ refreshConfig_upholds
  refine .edit books ?_ (books.contiguous.compactTo index term) (books.rooted.compactTo index term) ?_
    (books.contiguous.keepsTo_compactTo index term) le_rfl le_rfl le_rfl (fun a old => ⟨a, old, 0, .inl rfl⟩) rfl
  · refine ⟨?_, books.applied, books.committed.trans last.ge, books.durable.trans last.ge, books.uncut⟩
    exact (n.log.snapshotIndex_compactTo index term).trans (max_le books.base backed.1)
  · intro t member
    rcases RaftLog.mem_terms_compactTo member with old | ⟨rfl, above, _⟩
    · exact books.bounded t old
    · exact books.bounded t (RaftLog.mem_terms_of_termAt above books.contiguous (backed.2 above))

theorem adoptSnapshot_durable (contiguous : n.log.Contiguous) (index term : Nat) (data : Bytes) :
    (n.adoptSnapshot index term data).durableIndex ≤ (n.log.adopt index term).lastIndex := by
  simp only [adoptSnapshot]
  generalize (decodeSnapshotPayload data).getD (n.baseConfig, []) = pair
  obtain ⟨parked, log, _, _⟩ := (n.stageImage index data pair.2).adoptLog_spec index term
  generalize (n.stageImage index data pair.2).adoptLog index term = m at log ⊢
  have named : (m.setSnapshotMembers pair.1).log = n.log.adopt index term := by
    obtain ⟨_, _, _, _, membership⟩ := { m with snapshotMembers := pair.1 }.refreshConfig_toRaft
    rw [setSnapshotMembers, membership]
    exact congrArg Raft.log log
  generalize m.setSnapshotMembers pair.1 = k at named ⊢
  obtain ⟨d, _, raft, _, bound⟩ :=
    advanceDurable_spec { k with durableIndex := min (max k.durableIndex index) k.log.lastIndex }
  have claimed : (k.claimThrough index).durableIndex = d := congrArg Raft.durableIndex raft
  have capped := (contiguous.adopt index term).atMost_le k.durableTerm
  rw [← named] at capped ⊢
  change (k.claimThrough index).durableIndex ≤ _
  rw [claimed]
  exact bound.trans (max_le (min_le_right _ _) capped)

theorem adoptSnapshot_upholds (books : n.Books) {index term : Nat} (positive : index ≠ noIndex) (current : term ≤ n.term)
    (wanted : n.log.termAt index = some term ∨ n.commitIndex ≤ index) (data : Bytes) :
    Upholds starved n (n.adoptSnapshot index term data) := by
  have panicked := n.adoptSnapshot_panicked index term data
  have durable := adoptSnapshot_durable books.contiguous index term data
  obtain ⟨_, _, _, _, _, _, _, raft, _⟩ := n.adoptSnapshot_becomes index term data
  generalize n.adoptSnapshot index term data = m at panicked durable raft ⊢
  have log : m.log = n.log.adopt index term := by rw [raft]
  have commit : m.commitIndex = max n.commitIndex index := by rw [raft]
  have applied : m.lastApplied = max n.lastApplied index := by rw [raft]
  have same : m.term = n.term := by rw [raft]
  refine .edit books ?_ ?_ ?_ ?_ ?_ ?_ ?_ same.ge ?_ panicked
  · refine ⟨?_, ?_, ?_, log ▸ durable, ?_⟩
    · rw [log, applied]
      exact (n.log.snapshotIndex_adopt index term).trans (max_le_max books.base le_rfl)
    · rw [applied, commit]
      exact max_le_max books.applied le_rfl
    · rw [log, commit]
      exact books.contiguous.le_lastIndex_adopt positive books.committed wanted
    · rw [raft]
      exact books.uncut
  · exact log ▸ books.contiguous.adopt index term
  · exact log ▸ books.rooted.adopt positive term
  · rw [log, same]
    intro t member
    rcases RaftLog.mem_terms_adopt member with old | rfl
    · exact books.bounded t old
    · exact current
  · rw [log]
    exact books.contiguous.keepsTo_adopt (books.base.trans books.applied) wanted
  · exact commit ▸ le_max_left _ _
  · exact applied ▸ le_max_left _ _
  · intro a member
    rw [raft] at member
    exact ⟨a, member, 0, .inl rfl⟩

theorem snapshotInstalled_upholds (books : n.Books) {index term : Nat} {data : Bytes} {file : FileId} {replyTo : NodeId}
    {replyTerm : Nat} (backed : (Persist.snapshotInstalled index term data file replyTo replyTerm).Backed n.toRaft) :
    Upholds starved n (n.snapshotInstalled index term data file replyTo replyTerm) := by
  have landed : Upholds starved n (n.land file) := .idle books rfl rfl rfl rfl rfl le_rfl rfl rfl
  simp only [snapshotInstalled]
  refine landed.trans fun later => ?_
  split
  · exact send_upholds later _ _
  · next wanted =>
    rw [not_and_or, not_not, not_lt] at wanted
    exact (adoptSnapshot_upholds later backed.1 backed.2 wanted data).trans fun adopted => send_upholds adopted _ _

theorem takeSnapshot_upholds (books : n.Books) (data : Bytes) : Upholds starved n (n.takeSnapshot data) := by
  simp only [takeSnapshot]
  split
  · exact .refl books
  · split
    · exact .refl books
    · next term known =>
      have claimed : Upholds starved n { n.claimSnapshot n.lastApplied with
          snapshotData := encodeSnapshotPayload (n.configAt n.lastApplied).1 data } :=
        .idle books rfl rfl rfl rfl rfl le_rfl rfl rfl
      exact claimed.trans fun later => writeSnapshot_upholds later _ _ ⟨le_rfl, fun _ => known⟩

theorem stepDown_upholds (books : n.Books) {term : Nat} (newer : n.term < term) :
    Upholds starved n (n.stepDown term) :=
  .idle books rfl rfl rfl rfl rfl newer.le rfl rfl

theorem stepDownAndPersist_upholds (books : n.Books) {term : Nat} (newer : n.term < term) :
    Upholds starved n (n.stepDownAndPersist term) :=
  (stepDown_upholds books newer).trans fun later => persistHard_upholds later trivial

theorem becomeCandidate_upholds (books : n.Books) : Upholds starved n n.becomeCandidate := by
  have stood : Upholds starved n { n with
      preVotes := none
      term := n.term + 1
      votedFor := some n.id
      role := .candidate
      leader := none
      votes := {n.id} } := .idle books rfl rfl rfl rfl rfl (Nat.le_succ _) rfl rfl
  refine stood.trans fun later => ?_
  refine (persistHard_upholds later (show Persist.Backed _ (.campaign (n.term + 1)) from trivial)).trans fun written => ?_
  exact .idle written rfl rfl rfl rfl rfl le_rfl rfl rfl

-- The first entry of a leader passes the assertions, as does every later one.
theorem becomeLeader_upholds (books : n.Books) : Upholds starved n n.becomeLeader := by
  have office : Upholds starved n n.takeOffice := .idle books rfl rfl rfl rfl rfl le_rfl rfl rfl
  have appended : Upholds starved n (n.takeOffice.appendEntry (n.ownEntry Command.noop)) :=
    office.trans fun later => appendOwn_upholds later Command.noop
  have begun := appended.trans fun later =>
    persistLogFrom_upholds later (n.log.lastIndex + 1) false none 0 unverified
  simp only [becomeLeader]
  generalize (n.takeOffice.appendEntry (n.ownEntry Command.noop)).persistLogFrom (n.log.lastIndex + 1) false none 0
    unverified = m at begun ⊢
  have disarmed : m.Books → Upholds starved m m.disarmElectionTimer := fun later =>
    .idle later rfl rfl rfl rfl rfl le_rfl rfl rfl
  refine (begun.trans disarmed).trans fun later => ?_
  exact (broadcastAppend_upholds later).trans fun told => .idle told rfl rfl rfl rfl rfl le_rfl rfl rfl

theorem startPreVote_upholds (books : n.Books) : Upholds starved n n.startPreVote := by
  have started : Upholds starved n { n with
      role := .follower
      leader := none
      votes := ∅
      preVotes := some {n.id} }.resetElectionTimer := .idle books rfl rfl rfl rfl rfl le_rfl rfl rfl
  simp only [startPreVote]
  generalize { n with
      role := .follower
      leader := none
      votes := ∅
      preVotes := some {n.id} }.resetElectionTimer = m at started ⊢
  refine started.trans fun later => ?_
  split
  · have polled : Upholds starved m { m with preVotes := none } := .idle later rfl rfl rfl rfl rfl le_rfl rfl rfl
    exact polled.trans becomeCandidate_upholds
  · exact sendAll_upholds later _ _

theorem onPreVoteResp_upholds (books : n.Books) (src : NodeId) (term round : Nat) (granted : Bool) :
    Upholds starved n (n.onPreVoteResp src term round granted) := by
  have dropped : Upholds starved n { n with preVotes := none } := .idle books rfl rfl rfl rfl rfl le_rfl rfl rfl
  simp only [onPreVoteResp]
  split
  · next newer => exact dropped.trans fun later => stepDownAndPersist_upholds later newer
  · split
    · split
      · exact dropped
      · exact .refl books
    · split
      · exact .refl books
      · next votes _ =>
        split
        · have counted : Upholds starved n { n with preVotes := some (insert src votes) } :=
            .idle books rfl rfl rfl rfl rfl le_rfl rfl rfl
          split
          · exact dropped.trans becomeCandidate_upholds
          · exact counted
        · exact .refl books

theorem castVote_upholds (books : n.Books) (candidate : NodeId) : Upholds starved n (n.castVote candidate) :=
  .idle books rfl rfl rfl rfl rfl le_rfl rfl rfl

theorem answerVote_upholds (books : n.Books) (src candidate : NodeId) (lastIndex lastTerm : Nat) (dirty : Bool) :
    Upholds starved n (n.answerVote src candidate lastIndex lastTerm dirty) := by
  unfold answerVote
  split
  · split
    · exact (castVote_upholds books candidate).trans fun cast => persistHard_upholds cast trivial
    · split
      · exact castVote_upholds books candidate
      · exact (castVote_upholds books candidate).trans fun cast => send_upholds cast _ _
  · split
    · exact persistHard_upholds books trivial
    · exact send_upholds books _ _

theorem onRequestVote_upholds (books : n.Books) (src : NodeId) (term : Nat) (candidate : NodeId)
    (lastIndex lastTerm : Nat) : Upholds starved n (n.onRequestVote src term candidate lastIndex lastTerm) := by
  unfold onRequestVote
  split
  · exact send_upholds books _ _
  · split
    · exact .refl books
    · split
      · next newer => exact (stepDown_upholds books newer).trans fun later => answerVote_upholds later _ _ _ _ _
      · exact answerVote_upholds books _ _ _ _ _

theorem onVoteResp_upholds (books : n.Books) (src : NodeId) (term : Nat) (granted : Bool) :
    Upholds starved n (n.onVoteResp src term granted) := by
  simp only [onVoteResp]
  split
  · next newer => exact stepDownAndPersist_upholds books newer
  · split
    · exact .refl books
    · split
      · have counted : Upholds starved n { n with votes := insert src n.votes } :=
          .idle books rfl rfl rfl rfl rfl le_rfl rfl rfl
        split
        · exact counted.trans becomeLeader_upholds
        · exact counted
      · exact .refl books

theorem replyInTerm_upholds (books : n.Books) (dirty : Bool) (src : NodeId) (success : Bool) (matchIndex hint : Nat) :
    Upholds starved n (n.replyInTerm dirty src (.appendEntriesResp n.term success matchIndex hint)) := by
  unfold replyInTerm
  split
  · exact persistHard_upholds books trivial
  · exact send_upholds books _ _

theorem acceptAppend_upholds (books : n.Books) (src : NodeId) {p t : Nat} {es : List Entry} (lastNew : Nat) (dirty : Bool)
    (sliced : Sliced n.term p t es) (undisputed : n.Undisputed es) (base : n.log.snapshotIndex ≤ p)
    (agrees : n.log.matchesAt p t) : Upholds starved n (n.acceptAppend src p es lastNew dirty) := by
  simp only [acceptAppend]
  split
  · next i conflict found =>
    refine (takeEntries_upholds books sliced undisputed base agrees found).trans fun taken => ?_
    split
    · exact persistHardAndLog_upholds taken _ _ _ _ _
    · exact persistLogFrom_upholds taken _ _ _ _ _
  · split
    · exact persistHard_upholds books trivial
    · exact send_upholds books _ _

theorem appendInTerm_upholds (books : n.Books) (src : NodeId) {prevIndex prevTerm : Nat} {entries : List Entry}
    (leaderCommit : Nat) (dirty : Bool) (sliced : Sliced n.term prevIndex prevTerm entries)
    (undisputed : n.Undisputed entries) :
    Upholds starved n (n.appendInTerm src prevIndex prevTerm entries leaderCommit dirty) := by
  simp only [appendInTerm]
  split
  · exact replyInTerm_upholds books dirty src _ _ _
  · next longer =>
    have checked : ∀ {p t : Nat} {es : List Entry}, Trims n.log prevIndex prevTerm entries p t es →
        Upholds starved n (if ¬ n.log.matchesAt p t then
          n.replyInTerm dirty src (.appendEntriesResp n.term false n.durableIndex (n.conflictHint p))
          else (n.acceptAppend src p es (prevIndex + entries.length) dirty).followCommit leaderCommit
            (prevIndex + entries.length)) := by
      intro p t es trims
      obtain ⟨left, harmless⟩ := sliced.trims undisputed (books.base.trans books.applied) trims
      split
      · exact replyInTerm_upholds books dirty src _ _ _
      · next agrees =>
        have taken : Upholds starved n (n.acceptAppend src p es (prevIndex + entries.length) dirty) :=
          acceptAppend_upholds books src _ dirty left harmless trims.base (not_not.mp agrees)
        exact taken.trans fun later => followCommit_upholds later leaderCommit _
    by_cases below : prevIndex < n.log.snapshotIndex
    · simp only [below, decide_true, if_true]
      exact checked (.skip below (by omega))
    · simp only [below, decide_false, Bool.false_eq_true, if_false]
      exact checked (.whole (by omega))

theorem concede_upholds (books : n.Books) : Upholds starved n n.concede := by
  unfold concede
  split
  · exact .idle books rfl rfl rfl rfl rfl le_rfl rfl rfl
  · exact .refl books

theorem heardFrom_upholds (books : n.Books) (leader : NodeId) : Upholds starved n (n.heardFrom leader) :=
  .idle books rfl rfl rfl rfl rfl le_rfl rfl rfl

-- Hearing from a leader changes nothing that an append message is checked against.
theorem heardFrom_concede (n : Node) (leader : NodeId) : (n.concede.heardFrom leader).log = n.log ∧
    (n.concede.heardFrom leader).commitIndex = n.commitIndex ∧ (n.concede.heardFrom leader).term = n.term := by
  unfold concede
  split <;> exact ⟨rfl, rfl, rfl⟩

theorem onAppendEntries_upholds (books : n.Books) (src : NodeId) {term : Nat} (leader : NodeId)
    {prevIndex prevTerm : Nat} {entries : List Entry} (leaderCommit : Nat)
    (sliced : Sliced term prevIndex prevTerm entries) (undisputed : n.Undisputed entries) :
    Upholds starved n (n.onAppendEntries src term leader prevIndex prevTerm entries leaderCommit) := by
  simp only [onAppendEntries]
  split
  · exact send_upholds books _ _
  · next current =>
    have settled : Upholds starved n (if n.term < term then n.stepDown term else n) ∧
        (if n.term < term then n.stepDown term else n).term = term ∧
        (if n.term < term then n.stepDown term else n).Undisputed entries := by
      split
      · next newer => exact ⟨stepDown_upholds books newer, rfl, undisputed⟩
      · next same => exact ⟨.refl books, by omega, undisputed⟩
    generalize (if n.term < term then n.stepDown term else n) = m at settled ⊢
    obtain ⟨upholds, same, harmless⟩ := settled
    obtain ⟨log, commit, kept⟩ := m.heardFrom_concede leader
    have heard : Upholds starved n (m.concede.heardFrom leader) :=
      (upholds.trans concede_upholds).trans fun later => heardFrom_upholds later leader
    have fits : (m.concede.heardFrom leader).Undisputed entries := by
      rw [Raft.Undisputed, log, commit]
      exact harmless
    generalize m.concede.heardFrom leader = k at heard fits kept ⊢
    refine heard.trans fun later => appendInTerm_upholds later src leaderCommit _ ?_ fits
    rw [kept, same]
    exact sliced

theorem onAppendResp_upholds (books : n.Books) (empty : n.members = [] → starved) (src : NodeId) (term : Nat)
    (success : Bool) (matchIndex conflictIndex : Nat) :
    Upholds starved n (n.onAppendResp src term success matchIndex conflictIndex) := by
  simp only [onAppendResp]
  split
  · next newer => exact stepDownAndPersist_upholds books newer
  · split
    · exact .refl books
    · split
      · refine (noteMatch_upholds books empty src matchIndex).trans fun noted => ?_
        split
        · exact sendAppendTo_upholds noted src
        · exact .refl noted
      · refine .trans ?_ fun backed => sendAppendTo_upholds backed src
        exact .idle books rfl rfl rfl rfl rfl le_rfl rfl rfl

theorem installInTerm_upholds (books : n.Books) (src : NodeId) {index indexTerm : Nat} (data : Bytes)
    (current : indexTerm ≤ n.term) : Upholds starved n (n.installInTerm src index indexTerm data) := by
  simp only [installInTerm]
  split
  · exact send_upholds books _ _
  · next newer =>
    split
    · exact .refl books
    · have claimed : Upholds starved n (n.claimSnapshot index) := .idle books rfl rfl rfl rfl rfl le_rfl rfl rfl
      refine claimed.trans fun later => writeSnapshot_upholds later _ _ ⟨?_, current⟩
      rw [noIndex]
      omega

theorem onInstallSnapshot_upholds (books : n.Books) (src : NodeId) {term : Nat} (leader : NodeId) {index indexTerm : Nat}
    (data : Bytes) (named : indexTerm ≤ term) :
    Upholds starved n (n.onInstallSnapshot src term leader index indexTerm data) := by
  simp only [onInstallSnapshot]
  split
  · exact send_upholds books _ _
  · next current =>
    have settled : Upholds starved n (if n.term < term then n.stepDownAndPersist term else n) ∧
        (if n.term < term then n.stepDownAndPersist term else n).term = term := by
      split
      · next newer => exact ⟨stepDownAndPersist_upholds books newer, rfl⟩
      · exact ⟨.refl books, by omega⟩
    generalize (if n.term < term then n.stepDownAndPersist term else n) = m at settled ⊢
    obtain ⟨upholds, same⟩ := settled
    obtain ⟨_, _, kept⟩ := m.heardFrom_concede leader
    have heard : Upholds starved n (m.concede.heardFrom leader) :=
      (upholds.trans concede_upholds).trans fun later => heardFrom_upholds later leader
    generalize m.concede.heardFrom leader = k at heard kept ⊢
    refine heard.trans fun later => installInTerm_upholds later src data ?_
    rw [kept, same]
    exact named

theorem onInstallSnapshotResp_upholds (books : n.Books) (empty : n.members = [] → starved) (src : NodeId)
    (term index : Nat) : Upholds starved n (n.onInstallSnapshotResp src term index) := by
  unfold onInstallSnapshotResp
  split
  · next newer => exact stepDownAndPersist_upholds books newer
  · split
    · exact .refl books
    · split
      · exact noteMatch_upholds books empty src index
      · exact .refl books

theorem onReadProbe_upholds (books : n.Books) (src : NodeId) (term : Nat) (leader : NodeId) (seq : Nat) :
    Upholds starved n (n.onReadProbe src term leader seq) := by
  simp only [onReadProbe]
  split
  · exact send_upholds books _ _
  · split
    · next newer =>
      refine (stepDownAndPersist_upholds books newer).trans fun later => ?_
      exact .idle later rfl rfl rfl rfl rfl le_rfl rfl rfl
    · split
      · exact .refl books
      · have yielded : Upholds starved n (if n.role = .candidate then { n with role := .follower, votes := ∅ } else n) := by
          split
          · exact .idle books rfl rfl rfl rfl rfl le_rfl rfl rfl
          · exact .refl books
        refine yielded.trans fun later => ?_
        exact (heardFrom_upholds later leader).trans fun heard => send_upholds heard _ _

theorem onReadProbeResp_upholds (books : n.Books) (src : NodeId) (term seq : Nat) :
    Upholds starved n (n.onReadProbeResp src term seq) := by
  unfold onReadProbeResp
  split
  · next newer => exact stepDownAndPersist_upholds books newer
  · split
    · exact .refl books
    · exact .idle books rfl rfl rfl rfl rfl le_rfl rfl rfl

end Node

/-- An append message carries a slice of a leader's log that contradicts nothing committed, and the snapshot of a leader
is no newer than the leader. -/
def RaftMsg.Proper (r : Raft) : RaftMsg → Prop
  | .appendEntries term _ prevIndex prevTerm entries _ => Sliced term prevIndex prevTerm entries ∧ r.Undisputed entries
  | .installSnapshot term _ _ indexTerm _ => indexTerm ≤ term
  | _ => True

instance (r : Raft) : (msg : RaftMsg) → Decidable (msg.Proper r)
  | .appendEntries .. => inferInstanceAs (Decidable (_ ∧ _))
  | .installSnapshot .. => inferInstanceAs (Decidable (_ ≤ _))
  | .requestVote .. | .requestVoteResp .. | .appendEntriesResp .. | .installSnapshotResp .. | .readProbe .. |
    .readProbeResp .. | .preVote .. | .preVoteResp .. => inferInstanceAs (Decidable True)

def RaftMsg.Counts : RaftMsg → Prop
  | .appendEntriesResp .. | .installSnapshotResp .. => True
  | _ => False

namespace Node

variable {starved : Prop} {n : Node}

theorem onMessage_upholds (books : n.Books) (src : NodeId) {msg : RaftMsg} (proper : msg.Proper n.toRaft)
    (empty : n.members = [] → msg.Counts → starved) : Upholds starved n (n.onMessage src msg) := by
  unfold onMessage
  split
  · exact .refl books
  · cases msg with
    | requestVote => exact onRequestVote_upholds books _ _ _ _ _
    | requestVoteResp => exact onVoteResp_upholds books _ _ _
    | appendEntries => exact onAppendEntries_upholds books _ _ _ proper.1 proper.2
    | appendEntriesResp => exact onAppendResp_upholds books (fun none => empty none trivial) _ _ _ _ _
    | installSnapshot => exact onInstallSnapshot_upholds books _ _ _ proper
    | installSnapshotResp => exact onInstallSnapshotResp_upholds books (fun none => empty none trivial) _ _ _
    | readProbe => exact onReadProbe_upholds books _ _ _ _
    | readProbeResp => exact onReadProbeResp_upholds books _ _ _
    | preVote => exact send_upholds books _ _
    | preVoteResp => exact onPreVoteResp_upholds books _ _ _ _

theorem onTimer_upholds (books : n.Books) (tag : TimerTag) : Upholds starved n (n.onTimer tag) := by
  unfold onTimer
  split
  · exact .refl books
  · cases tag with
    | election =>
      simp only [onElectionTimer]
      split
      · exact .refl books
      · have fired : Upholds starved n { n with electionTimer := {} } := .idle books rfl rfl rfl rfl rfl le_rfl rfl rfl
        refine fired.trans fun later => ?_
        split
        · exact .refl later
        · split
          · exact .idle later rfl rfl rfl rfl rfl le_rfl rfl rfl
          · split
            · exact startPreVote_upholds later
            · exact becomeCandidate_upholds later
    | heartbeat =>
      simp only [onHeartbeatTimer]
      split
      · exact .refl books
      · have fired : Upholds starved n { n with heartbeatTimer := {} } := .idle books rfl rfl rfl rfl rfl le_rfl rfl rfl
        generalize ({ n with heartbeatTimer := {} } : Node) = m at fired ⊢
        refine fired.trans fun later => ?_
        split
        · exact .refl later
        · refine (broadcastAppend_upholds later).trans fun told => ?_
          generalize m.broadcastAppend = k at told ⊢
          refine .trans (m := if k.pendingReads.any fun read => !read.confirmed then k.broadcastProbe else k) ?_ fun asked =>
            .idle asked rfl rfl rfl rfl rfl le_rfl rfl rfl
          split
          · exact sendAll_upholds told _ _
          · exact .refl told

theorem campaignDurable_upholds (books : n.Books) (term : Nat) : Upholds starved n (n.campaignDurable term) := by
  have asked : Upholds starved n (n.sendAll n.peers (.requestVote term n.id n.log.lastIndex n.log.lastTerm)) :=
    sendAll_upholds books _ _
  simp only [campaignDurable]
  split
  · refine asked.trans fun told => ?_
    split
    · exact becomeLeader_upholds told
    · exact .refl told
  · exact .refl books

theorem logDurable_upholds (books : n.Books) (empty : n.members = [] → starved) (start index verified : Nat)
    (replyTo : Option NodeId) (replyTerm : Nat) :
    Upholds starved n (n.logDurable start index verified replyTo replyTerm) := by
  have claimed : Upholds starved n (n.claimRange start index) := claimRange_upholds books start index
  have kept : (n.claimRange start index).members = n.members := by
    obtain ⟨_, _, raft, _⟩ := n.claimRange_spec start index
    rw [raft]
  simp only [logDurable]
  generalize n.claimRange start index = m at claimed kept ⊢
  have counted : ∀ k : Node, k.members = n.members → k.Books →
      Upholds starved k (if k.role = .leader then k.maybeCommit else k) := by
    intro k same later
    split
    · exact maybeCommit_upholds later fun none => empty (same.symm.trans none)
    · exact .refl later
  cases replyTo with
  | none => exact claimed.trans (counted m kept)
  | some dst =>
    have told := m.send_toRaft dst (.appendEntriesResp replyTerm true (min m.durableIndex verified) noIndex)
    refine (claimed.trans fun later => send_upholds later dst _).trans (counted _ ?_)
    exact (congrArg Raft.members told).trans kept

theorem onDurable_upholds (books : n.Books) (empty : n.members = [] → starved) {action : Persist}
    (backed : action.Backed n.toRaft) : Upholds starved n (n.onDurable action) := by
  cases action with
  | campaign term => exact campaignDurable_upholds books term
  | voteReply | reply => exact send_upholds books _ _
  | logDurable => exact logDurable_upholds books empty _ _ _ _ _
  | snapshotTaken => exact snapshotTaken_upholds books backed
  | snapshotInstalled => exact snapshotInstalled_upholds books backed
  | quiet => exact .refl books

theorem onStorage_upholds (books : n.Books) (empty : n.members = [] → starved) (op : OpId) (ok : Bool) :
    Upholds starved n (n.onStorage op ok) := by
  obtain ⟨_, fewer, done⟩ := n.persister.onComplete_spec op ok
  have kept : ∀ p : Persister, (∀ d ∈ p.duties, d ∈ n.persister.duties) →
      ∀ a ∈ p.actions, a ∈ n.persister.actions := by
    intro p fewer a member
    rw [p.actions_eq] at member
    obtain ⟨d, here, rfl⟩ := List.mem_map.mp member
    rw [n.persister.actions_eq]
    exact List.mem_map_of_mem (fewer d here)
  unfold onStorage
  split
  · exact .refl books
  · generalize n.persister.onComplete op ok = result at fewer done ⊢
    obtain ⟨event, p⟩ := result
    have fewer' := kept p fewer
    cases event with
    | nothing => exact .still books rfl rfl rfl rfl rfl le_rfl (fun a member => .inl (fewer' a member)) rfl
    | failed => exact .still books rfl rfl rfl rfl rfl le_rfl (fun a member => .inl (fewer' a member)) rfl
    | needSync id file =>
      refine .still books rfl rfl rfl rfl rfl le_rfl (fun a member => .inl (fewer' a ?_)) rfl
      rwa [← p.actions_noteSync id n.nextOp]
    | done action hard =>
      have booked : Upholds starved n { n with persister := p } :=
        .still books rfl rfl rfl rfl rfl le_rfl (fun a member => .inl (fewer' a member)) rfl
      obtain ⟨d, held, rfl, rfl⟩ := done _ _ rfl
      have held' : d.action ∈ n.persister.actions := by
        rw [n.persister.actions_eq]
        exact List.mem_map_of_mem held
      have noted : Upholds starved n ({ n with persister := p }.noteDurable d.hard) :=
        booked.trans fun later => noteDurable_upholds later d.hard
      obtain ⟨_, _, _, _, raft⟩ : ∃ durableHardState durableTerm durableIndex parked,
          ({ n with persister := p }.noteDurable d.hard).toRaft =
            { n.toRaft with persister := p, durableHardState, durableTerm, durableIndex, parked } := by
        cases d.hard with
        | none => exact ⟨_, _, _, _, rfl⟩
        | some hs =>
          obtain ⟨_, _, raft, _⟩ := noteDurable_spec { n with persister := p } hs
          exact ⟨_, _, _, _, raft⟩
      have backed : d.action.Backed ({ n with persister := p }.noteDurable d.hard).toRaft := by
        rw [raft]
        exact (books.backed _ held').keeps books.toOrderly (.refl _) le_rfl le_rfl
      refine noted.trans fun later => onDurable_upholds later (fun none => empty ?_) backed
      rw [raft] at none
      exact none

theorem propose_upholds (books : n.Books) (cmd : Command) : Upholds starved n (n.propose cmd).2 := by
  simp only [propose]
  split
  · exact .refl books
  · have appended : Upholds starved n (n.appendEntry (n.ownEntry cmd)) := appendOwn_upholds books cmd
    exact (appended.trans fun later => persistLogFrom_upholds later _ false none 0 unverified).trans
      broadcastAppend_upholds

theorem proposeMembership_upholds (books : n.Books) (members : List NodeId) :
    Upholds starved n (n.proposeMembership members).2 := by
  have added : ∀ cmd : Command, Upholds starved n ((n.appendEntry (n.ownEntry cmd)).refreshConfig.persistLogFrom
      (n.log.lastIndex + 1) false none 0 unverified).broadcastAppend := by
    intro cmd
    have appended : Upholds starved n (n.appendEntry (n.ownEntry cmd)) := appendOwn_upholds books cmd
    have refreshed := appended.trans refreshConfig_upholds
    exact (refreshed.trans fun later => persistLogFrom_upholds later _ false none 0 unverified).trans
      broadcastAppend_upholds
  simp only [proposeMembership]
  split
  · exact .refl books
  · split
    · exact .refl books
    · split
      · exact .refl books
      · split
        · exact .refl books
        · split
          · exact .refl books
          · exact added _

theorem requestRead_upholds (books : n.Books) (id : Nat) : Upholds starved n (n.requestRead id).2 := by
  simp only [requestRead]
  split
  · exact .refl books
  · split
    · exact .refl books
    · have accepted : Upholds starved n (n.acceptRead id) := .idle books rfl rfl rfl rfl rfl le_rfl rfl rfl
      refine accepted.trans fun later => ?_
      split
      · exact .refl later
      · exact sendAll_upholds later _ _

-- Draining applies what is committed and no more.
theorem drain_upholds (books : n.Books) (blob : Bytes) : Upholds starved n (n.drain blob).node := by
  obtain ⟨pendingReads, readEvents, drained⟩ := n.drain_spec blob
  obtain ⟨lower, upper⟩ := n.takeApplied_bounds
  have bound : max n.commitIndex (max n.lastApplied n.log.snapshotIndex) = n.commitIndex :=
    max_eq_left (max_le books.applied (books.base.trans books.applied))
  have emptied : Upholds starved n { n with
      pendingRestore := none
      lastApplied := n.takeApplied.2.lastApplied
      pendingReads, readEvents } := by
    refine .edit books ?_ books.contiguous books.rooted books.bounded (.refl _) le_rfl lower le_rfl
      (fun a old => ⟨a, old, 0, .inl rfl⟩) rfl
    exact ⟨books.base.trans lower, upper.trans bound.le, books.committed, books.durable, books.uncut⟩
  rw [drained]
  exact emptied.trans fun later => takeSnapshot_upholds later blob

end Node

def Survived.Abreast (s : Survived) : Prop := s.log.snapshotTerm ≤ s.hard.term ∧ s.log.Rooted

instance (s : Survived) : Decidable s.Abreast := inferInstanceAs (Decidable (_ ∧ _))

theorem keptEntries_term (hardTerm snapIndex expected : Nat) (recovered : List (Entry × Nat)) :
    ∀ e ∈ (keptEntries hardTerm snapIndex expected recovered).map Prod.fst, e.term ≤ hardTerm := by
  induction recovered generalizing expected with
  | nil => simp [keptEntries]
  | cons head rest ih =>
    obtain ⟨entry, offset⟩ := head
    rw [keptEntries]
    split
    · exact ih expected
    · next reached =>
      split
      · exact ih expected
      · split
        · simp
        · rw [List.map_cons]
          exact List.forall_mem_cons.mpr ⟨not_lt.mp reached, ih _⟩

-- A restart keeps the books if the hard state has reached what the snapshot stands for.
theorem Raft.recover_books {wal a b : Bytes} (abreast : (readDisk wal a b).Abreast) (id : NodeId)
    (members : List NodeId) (cfg : RaftConfig) (io : Io) : (recover wal a b id members cfg io).Books := by
  obtain ⟨_, _, _, _, _, raft, _⟩ := recover_toRaft wal a b id members cfg io
  have contiguous := readDisk_contiguous wal a b
  have size := contiguous.lastIndex_eq
  have above : (readDisk wal a b).log.snapshotIndex ≤ (readDisk wal a b).log.lastIndex := by omega
  have terms : ∀ t ∈ (readDisk wal a b).log.terms, t ≤ (readDisk wal a b).hard.term := by
    intro t member
    rcases List.mem_cons.mp member with rfl | later
    · exact abreast.1
    · obtain ⟨e, kept, rfl⟩ := List.mem_map.mp later
      exact keptEntries_term _ _ _ _ e kept
  have rooted := abreast.2
  rw [raft]
  generalize readDisk wal a b = s at contiguous above terms rooted ⊢
  exact ⟨⟨le_rfl, le_rfl, above, le_rfl, rfl⟩, contiguous, rooted, terms, List.forall_mem_nil _⟩

def Input.Proper (r : Raft) : Input → Prop
  | .deliver p => p.msg.Proper r
  | _ => True

instance (r : Raft) : (input : Input) → Decidable (input.Proper r)
  | .deliver p => inferInstanceAs (Decidable (p.msg.Proper r))
  | .timer _ | .storage .. | .propose _ | .reconfigure _ | .read | .drain _ => inferInstanceAs (Decidable True)

def Input.Counts : Input → Prop
  | .deliver p => p.msg.Counts
  | .storage .. => True
  | _ => False

theorem Server.handle_upholds {s : Server} (books : s.raft.Books) (now : Nat) {input : Input}
    (proper : input.Proper s.raft) :
    Node.Upholds (s.raft.members = [] ∧ input.Counts) (s.wake now) (s.handle now input).1 := by
  cases input with
  | deliver p => exact Node.onMessage_upholds (n := s.wake now) books p.src proper fun none counts => ⟨none, counts⟩
  | timer tag => exact Node.onTimer_upholds (n := s.wake now) books tag
  | storage op ok => exact Node.onStorage_upholds (n := s.wake now) books (fun none => ⟨none, trivial⟩) op ok
  | propose cmd => exact Node.propose_upholds (n := s.wake now) books cmd
  | reconfigure members => exact Node.proposeMembership_upholds (n := s.wake now) books members
  | read => exact Node.requestRead_upholds (n := s.wake now) books s.nextRead
  | drain blob => exact Node.drain_upholds (n := s.wake now) books blob

end SimKv
