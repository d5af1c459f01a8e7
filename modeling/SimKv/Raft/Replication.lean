import SimKv.Lib.Agreement
import SimKv.Uncompacted

set_option autoImplicit false

/-!
# What an append message does to a log that matches the leader's

Messages cut out of any version of the leader's log may arrive in any order and as often as they like.
-/

namespace SimKv

open Agreement

structure WellFormed (entries : List Entry) : Prop where
  numbered : ∀ k e, entries[k]? = some e → e.index = k + 1
  ordered : (0 :: entries.map Entry.term).Pairwise (· ≤ ·)

theorem WellFormed.take {entries : List Entry} (formed : WellFormed entries) (k : Nat) :
    WellFormed (entries.take k) where
  numbered := by
    intro i e found
    rw [List.getElem?_take] at found
    split at found
    · exact formed.numbered i e found
    · cases found
  ordered := by
    have fewer : (entries.take k).Sublist entries := List.take_sublist _ _
    exact formed.ordered.sublist ((fewer.map _).cons_cons _)

def Slices (entries : List Entry) (p : Nat) (es : List Entry) : Prop :=
  ∀ i e, es[i]? = some e → entries[p + i]? = some e

theorem Slices.drop {entries es : List Entry} {p : Nat} (slices : Slices entries p es) (skip : Nat) :
    Slices entries (p + skip) (es.drop skip) := by
  intro i e found
  rw [List.getElem?_drop] at found
  rw [Nat.add_assoc]
  exact slices (skip + i) e found

theorem Slices.length_le {entries es : List Entry} {p : Nat} (slices : Slices entries p es)
    (start : p ≤ entries.length) : p + es.length ≤ entries.length := by
  by_contra beyond
  have place : es.length - 1 < es.length := by omega
  obtain ⟨inside, _⟩ := List.getElem?_eq_some_iff.mp (slices _ _ (List.getElem?_eq_getElem place))
  omega

theorem Slices.take_append {entries es : List Entry} {p : Nat} (slices : Slices entries p es)
    (start : p ≤ entries.length) : entries.take p ++ es = entries.take (p + es.length) := by
  have size := slices.length_le start
  apply List.ext_getElem?
  intro k
  rw [List.getElem?_append, List.length_take, Nat.min_eq_left start, List.getElem?_take, List.getElem?_take]
  by_cases before : k < p
  · rw [if_pos before, if_pos before, if_pos (by omega)]
  · rw [if_neg before]
    by_cases inside : k - p < es.length
    · have found := List.getElem?_eq_getElem inside
      rw [found, if_pos (by omega), ← slices _ _ found]
      congr 1
      omega
    · rw [List.getElem?_eq_none (by omega), if_neg (by omega)]

/-- The log is what compaction has left of `entries`, the first of which has index 1. -/
def RaftLog.LeftOf (log : RaftLog) (entries : List Entry) : Prop :=
  ∃ full : FullLog, full.base = 0 ∧ full.baseTerm = 0 ∧ full.entries = entries ∧ log.Refines full

namespace RaftLog.LeftOf

variable {log : RaftLog} {entries : List Entry}

theorem wellFormed (left : log.LeftOf entries) : WellFormed entries := by
  obtain ⟨full, base, baseTerm, rfl, _⟩ := left
  constructor
  · intro k e found
    rw [full.numbered k e found, base]
    omega
  · rw [← baseTerm]
    exact full.ordered

theorem lastIndex (left : log.LeftOf entries) : log.lastIndex = entries.length := by
  obtain ⟨full, base, _, rfl, refines⟩ := left
  rw [refines.lastIndex, FullLog.lastIndex, base, Nat.zero_add]

theorem contiguous (left : log.LeftOf entries) : log.Contiguous := by
  obtain ⟨_, _, _, _, refines⟩ := left
  exact refines.contiguous

theorem tail (left : log.LeftOf entries) : log.entries = entries.drop log.snapshotIndex := by
  obtain ⟨full, base, _, rfl, refines⟩ := left
  rw [refines.entries, refines.boundary, base, Nat.sub_zero]

theorem whole (left : log.LeftOf entries) : entries.take log.snapshotIndex ++ log.entries = entries := by
  rw [left.tail, List.take_append_drop]

theorem termAt (left : log.LeftOf entries) (index : Nat) :
    log.termAt index =
      if index = noIndex then some 0
      else if index < log.snapshotIndex then none else entries[index - 1]?.map Entry.term := by
  obtain ⟨full, base, _, rfl, refines⟩ := left
  rw [refines.termAt, refines.boundary]
  split
  · rfl
  · next positive =>
    split
    · rfl
    · obtain ⟨k, rfl⟩ := Nat.exists_eq_succ_of_ne_zero positive
      rw [FullLog.termAt, if_neg positive, base, if_neg (Nat.not_lt_zero _), FullLog.terms, Nat.sub_zero,
        List.getElem?_cons_succ, List.getElem?_map, Nat.succ_sub_one]

theorem sliceFrom (left : log.LeftOf entries) (index max : Nat) :
    log.sliceFrom index max = if index ≤ log.snapshotIndex then [] else (entries.drop (index - 1)).take max := by
  obtain ⟨full, base, _, rfl, refines⟩ := left
  rw [refines.sliceFrom, refines.boundary, FullLog.sliceFrom, base, Nat.sub_zero]

theorem lastTerm (left : log.LeftOf entries) : log.lastTerm = (entries.getLast?.map Entry.term).getD 0 := by
  obtain ⟨full, _, baseTerm, rfl, refines⟩ := left
  rw [refines.lastTerm, FullLog.lastTerm, baseTerm]

theorem append (left : log.LeftOf entries) {e : Entry} (sound : log.AppendOk e) :
    (log.append e).LeftOf (entries ++ [e]) := by
  obtain ⟨full, base, baseTerm, rfl, refines⟩ := left
  have agrees : full.AppendOk e := (refines.answers.append e).mp sound
  exact ⟨full.append e agrees, base, baseTerm, rfl, refines.append agrees⟩

theorem truncateFrom (left : log.LeftOf entries) {index : Nat} (above : log.snapshotIndex < index) :
    (log.truncateFrom index).LeftOf (entries.take (index - 1)) := by
  obtain ⟨full, base, baseTerm, rfl, refines⟩ := left
  refine ⟨full.truncateFrom index, base, baseTerm, ?_, refines.truncateFrom index⟩
  rw [refines.boundary] at above
  rw [FullLog.entries_truncateFrom, base, Nat.sub_zero, Nat.max_eq_left above]

theorem compactTo (left : log.LeftOf entries) {index term : Nat} (known : log.termAt index = some term) :
    (log.compactTo index term).LeftOf entries := by
  obtain ⟨full, base, baseTerm, rfl, refines⟩ := left
  exact ⟨full.compactTo index, base, baseTerm, rfl, refines.compactTo fun _ _ => known⟩

-- Entries that go on where the log ends pass the assertions.
theorem appendOk (left : log.LeftOf entries) {e : Entry} (formed : WellFormed (entries ++ [e])) : log.AppendOk e := by
  have last : (entries ++ [e])[entries.length]? = some e := List.getElem?_concat_length
  refine ⟨?_, ?_⟩
  · rw [left.lastIndex]
    exact formed.numbered _ e last
  · have old := terms_getLast 0 entries
    rw [← left.lastTerm] at old
    have ordered := formed.ordered
    have inside : entries.length < (0 :: entries.map Entry.term).length := by simp
    rw [List.map_append, List.map_singleton, ← List.cons_append] at ordered
    have earlier : (0 :: entries.map Entry.term ++ [e.term])[entries.length]? = some log.lastTerm := by
      rw [List.getElem?_append_left inside, old]
    have newest : (0 :: entries.map Entry.term ++ [e.term])[entries.length + 1]? = some e.term := by
      rw [List.getElem?_append_right (by simp)]
      simp
    exact Ascending.le_of_getElem? ordered (Nat.le_succ _) earlier newest

theorem appendAll (left : log.LeftOf entries) {es : List Entry} (formed : WellFormed (entries ++ es)) :
    log.AppendsOk es ∧ (log.appendAll es).LeftOf (entries ++ es) := by
  induction es generalizing log entries with
  | nil => exact ⟨trivial, by rwa [List.append_nil]⟩
  | cons e rest ih =>
    have first : WellFormed (entries ++ [e]) := by
      have start := formed.take (entries.length + 1)
      rwa [List.take_append, List.take_of_length_le (by omega), Nat.add_sub_cancel_left, List.take_succ_cons,
        List.take_zero] at start
    have sound := left.appendOk first
    obtain ⟨follow, grown⟩ := ih (left.append sound) (by rwa [List.append_assoc])
    rw [List.append_assoc] at grown
    exact ⟨⟨sound, follow⟩, grown⟩

end RaftLog.LeftOf

theorem RaftLog.leftOf_fromSnapshot {entries : List Entry} (formed : WellFormed entries) :
    (RaftLog.fromSnapshot 0 0 entries).LeftOf entries := by
  have empty : RaftLog.LeftOf { snapshotIndex := 0, snapshotTerm := 0 } [] :=
    ⟨(laidOut_empty 0 0).full, rfl, rfl, rfl, (laidOut_empty 0 0).refines⟩
  exact (empty.appendAll formed).2

section Scan

variable {log : RaftLog} {entries version : List Entry} {p : Nat} {es : List Entry}

inductive Scanned (entries version : List Entry) (p : Nat) (es : List Entry) : Option (Nat × Bool) → Prop where
  | held (reached : p + es.length ≤ agreed entries version) : Scanned entries version p es none
  | conflict (i : Nat) (inside : i < es.length) (edge : agreed entries version = p + i) (present : p + i < entries.length) :
      Scanned entries version p es (some (i, true))
  | beyond (i : Nat) (inside : i < es.length) (edge : agreed entries version = p + i) (ends : entries.length = p + i) :
      Scanned entries version p es (some (i, false))

theorem RaftLog.LeftOf.scanned (left : log.LeftOf entries) (matching : Matching Entry.term entries version)
    (base : log.snapshotIndex ≤ p) (start : p ≤ agreed entries version) (slices : Slices version p es) :
    Scanned entries version p es (Node.firstNew log p es 0) := by
  -- the scan has come to position `i` of the message, and all before agrees
  have scan : ∀ (rest : List Entry) (i : Nat), rest = es.drop i → i ≤ es.length → p + i ≤ agreed entries version →
      Scanned entries version p es (Node.firstNew log p rest i) := by
    intro rest
    induction rest with
    | nil =>
      intro i ends inside reached
      have all : es.length ≤ i := List.drop_eq_nil_iff.mp ends.symm
      exact .held (by omega)
    | cons e rest ih =>
      intro i here _ reached
      have found : es[i]? = some e := by
        have first : (es.drop i)[0]? = some e := by rw [← here, List.getElem?_cons_zero]
        rwa [List.getElem?_drop] at first
      have behind : rest = es.drop (i + 1) := by rw [← List.drop_drop, ← here, List.drop_one, List.tail_cons]
      obtain ⟨inside, _⟩ := List.getElem?_eq_some_iff.mp found
      have theirs := slices i e found
      rw [Node.firstNew, left.termAt, if_neg (by rw [noIndex]; omega), if_neg (by omega),
        show p + 1 + i - 1 = p + i by omega]
      cases own : entries[p + i]? with
      | none =>
        have short := List.getElem?_eq_none_iff.mp own
        have bound : agreed entries version ≤ entries.length := agreed_le_left
        exact .beyond i inside (by omega) (by omega)
      | some mine =>
        dsimp only [Option.map_some]
        split
        · next same =>
          have further := matching.lt_agreed own theirs same
          exact ih (i + 1) behind inside (by omega)
        · next other =>
          have present := (List.getElem?_eq_some_iff.mp own).1
          refine .conflict i inside (le_antisymm ?_ reached) present
          by_contra further
          have alike := getElem?_eq (not_le.mp further)
          rw [own, theirs, Option.some.injEq] at alike
          exact other (congrArg Entry.term alike)
  exact scan es 0 rfl (Nat.zero_le _) start

-- What is appended passes the assertions, and the log takes over what the message says.
theorem RaftLog.LeftOf.accept (left : log.LeftOf entries) (matching : Matching Entry.term entries version)
    (formed : WellFormed version) (base : log.snapshotIndex ≤ p) (start : p ≤ agreed entries version)
    (slices : Slices version p es) :
    (∀ i conflict, Node.firstNew log p es 0 = some (i, conflict) →
      (if conflict then log.truncateFrom (p + 1 + i) else log).AppendsOk (es.drop i)) ∧
    ∃ entries', (log.accept p es).LeftOf entries' ∧ TakesOver version (p + es.length) entries entries' := by
  have scanned := left.scanned matching base start slices
  have bound := slices.length_le (start.trans agreed_le_right)
  rw [RaftLog.accept]
  generalize Node.firstNew log p es 0 = result at scanned ⊢
  -- a log cut to where it agrees goes on as the version does
  have goesOn : ∀ (cut : RaftLog) (i : Nat), i < es.length → agreed entries version = p + i →
      cut.LeftOf (entries.take (p + i)) →
      cut.AppendsOk (es.drop i) ∧ (cut.appendAll (es.drop i)).LeftOf (version.take (p + es.length)) := by
    intro cut i inside edge cutLeft
    have joined := (slices.drop i).take_append (by omega)
    rw [List.length_drop, show p + i + (es.length - i) = p + es.length by omega] at joined
    rw [take_eq edge.ge] at cutLeft
    rw [← joined]
    apply cutLeft.appendAll
    rw [joined]
    exact formed.take _
  cases scanned with
  | held reached =>
    refine ⟨?_, entries, left, .held reached⟩
    intro i conflict found
    cases found
  | conflict i inside edge present =>
    have cut := left.truncateFrom (show log.snapshotIndex < p + 1 + i by omega)
    rw [show p + 1 + i - 1 = p + i by omega] at cut
    obtain ⟨sound, grown⟩ := goesOn _ i inside edge cut
    refine ⟨?_, _, grown, .taken (by omega) bound⟩
    intro j conflict found
    cases found
    exact sound
  | beyond i inside edge ends =>
    have whole : log.LeftOf (entries.take (p + i)) := by rwa [← ends, List.take_length]
    obtain ⟨sound, grown⟩ := goesOn log i inside edge whole
    refine ⟨?_, _, grown, .taken (by omega) bound⟩
    intro j conflict found
    cases found
    exact sound

end Scan

namespace Node

variable {n m k : Node}

structure Spares (n m : Node) : Prop where
  log : m.log = n.log
  commit : m.commitIndex = n.commitIndex
  panicked : m.panicked = n.panicked

theorem Spares.refl (n : Node) : n.Spares n := ⟨rfl, rfl, rfl⟩

theorem Spares.trans (first : n.Spares m) (second : m.Spares k) : n.Spares k where
  log := second.log.trans first.log
  commit := second.commit.trans first.commit
  panicked := second.panicked.trans first.panicked

theorem send_spares (n : Node) (dst : NodeId) (msg : RaftMsg) : n.Spares (n.send dst msg) := by
  have raft := n.send_toRaft dst msg
  refine ⟨congrArg Raft.log raft, congrArg Raft.commitIndex raft, ?_⟩
  unfold send
  split
  · rfl
  · exact n.ioSend_panicked dst msg

theorem replyInTerm_spares (n : Node) (dirty : Bool) (src : NodeId) (msg : RaftMsg) :
    n.Spares (n.replyInTerm dirty src msg) := by
  unfold replyInTerm
  split
  · exact ⟨rfl, rfl, rfl⟩
  · exact n.send_spares src msg

theorem refreshConfig_spares (n : Node) : n.Spares n.refreshConfig := by
  obtain ⟨_, _, _, _, raft⟩ := n.refreshConfig_toRaft
  exact ⟨by rw [raft], by rw [raft], congrArg Io.panicked n.refreshConfig_toIo⟩

theorem persistHardAndLog_spares (n : Node) (start : Nat) (truncated : Bool) (replyTo : Option NodeId)
    (replyTerm verified : Nat) : n.Spares (n.persistHardAndLog start truncated replyTo replyTerm verified) := by
  obtain ⟨_, raft⟩ := n.persistHardAndLog_toRaft start truncated replyTo replyTerm verified
  refine ⟨by rw [raft], by rw [raft], ?_⟩
  exact (persistLog_frame n true start truncated replyTo replyTerm verified _ rfl).2.2

theorem persistLogFrom_spares (n : Node) (start : Nat) (truncated : Bool) (replyTo : Option NodeId)
    (replyTerm verified : Nat) : n.Spares (n.persistLogFrom start truncated replyTo replyTerm verified) := by
  obtain ⟨_, raft, _, _, panicked⟩ := n.persistLogFrom_spec start truncated replyTo replyTerm verified
  exact ⟨by rw [raft], by rw [raft], panicked⟩

theorem appendAll_of_sound {entries : List Entry} (sound : n.log.AppendsOk entries) :
    n.appendAll entries = { n with log := n.log.appendAll entries } := by
  unfold appendAll RaftLog.appendAll
  induction entries generalizing n with
  | nil => rfl
  | cons e rest ih =>
    have first : n.appendEntry e = { n with log := n.log.append e } := if_pos sound.1
    rw [List.foldl_cons, first]
    exact ih sound.2

theorem truncate_frame (n : Node) (at_ : Nat) : (n.truncate at_).log = n.log.truncateFrom at_ ∧
    (n.truncate at_).commitIndex = n.commitIndex ∧ (n.truncate at_).panicked = n.panicked := by
  obtain ⟨_, _, _, _, _, raft⟩ := n.truncate_toRaft at_
  exact ⟨by rw [raft], by rw [raft], congrArg Io.panicked (n.truncate_toIo at_)⟩

-- If the assertions hold, taking entries changes the log as it should.
theorem takeEntries_frame {p i : Nat} {es : List Entry} {conflict : Bool}
    (sound : (if conflict then n.log.truncateFrom (p + 1 + i) else n.log).AppendsOk (es.drop i)) :
    (n.takeEntries p es i conflict).log = n.log.splice p es i conflict ∧
      (n.takeEntries p es i conflict).commitIndex = n.commitIndex ∧
      (n.takeEntries p es i conflict).panicked = n.panicked := by
  have cut : (if conflict then n.truncate (p + 1 + i) else n).log =
        (if conflict then n.log.truncateFrom (p + 1 + i) else n.log) ∧
      (if conflict then n.truncate (p + 1 + i) else n).commitIndex = n.commitIndex ∧
      (if conflict then n.truncate (p + 1 + i) else n).panicked = n.panicked := by
    split
    · exact n.truncate_frame _
    · exact ⟨rfl, rfl, rfl⟩
  simp only [takeEntries, RaftLog.splice]
  generalize (if conflict then n.truncate (p + 1 + i) else n) = m at cut ⊢
  rw [← cut.1] at sound ⊢
  rw [appendAll_of_sound sound]
  split
  · have spares := refreshConfig_spares { m with log := m.log.appendAll (es.drop i) }
    exact ⟨spares.log, spares.commit.trans cut.2.1, spares.panicked.trans cut.2.2⟩
  · exact ⟨rfl, cut.2.1, cut.2.2⟩

theorem acceptAppend_frame {src : NodeId} {p lastNew : Nat} {es : List Entry} {dirty : Bool}
    (sound : ∀ i conflict, firstNew n.log p es 0 = some (i, conflict) →
      (if conflict then n.log.truncateFrom (p + 1 + i) else n.log).AppendsOk (es.drop i)) :
    (n.acceptAppend src p es lastNew dirty).log = n.log.accept p es ∧
      (n.acceptAppend src p es lastNew dirty).commitIndex = n.commitIndex ∧
      (n.acceptAppend src p es lastNew dirty).panicked = n.panicked := by
  unfold acceptAppend
  split
  · next i conflict found =>
    have accepted : n.log.accept p es = n.log.splice p es i conflict := by rw [RaftLog.accept, found]
    obtain ⟨log, commit, panicked⟩ := takeEntries_frame (sound i conflict found)
    rw [accepted]
    dsimp only
    generalize n.takeEntries p es i conflict = m at log commit panicked ⊢
    split
    · have spares := m.persistHardAndLog_spares (p + 1 + i) conflict (some src) m.term lastNew
      exact ⟨spares.log.trans log, spares.commit.trans commit, spares.panicked.trans panicked⟩
    · have spares := m.persistLogFrom_spares (p + 1 + i) conflict (some src) m.term lastNew
      exact ⟨spares.log.trans log, spares.commit.trans commit, spares.panicked.trans panicked⟩
  · next found =>
    have kept : n.log.accept p es = n.log := by rw [RaftLog.accept, found]
    rw [kept]
    split
    · exact ⟨rfl, rfl, rfl⟩
    · have spares := n.send_spares src
        (.appendEntriesResp n.term true (min n.durableIndex lastNew) noIndex)
      exact ⟨spares.log, spares.commit, spares.panicked⟩

/-- The message passes the checks of `on_append_entries`: the snapshot covers it, or the log has what its entries
follow. -/
def Accepts (n : Node) (term prevIndex prevTerm : Nat) (entries : List Entry) : Prop :=
  n.term ≤ term ∧
    (prevIndex < n.log.snapshotIndex ∧ entries.length ≤ n.log.snapshotIndex - prevIndex ∨
      ∃ p t es, Trims n.log prevIndex prevTerm entries p t es ∧ n.log.matchesAt p t)

inductive Received (n : Node) (term prevIndex prevTerm : Nat) (entries : List Entry) (m : Node) : Prop where
  | refused (unfit : ¬ n.Accepts term prevIndex prevTerm entries) (spares : n.Spares m)
  | covered (below : prevIndex < n.log.snapshotIndex)
      (short : entries.length ≤ n.log.snapshotIndex - prevIndex) (spares : n.Spares m)
  | accepted (p t : Nat) (es : List Entry) (trims : Trims n.log prevIndex prevTerm entries p t es)
      (agrees : n.log.matchesAt p t)
      (taken : (∀ i conflict, firstNew n.log p es 0 = some (i, conflict) →
          (if conflict then n.log.truncateFrom (p + 1 + i) else n.log).AppendsOk (es.drop i)) →
        m.log = n.log.accept p es ∧ n.commitIndex ≤ m.commitIndex ∧
          m.commitIndex ≤ max n.commitIndex (prevIndex + entries.length) ∧ m.panicked = n.panicked)

theorem appendInTerm_received (n : Node) (src : NodeId) {term prevIndex prevTerm : Nat} {entries : List Entry}
    (leaderCommit : Nat) (dirty : Bool) :
    Received n term prevIndex prevTerm entries
      (n.appendInTerm src prevIndex prevTerm entries leaderCommit dirty) := by
  simp only [appendInTerm]
  split
  · next covered => exact .covered covered.1 covered.2 (replyInTerm_spares ..)
  · next longer =>
    -- the two ways to come to the consistency check
    have checked : ∀ {p t : Nat} {es : List Entry}, Trims n.log prevIndex prevTerm entries p t es →
        (n.Accepts term prevIndex prevTerm entries → n.log.matchesAt p t) →
        Received n term prevIndex prevTerm entries (if ¬ n.log.matchesAt p t then
          n.replyInTerm dirty src (.appendEntriesResp n.term false n.durableIndex (n.conflictHint p))
          else (n.acceptAppend src p es (prevIndex + entries.length) dirty).followCommit leaderCommit
            (prevIndex + entries.length)) := by
      intro p t es trims needed
      split
      · next differs => exact .refused (fun accepts => differs (needed accepts)) (replyInTerm_spares ..)
      · next agrees =>
        refine .accepted p t es trims (not_not.mp agrees) fun sound => ?_
        obtain ⟨log, commit, panicked⟩ :=
          @acceptAppend_frame n src p (prevIndex + entries.length) es dirty sound
        generalize n.acceptAppend src p es (prevIndex + entries.length) dirty = m at log commit panicked ⊢
        obtain ⟨last, followed, grows, bound⟩ := m.followCommit_spec leaderCommit (prevIndex + entries.length)
        have limit : last ≤ max n.commitIndex (prevIndex + entries.length) := by omega
        rw [followed, ← commit]
        exact ⟨log, grows, commit ▸ limit, panicked⟩
    by_cases below : prevIndex < n.log.snapshotIndex
    · simp only [below, decide_true, if_true]
      refine checked (.skip below (by omega)) ?_
      rintro ⟨_, covered | ⟨_, _, _, trims, agrees⟩⟩
      · exact absurd covered longer
      · cases trims with
        | whole above => omega
        | skip => exact agrees
    · simp only [below, decide_false, Bool.false_eq_true, if_false]
      refine checked (.whole (by omega)) ?_
      rintro ⟨_, covered | ⟨_, _, _, trims, agrees⟩⟩
      · exact absurd covered.1 below
      · cases trims with
        | whole => exact agrees
        | skip lower => exact absurd lower below

theorem onAppendEntries_received (n : Node) (src : NodeId) (term : Nat) (leader : NodeId) (prevIndex prevTerm : Nat)
    (entries : List Entry) (leaderCommit : Nat) :
    Received n term prevIndex prevTerm entries
      (n.onAppendEntries src term leader prevIndex prevTerm entries leaderCommit) := by
  unfold onAppendEntries
  split
  · next stale => exact .refused (fun accepts => absurd accepts.1 (not_le.mpr stale)) (n.send_spares src _)
  · next current =>
    dsimp only
    have stepped : n.Spares (if n.term < term then n.stepDown term else n) := by
      split
      · exact ⟨rfl, rfl, rfl⟩
      · exact .refl n
    have now : (if n.term < term then n.stepDown term else n).term ≤ term := by
      split
      · exact le_rfl
      · exact not_lt.mp current
    generalize (if n.term < term then n.stepDown term else n) = m at stepped now ⊢
    have conceded : m.Spares (m.concede.heardFrom leader) ∧ (m.concede.heardFrom leader).term = m.term := by
      unfold concede
      split
      · exact ⟨⟨rfl, rfl, rfl⟩, rfl⟩
      · exact ⟨⟨rfl, rfl, rfl⟩, rfl⟩
    generalize m.concede.heardFrom leader = k at conceded ⊢
    have spares := stepped.trans conceded.1
    have received : Received k term prevIndex prevTerm entries _ :=
      k.appendInTerm_received src leaderCommit (decide (n.term < term))
    generalize k.appendInTerm src prevIndex prevTerm entries leaderCommit (decide (n.term < term)) = last
      at received ⊢
    cases received with
    | refused unfit rest =>
      refine .refused (fun accepts => unfit ⟨conceded.2.trans_le now, ?_⟩) (spares.trans rest)
      rw [spares.log]
      exact accepts.2
    | covered below short rest =>
      rw [spares.log] at below short
      exact .covered below short (spares.trans rest)
    | accepted p t es trims agrees taken =>
      rw [spares.log] at trims agrees taken
      rw [spares.commit, spares.panicked] at taken
      exact .accepted p t es trims agrees taken

end Node

end SimKv
