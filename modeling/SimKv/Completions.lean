import SimKv.Assertions
import SimKv.Raft.Claims

set_option autoImplicit false

/-!
# The order of completions

The durable index does not depend on the order in which syncs complete.
-/

namespace SimKv

open Coverage

namespace Node

variable (n : Node)

def Claimable (done : List Finished) (d : Nat) : Prop :=
  n.durableIndex ≤ d ∧ d ≤ n.log.lastIndexWithTermAtMost (termAfter n.durableTerm done) ∧
    Coverage.Covered (n.parked ++ ranges done) n.durableIndex d

def Settled : Prop := Stuck n.durableCap n.durableIndex n.parked

variable {n}

-- Within the log it makes no difference that a range is cut off at its end.
theorem covered_arrived_iff {done : List Finished} {low d : Nat} (inside : d ≤ n.log.lastIndex) :
    Coverage.Covered (n.arrived done) low d ↔ Coverage.Covered (n.parked ++ ranges done) low d := by
  constructor
  · intro covered i above below
    obtain ⟨range, member, before, behind⟩ := covered i above below
    obtain waits | here := List.mem_append.mp member
    · exact ⟨range, List.mem_append_left _ waits, before, behind⟩
    · obtain ⟨whole, listed, rfl⟩ := List.mem_map.mp here
      exact ⟨whole, List.mem_append_right _ listed, before, behind.trans (min_le_left _ _)⟩
  · intro covered i above below
    obtain ⟨range, member, before, behind⟩ := covered i above below
    obtain waits | here := List.mem_append.mp member
    · exact ⟨range, List.mem_append_left _ waits, before, behind⟩
    · exact ⟨_, List.mem_append_right _ (List.mem_map_of_mem here), before, le_min behind (below.trans inside)⟩

theorem termWith_comm (term : Nat) (a b : Option HardState) :
    termWith (termWith term a) b = termWith (termWith term b) a := by
  cases a <;> cases b <;> simp only [termWith]
  exact max_right_comm _ _ _

theorem termAfter_perm {done done' : List Finished} (same : done.Perm done') (term : Nat) :
    termAfter term done = termAfter term done' :=
  same.foldl_eq' (fun a _ b _ term => termWith_comm term a.2 b.2) term

theorem mem_ranges_perm {done done' : List Finished} (same : done.Perm done') (range : Nat × Nat) :
    range ∈ n.parked ++ ranges done ↔ range ∈ n.parked ++ ranges done' := by
  have moved : (ranges done).Perm (ranges done') := same.filterMap _
  rw [List.mem_append, List.mem_append, moved.mem_iff]

theorem claimable_perm {done done' : List Finished} (same : done.Perm done') :
    n.Claimable done = n.Claimable done' := by
  funext d
  simp only [Claimable, termAfter_perm same, Coverage.Covered, mem_ranges_perm same]

-- Where the claim ends up: as far as the ranges allow, if anything called for a look at them.
theorem Settling.claim {m : Node} {done : List Finished} (settling : n.Settling done done m)
    (contiguous : n.log.Contiguous)
    (start : n.durableIndex ≤ n.log.lastIndexWithTermAtMost (termAfter n.durableTerm done))
    (called : n.Settled ∨ ∃ b ∈ done, n.Stirs b) : IsGreatest {d | n.Claimable done d} m.durableIndex := by
  have stuck : Stuck (n.capAt m.durableTerm) m.durableIndex m.parked := by
    by_cases stirred : ∃ b ∈ done, n.Stirs b
    · exact settling.stuck stirred
    · obtain ⟨claim, term, parked⟩ := settling.still fun b member stirs => stirred ⟨b, member, stirs⟩
      rw [claim, term, parked]
      exact called.resolve_right stirred
  rw [← settling.term] at start
  have greatest := settling.tracks.isGreatest start stuck
  have same : {d | n.Claimable done d} = {d | n.durableIndex ≤ d ∧ d ≤ n.capAt m.durableTerm ∧
      Coverage.Covered (n.arrived done) n.durableIndex d} := by
    ext d
    simp only [Set.mem_ofPred_eq, Claimable, ← settling.term]
    refine and_congr_right fun _ => and_congr_right fun capped => ?_
    exact (covered_arrived_iff (capped.trans (contiguous.atMost_le _))).symm
  rwa [same]

-- A claim that began above the cap stays where it is.
theorem Settling.aloft {m : Node} {done : List Finished} (settling : n.Settling done done m)
    (above : n.log.lastIndexWithTermAtMost (termAfter n.durableTerm done) < n.durableIndex) :
    m.durableIndex = n.durableIndex := by
  have capped := settling.tracks.capped
  rw [settling.term, capAt, max_eq_left above.le] at capped
  exact capped.antisymm settling.tracks.started

/-- Whatever the order in which syncs complete, the durable index ends up the same. It is the largest that the
ranges allow, unless nothing called for a look at them and something could have been claimed before. -/
theorem durableIndex_of_completions {ops ops' : List OpId} (contiguous : n.log.Contiguous) (room : n.Roomy ops)
    (room' : n.Roomy ops') (same : (n.finishesAll ops).Perm (n.finishesAll ops'))
    (plain : ∀ b ∈ n.finishesAll ops, b.1.Plain)
    (elected : (∃ b ∈ n.finishesAll ops, b.1.Campaigns) → n.Short (n.finishesAll ops)) :
    (n.completeAll ops).durableIndex = (n.completeAll ops').durableIndex ∧
      (n.completeAll ops).durableTerm = termAfter n.durableTerm (n.finishesAll ops) ∧
      (n.durableIndex ≤ n.log.lastIndexWithTermAtMost (termAfter n.durableTerm (n.finishesAll ops)) →
        (n.Settled ∨ ∃ b ∈ n.finishesAll ops, n.Stirs b) →
        IsGreatest {d | n.Claimable (n.finishesAll ops) d} (n.completeAll ops).durableIndex) ∧
      ((∀ b ∈ n.finishesAll ops, ¬ n.Stirs b) → (n.completeAll ops).durableIndex = n.durableIndex) ∧
      ∀ m : Node, m.durableIndex ≤ m.advanceDurable.durableIndex ∧
        ∀ more, advanceLoop m.durableCap (m.parked.length + 2 + more) m.durableIndex m.parked =
          advanceLoop m.durableCap (m.parked.length + 2) m.durableIndex m.parked := by
  have shorts : n.Short (n.finishesAll ops) → n.Short (n.finishesAll ops') := by
    intro short range member
    exact short range ((mem_ranges_perm same range).mpr member)
  have one := (Settling.start contiguous (n.finishesAll ops)).run room rfl plain elected
  have other := (Settling.start contiguous (n.finishesAll ops')).run room' rfl
    (fun b member => plain b (same.mem_iff.mpr member))
    fun ⟨b, member, stands⟩ => shorts (elected ⟨b, same.mem_iff.mpr member, stands⟩)
  refine ⟨?_, one.term, fun start => one.claim contiguous start, fun quiet => (one.still quiet).1,
    fun m => ⟨(advanceLoop_bounds _ _ _ _).1, advanceLoop_fuel claimsLeft_le⟩⟩
  by_cases start : n.durableIndex ≤ n.log.lastIndexWithTermAtMost (termAfter n.durableTerm (n.finishesAll ops))
  · by_cases stirred : ∃ b ∈ n.finishesAll ops, n.Stirs b
    · have stirred' : ∃ b ∈ n.finishesAll ops', n.Stirs b := by
        obtain ⟨b, member, stirs⟩ := stirred
        exact ⟨b, same.mem_iff.mp member, stirs⟩
      refine (one.claim contiguous start (.inr stirred)).unique ?_
      rw [claimable_perm same]
      exact other.claim contiguous (termAfter_perm same _ ▸ start) (.inr stirred')
    · have still : ∀ b ∈ n.finishesAll ops, ¬ n.Stirs b := fun b member stirs => stirred ⟨b, member, stirs⟩
      rw [(one.still still).1, (other.still fun b member => still b (same.mem_iff.mpr member)).1]
  · rw [not_le] at start
    rw [one.aloft start, other.aloft (termAfter_perm same _ ▸ start)]

def inFlight (parked : List (Nat × Nat)) (batches : List Batch) (ops : List (OpId × Nat × OpKind)) : Node where
  id := 0
  members := [0]
  cfg := {}
  term := 2
  votedFor := none
  log := { entries := [⟨1, 1, .noop⟩, ⟨2, 2, .noop⟩] }
  commitIndex := 0
  lastApplied := 0
  durableIndex := 0
  parked
  stateSeq := 1
  snapshotSeq := 1
  pendingRestore := none
  durableSnapshotFile := none
  snapshotData := []
  highestSnapshot := 0
  initialMembers := [0]
  snapshotMembers := []
  durableTerm := 1
  durableHardState := { term := 1 }
  persister := { batches, ops }

def syncing (id : Nat) (action : Persist) (hard : Option HardState) : Batch :=
  { id, syncIssued := true, action, hard }

theorem inFlight_contiguous (parked : List (Nat × Nat)) (batches : List Batch) (ops : List (OpId × Nat × OpKind)) :
    (inFlight parked batches ops).log.Contiguous := by
  rintro (_ | _ | k) e found
  · cases found
    rfl
  · cases found
    rfl
  · cases found

theorem durableIndex_of_two_entries :
    let n := inFlight [] [syncing 1 (.logDurable 1 1 1 none 0) none,
      syncing 2 (.logDurable 2 2 2 none 0) (some { term := 2, seq := 1 })] [(1, 1, .sync), (2, 2, .sync)]
    (n.completeAll [2, 1]).durableIndex = (n.completeAll [1, 2]).durableIndex ∧
      IsGreatest {d | n.Claimable (n.finishesAll [2, 1]) d} (n.completeAll [2, 1]).durableIndex := by
  intro n
  have second : n.finishesAll [2, 1] =
      [(.logDurable 2 2 2 none 0, some { term := 2, seq := 1 }), (.logDurable 1 1 1 none 0, none)] := rfl
  have first : n.finishesAll [1, 2] =
      [(.logDurable 1 1 1 none 0, none), (.logDurable 2 2 2 none 0, some { term := 2, seq := 1 })] := rfl
  have settled := @durableIndex_of_completions n [2, 1] [1, 2] (inFlight_contiguous _ _ _)
    ⟨by decide, by decide, trivial⟩ ⟨by decide, by decide, trivial⟩ (by rw [first, second]; exact .swap ..)
    (by rw [second]; simp [Persist.Plain]) (by rw [second]; simp [Persist.Campaigns])
  refine ⟨settled.1, settled.2.2.1 (by decide) (.inr ?_)⟩
  rw [second]
  exact ⟨_, List.mem_cons_self, .inl ⟨(2, 2), rfl, by decide⟩⟩

end Node

namespace Machine

def voter : Identity where
  id := 0
  members := [0, 1, 2]
  cfg := { preVote := false, leaderStickiness := false, snapshotThreshold := 1 }

def hears (src : NodeId) (msg : RaftMsg) : MachineEvent := .input 0 (.deliver { src, dst := 0, msg })

def confirms (op : OpId) : MachineEvent := .input 0 (.storage op true)

-- The second term is still on its way to the disk when an entry of that term, synced and waiting for it, is
-- compacted away. The first sync of all is yet to complete.
def compactedEarly : List MachineEvent :=
  [hears 1 (.appendEntries 1 1 0 0 [] 0), confirms 1, hears 2 (.requestVote 1 2 0 0), confirms 3, confirms 4,
    hears 2 (.requestVote 2 2 0 0), hears 2 (.appendEntries 2 2 0 0 [⟨2, 1, .noop⟩] 1), confirms 6, confirms 7,
    .input 0 (.drain []), confirms 8, confirms 9, confirms 10]

def loner : Identity where
  id := 0
  members := [0]
  cfg := { preVote := false }

-- A batch with the entries 1 and 2 is still in flight when a snapshot takes the place of the log and ends at 1. Then
-- the node stands for election in a membership of one.
def cutShort : List MachineEvent :=
  [hears 1 (.appendEntries 1 1 0 0 [⟨1, 1, .noop⟩, ⟨1, 2, .noop⟩] 0), confirms 1, confirms 2,
    hears 1 (.installSnapshot 2 1 1 2 (encodeSnapshotPayload [0] [])), confirms 5, confirms 6, confirms 7,
    .input 0 (.timer .election), confirms 10]

theorem compactedEarly_leaves :
    (Execution.play (step voter fun _ => true) Lawful (init voter) compactedEarly).map (fun m => decide <|
      2 ∈ m.owed ∧
      (m.wake 0).finishesAll [2] = [(.logDurable 1 0 0 (some 1) 1, some { term := 1, votedFor := none, seq := 1 })] ∧
      m.raft.parked = [(1, 1)] ∧ m.raft.durableIndex = 0 ∧
      m.raft.log.lastIndexWithTermAtMost (Node.termAfter m.raft.durableTerm ((m.wake 0).finishesAll [2])) = 1 ∧
      ((m.wake 0).completeAll [2]).durableIndex = 0) = some true := by
  decide +kernel

theorem cutShort_leaves :
    (Execution.play (step loner fun _ => true) Lawful (init loner) cutShort).map (fun m => decide <|
      (3 ∈ m.owed ∧ 11 ∈ m.owed) ∧
      (m.wake 0).finishesAll [3, 11] =
        [(.logDurable 1 2 2 (some 1) 1, some { term := 1, votedFor := none, seq := 1 }),
          (.campaign 3, some { term := 3, votedFor := some 0, seq := 3 })] ∧
      (m.wake 0).finishesAll [11, 3] =
        [(.campaign 3, some { term := 3, votedFor := some 0, seq := 3 }),
          (.logDurable 1 2 2 (some 1) 1, some { term := 1, votedFor := none, seq := 1 })] ∧
      (m.wake 0).parked.length = 0 ∧ ((m.wake 0).onStorage 3 true).parked.length = 0 ∧
      ((m.wake 0).onStorage 11 true).parked.length = 0 ∧ m.raft.durableIndex = 1 ∧
      m.raft.log.lastIndexWithTermAtMost (Node.termAfter m.raft.durableTerm ((m.wake 0).finishesAll [3, 11])) = 1 ∧
      ((m.wake 0).completeAll [3, 11]).durableIndex = 1 ∧
      ((m.wake 0).completeAll [11, 3]).durableIndex = 2) = some true := by
  decide +kernel

/-- Two states that a node among lawful peers can be in. In one, a range that compaction has made claimable stays behind
when a sync completes that neither reaches past the claim nor makes a newer term durable. In the other, a range that
ends beyond the log is worth nothing before the node has won its election and an entry behind. -/
theorem completions_astray :
    (∃ (m : Machine) (ops : List OpId), Reachable voter (fun _ => true) Lawful m ∧ ops ⊆ m.owed ∧
      (m.wake 0).Roomy ops ∧ (∀ b ∈ (m.wake 0).finishesAll ops, b.1.Plain) ∧ (m.wake 0).finishesAll ops ≠ [] ∧
      m.raft.durableIndex ≤
        m.raft.log.lastIndexWithTermAtMost (Node.termAfter m.raft.durableTerm ((m.wake 0).finishesAll ops)) ∧
      ¬ IsGreatest {d | (m.wake 0).Claimable ((m.wake 0).finishesAll ops) d} ((m.wake 0).completeAll ops).durableIndex) ∧
    ∃ (m : Machine) (ops ops' : List OpId), Reachable loner (fun _ => true) Lawful m ∧ ops ⊆ m.owed ∧ ops.Perm ops' ∧
      (m.wake 0).Roomy ops ∧ (m.wake 0).Roomy ops' ∧
      ((m.wake 0).finishesAll ops).Perm ((m.wake 0).finishesAll ops') ∧
      (∀ b ∈ (m.wake 0).finishesAll ops, b.1.Plain) ∧
      m.raft.durableIndex ≤
        m.raft.log.lastIndexWithTermAtMost (Node.termAfter m.raft.durableTerm ((m.wake 0).finishesAll ops)) ∧
      ((m.wake 0).completeAll ops).durableIndex ≠ ((m.wake 0).completeAll ops').durableIndex := by
  constructor
  · obtain ⟨m, played, known⟩ := Option.map_eq_some_iff.mp compactedEarly_leaves
    obtain ⟨owed, finished, parked, initial, cap, final⟩ := of_decide_eq_true known
    refine ⟨m, [2], Execution.run_of_play played, by simpa using owed, ⟨?_, trivial⟩, ?_, ?_, ?_, ?_⟩
    · change m.raft.parked.length < 4096
      rw [parked]
      decide
    · rw [finished]
      simp [Persist.Plain]
    · rw [finished]
      exact List.cons_ne_nil _ _
    · rw [initial]
      exact Nat.zero_le _
    · rw [final]
      intro greatest
      have one : (m.wake 0).Claimable ((m.wake 0).finishesAll [2]) 1 := by
        refine ⟨?_, cap.ge, fun i above below => ⟨(1, 1), ?_, ?_⟩⟩
        · change m.raft.durableIndex ≤ 1
          omega
        · refine List.mem_append_left _ ?_
          change (1, 1) ∈ m.raft.parked
          rw [parked]
          exact List.mem_cons_self
        · change m.raft.durableIndex < i at above
          omega
      exact absurd (greatest.2 one) (by decide)
  · obtain ⟨m, played, known⟩ := Option.map_eq_some_iff.mp cutShort_leaves
    obtain ⟨owed, one, other, none, first, second, initial, cap, final, final'⟩ := of_decide_eq_true known
    refine ⟨m, [3, 11], [11, 3], Execution.run_of_play played, by simpa using owed, .swap .., ⟨?_, ?_, trivial⟩,
      ⟨?_, ?_, trivial⟩, ?_, ?_, ?_, ?_⟩
    · exact none.trans_lt (by decide)
    · exact first.trans_lt (by decide)
    · exact none.trans_lt (by decide)
    · exact second.trans_lt (by decide)
    · rw [one, other]
      exact .swap ..
    · rw [one]
      simp [Persist.Plain]
    · rw [initial, cap]
    · rw [final, final']
      decide

end Machine

end SimKv
