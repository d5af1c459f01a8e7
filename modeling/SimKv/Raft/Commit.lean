import SimKv.Uncompacted

set_option autoImplicit false

/-!
# What a leader commits
-/

namespace SimKv

namespace RaftLog

variable {log : RaftLog}

theorem Contiguous.termAt_eq (contiguous : log.Contiguous) {index : Nat} (positive : index ≠ noIndex) :
    log.termAt index = if index < log.snapshotIndex then none else log.terms[index - log.snapshotIndex]? := by
  rw [termAt, if_neg positive]
  split
  · next edge =>
    rw [edge, if_neg (lt_irrefl _), Nat.sub_self]
    rfl
  · next edge =>
    split
    · next below =>
      rw [get, if_pos, Option.map_none]
      rw [firstIndex]
      omega
    · next above =>
      have place : index - log.snapshotIndex = index - log.firstIndex + 1 := by
        rw [firstIndex]
        omega
      rw [contiguous.get_eq (by omega), place, terms, List.getElem?_cons_succ, List.getElem?_map]

theorem length_terms (log : RaftLog) : log.terms.length = log.entries.length + 1 := by
  rw [terms, List.length_cons, List.length_map]

-- Terms do not decrease from one index the log knows to a later one.
theorem Contiguous.termAt_mono (contiguous : log.Contiguous) (ordered : log.terms.Pairwise (· ≤ ·)) {i j t : Nat}
    (positive : i ≠ noIndex) (known : log.termAt i = some t) (order : i ≤ j) (inside : j ≤ log.lastIndex) :
    ∃ t' ∈ log.terms, log.termAt j = some t' ∧ t ≤ t' := by
  have size := contiguous.lastIndex_eq
  rw [contiguous.termAt_eq positive] at known
  split at known
  · cases known
  · next above =>
    have place : j - log.snapshotIndex < log.terms.length := by
      rw [length_terms]
      omega
    have later := List.getElem?_eq_getElem place
    refine ⟨_, List.getElem_mem place, ?_, ?_⟩
    · rw [contiguous.termAt_eq (by rw [noIndex] at *; omega), if_neg (by omega)]
      exact later
    · exact Ascending.le_of_getElem? ordered (Nat.sub_le_sub_right order _) known later

end RaftLog

namespace Node

variable (n : Node)

def replicatedTo (m : NodeId) : Nat := if m = n.id then n.durableIndex else (n.matchIndex m).getD noIndex

def holders (index : Nat) : Nat := n.members.countP fun m => index ≤ n.replicatedTo m

variable {n}

theorem countP_replicated (index : Nat) : n.replicated.countP (index ≤ ·) = n.holders index := by
  rw [Raft.replicated, List.countP_map]
  rfl

theorem exists_candidate (nonempty : n.members ≠ []) :
    ∃ candidate, (n.replicated.insertionSort (· ≥ ·))[n.quorum - 1]? = some candidate := by
  have positive := List.length_pos_iff.mpr nonempty
  have place : n.quorum - 1 < (n.replicated.insertionSort (· ≥ ·)).length := by
    rw [List.length_insertionSort, Raft.replicated, List.length_map, Raft.quorum]
    omega
  exact ⟨_, List.getElem?_eq_getElem place⟩

theorem stepAsideIfRemoved_spec (m : Node) (leads : m.role = .leader) :
    m.stepAsideIfRemoved.commitIndex = m.commitIndex ∧ m.stepAsideIfRemoved.panicked = m.panicked ∧
      (m.stepAsideIfRemoved.role ≠ .leader ↔ ¬ m.isMember ∧ m.configIndex ≤ m.commitIndex) := by
  rw [stepAsideIfRemoved]
  split
  · next removed => exact ⟨rfl, rfl, iff_of_true Role.noConfusion removed.2⟩
  · next kept => exact ⟨rfl, rfl, iff_of_false (fun lost => lost leads) fun removed => kept ⟨leads, removed⟩⟩

/-- A leader commits exactly what a quorum holds up to an entry of its own term, and steps aside exactly when that
commits its removal. -/
theorem maybeCommit_exact (leads : n.role = .leader) (nonempty : n.members ≠ []) (contiguous : n.log.Contiguous)
    (ordered : n.log.terms.Pairwise (· ≤ ·)) (own : ∀ t ∈ n.log.terms, t ≤ n.term)
    (durable : n.durableIndex ≤ n.log.lastIndex)
    (matched : ∀ m index, n.matchIndex m = some index → index ≤ n.log.lastIndex) :
    IsGreatest {k | k ≤ n.commitIndex ∨ n.log.termAt k = some n.term ∧ n.quorum ≤ n.holders k}
      n.maybeCommit.commitIndex ∧
    n.commitIndex ≤ n.maybeCommit.commitIndex ∧
    (n.maybeCommit.role ≠ .leader ↔ n.commitIndex < n.maybeCommit.commitIndex ∧ ¬ n.isMember ∧
      n.configIndex ≤ n.maybeCommit.commitIndex) ∧
    n.maybeCommit.panicked = n.panicked := by
  obtain ⟨candidate, counted⟩ := exists_candidate nonempty
  have rank : ∀ k, n.quorum ≤ n.holders k ↔ k ≤ candidate := by
    intro k
    rw [Descending.le_rank_iff counted, countP_replicated, Raft.quorum]
    omega
  have inside : candidate ≤ n.log.lastIndex := by
    have member := (List.mem_insertionSort _).mp (List.mem_of_getElem? counted)
    obtain ⟨m, _, here⟩ := List.mem_map.mp member
    rw [← here]
    split
    · exact durable
    · cases found : n.matchIndex m with
      | none => exact Nat.zero_le _
      | some index => exact matched m index found
  -- an entry of the leader's own term below the candidate makes the candidate one as well
  have ownAbove : ∀ k, n.commitIndex < k → n.log.termAt k = some n.term → k ≤ candidate →
      n.log.termAt candidate = some n.term := by
    intro k above known order
    obtain ⟨t, listed, later, least⟩ := contiguous.termAt_mono ordered (by rw [noIndex]; omega) known order inside
    rw [later, le_antisymm (own t listed) least]
  rw [maybeCommit, counted]
  dsimp only
  split
  · next advances =>
    obtain ⟨commit, panicked, role⟩ := stepAsideIfRemoved_spec { n with commitIndex := candidate } leads
    rw [commit, panicked, role]
    refine ⟨⟨.inr ⟨advances.2, (rank candidate).mpr le_rfl⟩, ?_⟩, advances.1.le, ?_, rfl⟩
    · rintro k (old | ⟨_, held⟩)
      · exact old.trans advances.1.le
      · exact (rank k).mp held
    · exact (and_iff_right advances.1).symm
  · next stays =>
    refine ⟨⟨.inl le_rfl, ?_⟩, le_rfl, ?_, rfl⟩
    · rintro k (old | ⟨known, held⟩)
      · exact old
      · by_contra above
        have order := (rank k).mp held
        have later := not_le.mp above
        exact stays ⟨later.trans_le order, ownAbove k later known order⟩
    · exact iff_of_false (fun lost => lost leads) fun moved => lt_irrefl _ moved.1

def countingLeader : Node where
  id := 0
  members := [0, 1, 2]
  cfg := {}
  role := .leader
  term := 3
  votedFor := some 0
  log := { entries := [⟨2, 1, .noop⟩, ⟨3, 2, .noop⟩] }
  commitIndex := 0
  lastApplied := 0
  matchIndex := fun m => if m = 1 then some 2 else none
  durableIndex := 2
  stateSeq := 1
  snapshotSeq := 1
  pendingRestore := none
  durableSnapshotFile := none
  snapshotData := []
  highestSnapshot := 0
  initialMembers := [0, 1, 2]
  snapshotMembers := []
  durableTerm := 3
  durableHardState := { term := 3 }

theorem countingLeader_commits : IsGreatest {k | k ≤ countingLeader.commitIndex ∨
      countingLeader.log.termAt k = some countingLeader.term ∧ countingLeader.quorum ≤ countingLeader.holders k}
    countingLeader.maybeCommit.commitIndex := by
  refine (maybeCommit_exact rfl (by decide) ?_ (by decide) (by decide) (by decide) ?_).1
  · rintro (_ | _ | k) e found
    · cases found
      rfl
    · cases found
      rfl
    · cases found
  · intro m index found
    have two : index = 2 := by
      simp only [countingLeader] at found
      split at found <;> cases found
      rfl
    rw [two]
    decide

end Node

end SimKv
