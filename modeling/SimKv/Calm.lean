import SimKv.Raft.Bookkeeping
import SimKv.Safety

set_option autoImplicit false

/-!
# No assertion fails

Appending asserts that indices are contiguous and that terms never decrease, and a leader counts its replicas. Whatever
is under way in a cluster that keeps its logs, no server runs into either.
-/

namespace SimKv

open Agreement Succession

namespace Node

variable {starved : Prop} {n : Node}

-- A message that fails the consistency check is turned down, whatever it carries.
theorem appendInTerm_unmatched {prevIndex prevTerm : Nat} (base : n.log.snapshotIndex = 0)
    (unmatched : ¬ n.log.matchesAt prevIndex prevTerm) (src : NodeId) (entries : List Entry) (leaderCommit : Nat)
    (dirty : Bool) : n.appendInTerm src prevIndex prevTerm entries leaderCommit dirty =
      n.replyInTerm dirty src (.appendEntriesResp n.term false n.durableIndex (n.conflictHint prevIndex)) := by
  simp only [appendInTerm, base, Nat.not_lt_zero, false_and, if_false, decide_false, Bool.false_eq_true]
  exact if_pos unmatched

theorem onAppendEntries_unmatched {prevIndex prevTerm : Nat} (books : n.Books) (base : n.log.snapshotIndex = 0)
    (unmatched : ¬ n.log.matchesAt prevIndex prevTerm) (src leader : NodeId) (term : Nat) (entries : List Entry)
    (leaderCommit : Nat) :
    Upholds starved n (n.onAppendEntries src term leader prevIndex prevTerm entries leaderCommit) := by
  have same : n.onAppendEntries src term leader prevIndex prevTerm entries leaderCommit =
      n.onAppendEntries src term leader prevIndex prevTerm [] leaderCommit := by
    have log : ((if n.term < term then n.stepDown term else n).concede.heardFrom leader).log = n.log := by
      rw [(heardFrom_concede _ leader).1]
      split <;> rfl
    simp only [onAppendEntries]
    split
    · rfl
    · rw [appendInTerm_unmatched (log ▸ base) (log ▸ unmatched), appendInTerm_unmatched (log ▸ base) (log ▸ unmatched)]
  rw [same]
  exact onAppendEntries_upholds books src leader leaderCommit
    ⟨rfl, List.pairwise_singleton _ _, List.forall_mem_nil _⟩ (List.forall_mem_nil _)

end Node

variable {setup : Setup} {i : NodeId} {g g' : State NodeId Entry} {c c' : Cluster}

theorem Excerpt.sliced {log : RaftLog} {term prevIndex prevTerm leaderCommit : Nat} {entries : List Entry}
    (excerpt : Excerpt setup g term prevIndex prevTerm entries leaderCommit) (formed : WellFormed (g.lead term))
    (grounds : g.Grounds Entry.term) (whole : log.Whole g) (agrees : log.matchesAt prevIndex prevTerm) :
    Sliced term prevIndex prevTerm entries where
  numbered := by
    refine List.ext_getElem (by simp) fun k inside _ => ?_
    rw [List.length_map] at inside
    have index := formed.numbered _ _ (excerpt.slices k _ (List.getElem?_eq_getElem inside))
    rw [List.getElem_map, List.getElem_range', index]
    omega
  ordered := by
    have ordered := grounds.ordered term
    refine List.pairwise_cons.mpr ⟨fun t member => ?_, List.pairwise_iff_getElem.mpr fun j k before inside order => ?_⟩
    · obtain ⟨e, there, rfl⟩ := List.mem_map.mp member
      obtain ⟨k, found⟩ := List.getElem?_of_mem there
      by_cases first : prevIndex = noIndex
      · rw [RaftLog.matchesAt, whole.left.termAt, if_pos first, Option.some.injEq] at agrees
        omega
      · obtain ⟨a, here, rfl⟩ := excerpt.before first
        rw [noIndex] at first
        exact le_of_ordered ordered (by omega) here (excerpt.slices k e found)
    · rw [List.length_map] at before inside
      rw [List.getElem_map, List.getElem_map]
      exact le_of_ordered ordered (by omega) (excerpt.slices j _ (List.getElem?_eq_getElem before))
        (excerpt.slices k _ (List.getElem?_eq_getElem inside))
  bounded := by
    intro e member
    obtain ⟨k, found⟩ := List.getElem?_of_mem member
    exact grounds.top term e (List.mem_of_getElem? (excerpt.slices k e found))

-- What is sent in a term does not contradict what was committed up to then.
theorem SafetyRel.undisputed (rel : SafetyRel setup c g) {term prevIndex prevTerm leaderCommit : Nat}
    {entries : List Entry} (excerpt : Excerpt setup g term prevIndex prevTerm entries leaderCommit)
    (current : (c.host i).raft.term ≤ term) : (c.host i).raft.Undisputed entries := by
  intro e member within t here
  obtain ⟨k, found⟩ := List.getElem?_of_mem member
  have theirs := excerpt.slices k e found
  have index := (rel.formed term).numbered _ _ theirs
  obtain ⟨settled, inside⟩ := rel.committed i
  have pre := rel.sound.settled_lead settled current (List.ne_nil_of_mem (List.mem_of_getElem? theirs))
  have whole := (rel.logs i).whole
  have own := List.getElem?_eq_getElem (show prevIndex + k < (c.host i).raft.log.entries.length by omega)
  have same : (c.host i).raft.log.entries[prevIndex + k]? = some e := by
    rw [← theirs]
    have taken : ((c.host i).raft.log.entries.take (c.host i).raft.commitIndex)[prevIndex + k]? =
        (c.host i).raft.log.entries[prevIndex + k]? := by
      rw [List.getElem?_take, if_pos (by omega)]
    rw [← taken]
    obtain ⟨rest, same⟩ := pre
    rw [← same, List.getElem?_append_left]
    rw [List.length_take]
    omega
  rw [whole.left.termAt, if_neg (by rw [noIndex]; omega), whole.base, if_neg (Nat.not_lt_zero _), index,
    Nat.add_sub_cancel, same] at here
  exact (Option.some.inj here).symm

theorem SafetyRel.upholds (rel : SafetyRel setup c g) (books : (c.host i).raft.Books) (now : Nat) {input : Input}
    (possible : input.Possible c.net i) :
    Node.Upholds ((c.host i).raft.members = [] ∧ input.Counts) ((c.host i).wake now)
      ((c.host i).handle now input).1 := by
  have whole := (rel.logs i).whole
  have otherwise : input.Proper (c.host i).raft → Node.Upholds ((c.host i).raft.members = [] ∧ input.Counts)
      ((c.host i).wake now) ((c.host i).handle now input).1 := Server.handle_upholds books now
  cases input with
  | deliver p =>
    have tells := rel.net p possible.1
    obtain ⟨src, dst, msg, covered⟩ := p
    cases msg with
    | appendEntries term leader prevIndex prevTerm entries leaderCommit =>
      have excerpt : Excerpt setup g term prevIndex prevTerm entries leaderCommit := tells
      by_cases agrees : (c.host i).raft.log.matchesAt prevIndex prevTerm ∧ (c.host i).raft.term ≤ term
      · exact otherwise ⟨excerpt.sliced (rel.formed term) rel.sound.grounds whole agrees.1,
          rel.undisputed excerpt agrees.2⟩
      -- What is stale or does not match is turned down before anything is asserted.
      · change Node.Upholds _ ((c.host i).wake now) (((c.host i).wake now).onMessage src
          (.appendEntries term leader prevIndex prevTerm entries leaderCommit))
        unfold Node.onMessage
        split
        · exact .refl books
        · by_cases stale : term < (c.host i).raft.term
          · have refused : ((c.host i).wake now).onAppendEntries src term leader prevIndex prevTerm entries
                leaderCommit = ((c.host i).wake now).send src
                  (.appendEntriesResp (c.host i).raft.term false noIndex noIndex) := if_pos stale
            simp only [refused]
            exact Node.send_upholds (n := (c.host i).wake now) books _ _
          · exact Node.onAppendEntries_unmatched (n := (c.host i).wake now) books whole.base
              (fun here => agrees ⟨here, Nat.le_of_not_lt stale⟩) _ _ _ _ _
    | installSnapshot => exact tells.elim
    | _ => exact otherwise trivial
  | _ => exact otherwise trivial

theorem RaftLog.Whole.rooted {log : RaftLog} (whole : log.Whole g) : log.Rooted := by
  intro _
  obtain ⟨full, -, baseTerm, -, refines⟩ := whole.left
  have terms := refines.terms
  rw [← refines.boundary, whole.base, Nat.zero_sub, List.drop_zero] at terms
  exact (List.cons.inj terms).1.trans baseTerm

theorem Survived.boot_books {s : Survived} {id : NodeId} {members : List NodeId} {cfg : RaftConfig} {io : Io}
    (whole : s.log.Whole g) (current : ∀ e ∈ s.log.entries, e.term ≤ s.hard.term) :
    (s.boot id members cfg io).Books := by
  obtain ⟨_, _, _, _, booted⟩ := s.boot_toRaft id members cfg io
  have terms : ∀ t ∈ s.log.terms, t ≤ s.hard.term := by
    intro t member
    rcases List.mem_cons.mp member with rfl | later
    · rw [whole.rooted whole.base]
      exact Nat.zero_le _
    · obtain ⟨e, kept, rfl⟩ := List.mem_map.mp later
      exact current e kept
  have above : s.log.snapshotIndex ≤ s.log.lastIndex := by
    rw [whole.base]
    exact Nat.zero_le _
  rw [booted]
  exact ⟨⟨le_rfl, le_rfl, above, le_rfl, rfl⟩, whole.left.contiguous, whole.rooted, terms, List.forall_mem_nil _⟩

theorem SafetyRel.step_books {event : Event} (rel : SafetyRel setup c g) (books : ∀ i, (c.host i).raft.Books)
    (survives : Survives c event) (next : c.step setup event = some c') : ∀ i, (c'.host i).raft.Books := by
  cases event with
  | input i now input =>
    simp only [Cluster.step] at next
    split at next
    · next possible =>
      cases next
      exact (Function.forall_update_iff c.host fun _ h => h.raft.Books).mpr
        ⟨(rel.upholds (books i) now possible.1).books, fun j _ => books j⟩
    · cases next
  | restart i now survived origin =>
    simp only [Cluster.step] at next
    split at next
    · next possible =>
      cases next
      obtain ⟨-, held, remnant, -, current⟩ := survives
      have whole := ((rel.held i origin held).truncateFrom (survived.log.lastIndex + 1)).1
      rw [← remnant] at whole
      exact (Function.forall_update_iff c.host fun _ h => h.raft.Books).mpr
        ⟨Survived.boot_books whole current, fun j _ => books j⟩
    · cases next

theorem reachable_books (uncompacted : setup.Uncompacted) (reached : Cluster.Reachable setup Survives c) :
    ∃ g, SafetyRel setup c g ∧ ∀ i, (c.host i).raft.Books := by
  induction reached with
  | refl => exact ⟨_, .init uncompacted, fun i => Raft.recover_books (by decide) i setup.members (setup.cfg i) {}⟩
  | step _ survives next ih =>
    obtain ⟨g, rel, books⟩ := ih
    obtain ⟨g', -, rel'⟩ := rel.step uncompacted survives next
    exact ⟨g', rel', rel.step_books books survives next⟩

/-- Nothing that can happen to a server of a cluster makes an assertion fail. -/
theorem assertions_never_fail (uncompacted : setup.Uncompacted) (peopled : setup.members ≠ [])
    (reached : Cluster.Reachable setup Survives c) (now : Nat) {input : Input} (possible : input.Possible c.net i) :
    ((c.host i).handle now input).1.panicked = false := by
  obtain ⟨g, rel, books⟩ := reachable_books uncompacted reached
  by_contra failed
  have upheld := rel.upholds (books i) now possible
  rcases upheld.calm (Bool.eq_true_of_not_eq_false failed) with before | ⟨none, -⟩
  · cases before
  · exact peopled ((rel.election.hosts i).node.fixed.current.symm.trans none)

theorem assertions_never_fail_hoarders : ∃ c : Cluster, Cluster.Reachable hoarders Survives c ∧
    (c.host 0).raft.commitIndex = 1 ∧ ((c.host 0).handle 0 (.timer .election)).1.panicked = false := by
  obtain ⟨early, _, reached, _, committed, _⟩ := hoarders_run
  exact ⟨early, reached, committed, assertions_never_fail hoarders_uncompacted (List.cons_ne_nil _ _) reached 0 trivial⟩

end SimKv
