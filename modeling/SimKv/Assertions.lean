import SimKv.Machine
import SimKv.Raft.Bookkeeping

set_option autoImplicit false

/-!
# The assertions of the log

Appending asserts that indices are contiguous and that terms never decrease. No run of one node breaks either, unless a
restart finds a snapshot of a term that its hard state has not reached: the snapshot and the term that came with it are
written to different files, and power loss may take the one without the other.
-/

namespace SimKv

namespace Machine

variable {who : Identity} {accept : OpId → Bool} {m m' : Machine}

def Lawful (m : Machine) : MachineEvent → Prop
  | .input _ input => input.Proper m.raft
  | .crash .. => True

def Recovers (m : Machine) : MachineEvent → Prop
  | .input .. => True
  | .crash _ loss =>
      (readDisk (m.disk.image loss .wal) (m.disk.image loss .snapshotA) (m.disk.image loss .snapshotB)).Abreast

def Stays (_ : Machine) : MachineEvent → Prop
  | .input .. => True
  | .crash .. => False

instance (m : Machine) : (event : MachineEvent) → Decidable (m.Lawful event)
  | .input _ input => inferInstanceAs (Decidable (input.Proper m.raft))
  | .crash .. => inferInstanceAs (Decidable True)

instance (m : Machine) : (event : MachineEvent) → Decidable (m.Recovers event)
  | .input .. => inferInstanceAs (Decidable True)
  | .crash .. => inferInstanceAs (Decidable (Survived.Abreast _))

theorem input_upholds (books : m.raft.Books) {now : Nat} {input : Input} (lawful : input.Proper m.raft) :
    Node.Upholds (m.raft.members = [] ∧ input.Counts) (m.wake now) (m.react now input) :=
  Server.handle_upholds books now lawful

theorem step_books {event : MachineEvent} (books : m.raft.Books) (lawful : m.Lawful event) (recovers : m.Recovers event)
    (next : m.step who accept event = some m') : m'.raft.Books := by
  cases event with
  | input now input =>
    rw [step_input next]
    exact (input_upholds books lawful).books
  | crash now loss =>
    simp only [step] at next
    split at next
    · cases next
      exact Raft.recover_books recovers who.id who.members who.cfg _
    · cases next

theorem init_books (who : Identity) : (init who).raft.Books :=
  @Raft.recover_books [] [] [] (by decide) who.id who.members who.cfg {}

-- Within one life what is committed and what is applied only grow.
theorem run_grows (books : m.raft.Books) (run : Run who accept (fun m e => m.Lawful e ∧ m.Stays e) m m') :
    m'.raft.Books ∧ m.raft.commitIndex ≤ m'.raft.commitIndex ∧ m.raft.lastApplied ≤ m'.raft.lastApplied := by
  induction run with
  | refl => exact ⟨books, le_rfl, le_rfl⟩
  | @step t t' event _ allowed next ih =>
    obtain ⟨before, commit, applied⟩ := ih
    cases event with
    | crash => exact allowed.2.elim
    | input now input =>
      have upholds : Node.Upholds _ _ (t.react now input) := input_upholds before allowed.1
      rw [step_input next]
      exact ⟨upholds.books, commit.trans upholds.commit, applied.trans upholds.applied⟩

theorem run_books (run : Run who accept (fun m e => m.Lawful e ∧ m.Recovers e) (init who) m) : m.raft.Books := by
  induction run with
  | refl => exact init_books who
  | step _ allowed next ih => exact step_books ih allowed.1 allowed.2 next

/-- In every run in which each restart finds a hard state as new as its snapshot the indices of the node stay in
order, and the assertions hold wherever entries are appended. Only counting the replicas of an empty membership can go
wrong. -/
theorem assertions_hold (reached : Reachable who accept (fun m e => m.Lawful e ∧ m.Recovers e) m) :
    m.raft.Orderly ∧
      (∀ m' : Machine, Run who accept (fun m e => m.Lawful e ∧ m.Stays e) m m' →
        m.raft.commitIndex ≤ m'.raft.commitIndex ∧ m.raft.lastApplied ≤ m'.raft.lastApplied) ∧
      (∀ (now : Nat) (input : Input), input.Proper m.raft → (m.react now input).panicked = true →
        m.raft.members = [] ∧ input.Counts) ∧
      (∀ (now : Nat) (cmd : Command), m.raft.log.AppendOk ((m.wake now).ownEntry cmd)) ∧
      ∀ (term prevIndex prevTerm : Nat) (entries : List Entry), Sliced term prevIndex prevTerm entries →
        m.raft.Undisputed entries → ∀ (p t : Nat) (es : List Entry) (i : Nat) (conflict : Bool),
          Trims m.raft.log prevIndex prevTerm entries p t es → m.raft.log.matchesAt p t →
          Node.firstNew m.raft.log p es 0 = some (i, conflict) →
          (if conflict then m.raft.log.truncateFrom (p + 1 + i) else m.raft.log).AppendsOk (es.drop i) := by
  have books := run_books reached
  refine ⟨books.toOrderly, fun m' run => (run_grows books run).2, ?_, ?_, ?_⟩
  · intro now input lawful failed
    rcases (input_upholds books lawful).calm failed with before | reason
    · cases before
    · exact reason
  · intro now cmd
    exact Node.ownEntry_ok (n := m.wake now) books cmd
  · intro term prevIndex prevTerm entries sliced undisputed p t es i conflict trims agrees found
    obtain ⟨left, _⟩ := sliced.trims undisputed (books.base.trans books.applied) trims
    exact (left.appendsOk books.contiguous books.rooted trims.base agrees found).1

def follower : Identity where
  id := 0
  members := [0, 1, 2]
  cfg := { preVote := false }

def sixthTerm : HardState := { term := 6, votedFor := none, seq := 1 }

/-- A snapshot of term 6 is written and synced, but the term is not when the power fails. Then the node stands for
election. -/
def snapshotAlone (fate : Fate) : List MachineEvent :=
  [.input 0 (.deliver {
      src := 1, dst := 0, msg := .installSnapshot 6 1 1 6 (encodeSnapshotPayload [0, 1, 2] []) }),
    .input 0 (.storage 2 true), .input 0 (.storage 3 true),
    .crash 0 (fun
      | .wal => [(.data (HardState.slotOffset 1) sixthTerm.toSlot, fate)]
      | _ => []),
    .input 0 (.timer .election), .input 0 (.storage 5 true), .input 0 (.storage 6 true)]

def grantedVote (term : Nat) : Input := .deliver { src := 1, dst := 0, msg := .requestVoteResp term true }

-- The log ends in term 6, and the first entry of the new leader is of term 1.
theorem snapshotAlone_fails :
    (Execution.play (step follower fun _ => true) Lawful (init follower) (snapshotAlone .lost)).map
      (fun m => (m.raft.members, decide ((grantedVote 1).Proper m.raft), (m.react 0 (grantedVote 1)).panicked,
        decide (m.raft.log.AppendOk ((m.wake 0).ownEntry Command.noop)))) =
    some ([0, 1, 2], true, true, false) := by decide +kernel

theorem assertion_fails : ∃ m : Machine, Reachable follower (fun _ => true) Lawful m ∧ m.raft.members ≠ [] ∧
    (grantedVote 1).Proper m.raft ∧ m.Possible (fun _ => true) (grantedVote 1) ∧
    (m.react 0 (grantedVote 1)).panicked = true ∧
    ¬ m.raft.log.AppendOk ((m.wake 0).ownEntry Command.noop) := by
  obtain ⟨m, played, known⟩ := Option.map_eq_some_iff.mp snapshotAlone_fails
  simp only [Prod.mk.injEq, decide_eq_true_eq, decide_eq_false_iff_not] at known
  obtain ⟨members, proper, failed, refused⟩ := known
  refine ⟨m, Execution.run_of_play played, ?_, proper, trivial, failed, refused⟩
  rw [members]
  exact List.cons_ne_nil _ _

theorem snapshotAlone_whole :
    (Execution.play (step follower fun _ => true) (fun m e => m.Lawful e ∧ m.Recovers e) (init follower)
      (snapshotAlone .whole)).map (fun m => (m.raft.log.snapshotIndex, m.raft.term)) = some (1, 7) := by decide +kernel

theorem assertions_hold_whole : ∃ m : Machine, m.raft.log.snapshotIndex = 1 ∧ m.raft.Orderly ∧
    m.raft.log.AppendOk ((m.wake 0).ownEntry Command.noop) := by
  obtain ⟨m, played, known⟩ := Option.map_eq_some_iff.mp snapshotAlone_whole
  obtain ⟨orderly, _, _, sound, _⟩ := assertions_hold (Execution.run_of_play played)
  exact ⟨m, congrArg Prod.fst known, orderly, sound 0 _⟩

end Machine

end SimKv
