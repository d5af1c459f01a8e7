import SimKv.Lib.Ascending
import SimKv.Lib.Coverage
import SimKv.Raft.Contiguous

set_option autoImplicit false

/-!
# What the durable index claims

Syncs complete in any order, and with them ranges of the log and the terms that cap the claim.
-/

namespace SimKv

open Coverage

namespace Node

variable {cap fuel claim : Nat} {waiting : List (Nat × Nat)}

def claimsLeft (cap claim : Nat) (waiting : List (Nat × Nat)) : Nat :=
  waiting.length + if claim < cap then 1 else 0

theorem claimsLeft_lt {range : Nat × Nat}
    (found : (waiting.filter fun range => claim < range.2).find?
      (fun range => range.1 ≤ claim + 1 ∧ claim < range.2 ∧ range.1 ≤ cap) = some range)
    (more : ¬ min range.2 cap ≤ claim) :
    claimsLeft cap (min range.2 cap)
      (if min range.2 cap = range.2 then (waiting.filter fun range => claim < range.2).erase range
        else waiting.filter fun range => claim < range.2) < claimsLeft cap claim waiting := by
  have fewer := List.length_filter_le (fun range : Nat × Nat => decide (claim < range.2)) waiting
  have member := List.mem_of_find?_eq_some found
  have size := List.length_erase_of_mem member
  have some := List.length_pos_of_mem member
  simp only [claimsLeft]
  split <;> split <;> split <;> omega

theorem advanceLoop_claims (enough : claimsLeft cap claim waiting < fuel) :
    Claims cap claim waiting (advanceLoop cap fuel claim waiting).1 (advanceLoop cap fuel claim waiting).2 := by
  induction fuel generalizing claim waiting with
  | zero => omega
  | succ fuel ih =>
    have sub : waiting.filter (fun range => decide (claim < range.2)) ⊆ waiting :=
      fun _ => List.mem_of_mem_filter
    have fewer := List.length_filter_le (fun range : Nat × Nat => decide (claim < range.2)) waiting
    have waits : ∀ range ∈ waiting,
        range.2 ≤ claim ∨ range ∈ waiting.filter fun range => decide (claim < range.2) := by
      intro range member
      by_cases behind : claim < range.2
      · exact .inr (List.mem_filter.mpr ⟨member, by simpa using behind⟩)
      · exact .inl (not_lt.mp behind)
    rw [advanceLoop]
    split
    · next none =>
      refine ⟨le_rfl, le_max_left _ _, .refl _, .inl rfl, fewer, sub, waits, fun range member before behind => ?_⟩
      have refused := List.find?_eq_none.mp none range member
      simp only [decide_eq_true_eq] at refused
      omega
    · next range found =>
      have member := List.mem_of_find?_eq_some found
      have fits := List.find?_some found
      simp only [decide_eq_true_eq] at fits
      dsimp only
      split
      · next done =>
        refine ⟨le_rfl, le_max_left _ _, .refl _, .inl rfl, fewer, sub, waits, fun _ _ _ _ => ?_⟩
        omega
      · next more =>
        have rest := ih (Nat.lt_of_lt_of_le (claimsLeft_lt found more) (Nat.le_of_lt_succ enough))
        generalize erased : (if min range.2 cap = range.2
          then (waiting.filter fun range => decide (claim < range.2)).erase range
          else waiting.filter fun range => decide (claim < range.2)) = left at rest ⊢
        have left_sub : left ⊆ waiting := by
          rw [← erased]
          split
          · exact List.Subset.trans List.erase_subset sub
          · exact sub
        have left_fewer : left.length ≤ waiting.length := by
          rw [← erased]
          split
          · exact (List.length_erase_le ..).trans fewer
          · exact fewer
        refine ⟨?_, ?_, ?_, ?_, rest.fewer.trans left_fewer, List.Subset.trans rest.subset left_sub, ?_, rest.stuck⟩
        · exact le_trans (by omega) rest.grows
        · exact rest.capped.trans (by omega)
        · refine Covered.trans (fun i above below => ⟨range, sub member, ?_⟩) (rest.covered.mono left_sub)
          omega
        · right
          obtain same | ⟨other, here, reaches⟩ := rest.within
          · exact ⟨range, sub member, by omega⟩
          · exact ⟨other, left_sub here, reaches⟩
        · intro other here
          have grows := rest.grows
          obtain used | still := waits other here
          · exact .inl (by omega)
          · by_cases gone : other = range ∧ min range.2 cap = range.2
            · exact .inl (by rw [gone.1]; omega)
            · refine rest.kept other ?_
              rw [← erased]
              split
              · next whole => exact (List.mem_erase_of_ne fun same => gone ⟨same, whole⟩).mpr still
              · exact still

-- The loop is over before the fuel is: more of it changes nothing.
theorem advanceLoop_fuel (enough : claimsLeft cap claim waiting < fuel) (more : Nat) :
    advanceLoop cap (fuel + more) claim waiting = advanceLoop cap fuel claim waiting := by
  induction fuel generalizing claim waiting with
  | zero => omega
  | succ fuel ih =>
    rw [Nat.add_right_comm, advanceLoop, advanceLoop]
    split
    · rfl
    · next range found =>
      dsimp only
      split
      · rfl
      · next unfinished =>
        exact ih (Nat.lt_of_lt_of_le (claimsLeft_lt found unfinished) (Nat.le_of_lt_succ enough))

theorem claimsLeft_le : claimsLeft cap claim waiting < waiting.length + 2 := by
  rw [claimsLeft]
  split <;> omega

structure SameClaim (m n : Node) : Prop where
  log : m.log = n.log
  durableIndex : m.durableIndex = n.durableIndex
  parked : m.parked = n.parked
  durableTerm : m.durableTerm = n.durableTerm

theorem SameClaim.of_toRaft {m n : Node} (same : m.toRaft = n.toRaft) : m.SameClaim n :=
  ⟨congrArg Raft.log same, congrArg Raft.durableIndex same, congrArg Raft.parked same,
    congrArg Raft.durableTerm same⟩

theorem SameClaim.trans {m n k : Node} (first : k.SameClaim m) (second : m.SameClaim n) : k.SameClaim n :=
  ⟨first.log.trans second.log, first.durableIndex.trans second.durableIndex, first.parked.trans second.parked,
    first.durableTerm.trans second.durableTerm⟩

variable (n : Node)

theorem maybeCommit_claim : n.maybeCommit.SameClaim n := by
  unfold maybeCommit
  split
  · exact ⟨rfl, rfl, rfl, rfl⟩
  · split
    · unfold stepAsideIfRemoved
      split <;> exact ⟨rfl, rfl, rfl, rfl⟩
    · exact ⟨rfl, rfl, rfl, rfl⟩

theorem persistLogFrom_claim (start : Nat) (truncated : Bool) (replyTo : Option NodeId) (replyTerm verified : Nat) :
    (n.persistLogFrom start truncated replyTo replyTerm verified).SameClaim n := by
  obtain ⟨p, raft, _⟩ := n.persistLogFrom_spec start truncated replyTo replyTerm verified
  constructor <;> rw [raft]

-- A new leader enters its no-op; nothing of it is durable yet.
theorem becomeLeader_claim : ∃ m : Node, n.becomeLeader.SameClaim m ∧ m.durableIndex = n.durableIndex ∧
    m.parked = n.parked ∧ m.durableTerm = n.durableTerm ∧
    (m.log = n.log ∨ ∃ e, n.log.AppendOk e ∧ m.log = n.log.append e) := by
  refine ⟨n.takeOffice.appendEntry (n.ownEntry Command.noop), ?_, ?_⟩
  · rw [becomeLeader]
    generalize n.takeOffice.appendEntry (n.ownEntry Command.noop) = m
    have persisted := m.persistLogFrom_claim (n.log.lastIndex + 1) false none 0 unverified
    generalize m.persistLogFrom (n.log.lastIndex + 1) false none 0 unverified = k at persisted ⊢
    have quiet : k.disarmElectionTimer.SameClaim k := ⟨rfl, rfl, rfl, rfl⟩
    have told := SameClaim.of_toRaft (broadcastAppend_toRaft k.disarmElectionTimer)
    generalize k.disarmElectionTimer.broadcastAppend = l at told ⊢
    have timed : l.resetHeartbeatTimer.SameClaim l := ⟨rfl, rfl, rfl, rfl⟩
    exact timed.trans (told.trans (quiet.trans persisted))
  · rw [appendEntry]
    split
    · next sound => exact ⟨rfl, rfl, rfl, .inr ⟨_, sound, rfl⟩⟩
    · exact ⟨rfl, rfl, rfl, .inl rfl⟩

def durableCap : Nat := n.log.lastIndexWithTermAtMost n.durableTerm

theorem advanceDurable_claims (room : n.parked.length ≤ 4096) :
    Claims n.durableCap n.durableIndex n.parked n.advanceDurable.durableIndex n.advanceDurable.parked := by
  have claims := @advanceLoop_claims n.durableCap (n.parked.length + 2) n.durableIndex n.parked claimsLeft_le
  have short : (advanceLoop n.durableCap (n.parked.length + 2) n.durableIndex n.parked).2.length ≤ 4096 :=
    claims.fewer.trans room
  have parked : n.advanceDurable.parked =
      (advanceLoop n.durableCap (n.parked.length + 2) n.durableIndex n.parked).2 := if_neg (not_lt.mpr short)
  rw [parked]
  exact claims

def termWith (term : Nat) : Option HardState → Nat
  | none => term
  | some hs => max term hs.term

theorem noteDurable_claim (hard : Option HardState) (room : n.parked.length ≤ 4096) :
    (n.noteDurable hard).log = n.log ∧ (n.noteDurable hard).durableTerm = termWith n.durableTerm hard ∧
      ((∃ hs, hard = some hs ∧ n.durableTerm < hs.term) ∧
          Claims (n.noteDurable hard).durableCap n.durableIndex n.parked
            (n.noteDurable hard).durableIndex (n.noteDurable hard).parked ∨
        (¬ ∃ hs, hard = some hs ∧ n.durableTerm < hs.term) ∧
          (n.noteDurable hard).durableIndex = n.durableIndex ∧ (n.noteDurable hard).parked = n.parked) := by
  cases hard with
  | none => exact ⟨rfl, rfl, .inr ⟨by simp, rfl, rfl⟩⟩
  | some hs =>
    have noted : ∀ m : Node, m.log = n.log → m.durableTerm = n.durableTerm → m.durableIndex = n.durableIndex →
        m.parked = n.parked →
        ∀ m' : Node, (m' = if m.durableTerm < hs.term then { m with durableTerm := hs.term }.advanceDurable else m) →
        m'.log = n.log ∧ m'.durableTerm = max n.durableTerm hs.term ∧
          ((∃ hs', some hs = some hs' ∧ n.durableTerm < hs'.term) ∧
              Claims m'.durableCap n.durableIndex n.parked m'.durableIndex m'.parked ∨
            (¬ ∃ hs', some hs = some hs' ∧ n.durableTerm < hs'.term) ∧
              m'.durableIndex = n.durableIndex ∧ m'.parked = n.parked) := by
      intro m log term claim parked m' same
      subst same
      split
      · next newer =>
        have claims := advanceDurable_claims { m with durableTerm := hs.term } (parked ▸ room)
        rw [term] at newer
        refine ⟨log, (max_eq_right newer.le).symm, .inl ⟨⟨hs, rfl, newer⟩, ?_⟩⟩
        rw [← claim, ← parked]
        exact claims
      · next older =>
        rw [term, not_lt] at older
        refine ⟨log, term.trans (max_eq_left older).symm, .inr ⟨?_, claim, parked⟩⟩
        rintro ⟨hs', same, newer⟩
        cases same
        omega
    have unfolded := noted (if n.durableHardState.seq ≤ hs.seq then { n with durableHardState := hs } else n)
    refine unfolded ?_ ?_ ?_ ?_ (n.noteDurable (some hs)) rfl <;> split <;> rfl

theorem claimRange_claim (start index : Nat) (room : n.parked.length < 4096) :
    (n.claimRange start index).log = n.log ∧ (n.claimRange start index).durableTerm = n.durableTerm ∧
      (n.durableIndex < min index n.log.lastIndex ∧
          Claims n.durableCap n.durableIndex (n.parked ++ [(start, min index n.log.lastIndex)])
            (n.claimRange start index).durableIndex (n.claimRange start index).parked ∨
        min index n.log.lastIndex ≤ n.durableIndex ∧
          (n.claimRange start index).durableIndex = n.durableIndex ∧
          (n.claimRange start index).parked = n.parked) := by
  rw [claimRange]
  split
  · next ahead =>
    refine ⟨rfl, rfl, .inl ⟨ahead, ?_⟩⟩
    exact advanceDurable_claims { n with parked := n.parked ++ [(start, min index n.log.lastIndex)] }
      (by simp; omega)
  · next past => exact ⟨rfl, rfl, .inr ⟨not_lt.mp past, rfl, rfl⟩⟩

theorem logDurable_claim (start index verified : Nat) (replyTo : Option NodeId) (replyTerm : Nat) :
    (n.logDurable start index verified replyTo replyTerm).SameClaim (n.claimRange start index) := by
  simp only [logDurable]
  generalize n.claimRange start index = m
  have counted : ∀ k : Node, (if k.role = .leader then k.maybeCommit else k).SameClaim k := by
    intro k
    split
    · exact k.maybeCommit_claim
    · exact ⟨rfl, rfl, rfl, rfl⟩
  cases replyTo with
  | none => exact counted m
  | some dst => exact (counted _).trans (.of_toRaft (send_toRaft ..))

theorem campaignDurable_claim (term : Nat) : ∃ m : Node, (n.campaignDurable term).SameClaim m ∧
    m.durableIndex = n.durableIndex ∧ m.parked = n.parked ∧ m.durableTerm = n.durableTerm ∧
    (m.log = n.log ∨ ∃ e, n.log.AppendOk e ∧ m.log = n.log.append e) := by
  rw [campaignDurable]
  split
  · have told := n.sendAll_toRaft n.peers (.requestVote term n.id n.log.lastIndex n.log.lastTerm)
    dsimp only
    generalize n.sendAll n.peers (.requestVote term n.id n.log.lastIndex n.log.lastTerm) = m at told ⊢
    have same : m.SameClaim n := .of_toRaft told
    split
    · obtain ⟨k, leads, claim, parked, term, log⟩ := m.becomeLeader_claim
      rw [same.log] at log
      exact ⟨k, leads, claim.trans same.durableIndex, parked.trans same.parked, term.trans same.durableTerm, log⟩
    · exact ⟨m, ⟨rfl, rfl, rfl, rfl⟩, same.durableIndex, same.parked, same.durableTerm, .inl same.log⟩
  · exact ⟨n, ⟨rfl, rfl, rfl, rfl⟩, rfl, rfl, rfl, .inl rfl⟩

end Node

abbrev Finished := Persist × Option HardState

namespace Persist

def range : Persist → Option (Nat × Nat)
  | .logDurable start index _ _ _ => some (start, index)
  | _ => none

/-- Neither part of a snapshot: a batch of log entries, or one for a hard state alone. -/
def Plain : Persist → Prop
  | .snapshotTaken .. | .snapshotInstalled .. => False
  | _ => True

def Campaigns : Persist → Prop
  | .campaign _ => True
  | _ => False

end Persist

namespace Node

variable (n : Node)

def finishes (op : OpId) : Option Finished :=
  if n.failed then none
  else
    match (n.persister.onComplete op true).1 with
    | .done action hard => some (action, hard)
    | _ => none

/-- Operations complete successfully, one after another, and nothing else happens. -/
def completeAll (ops : List OpId) : Node := ops.foldl (fun n op => n.onStorage op true) n

def finishesAll : Node → List OpId → List Finished
  | _, [] => []
  | n, op :: rest => (n.finishes op).toList ++ finishesAll (n.onStorage op true) rest

def Roomy : Node → List OpId → Prop
  | _, [] => True
  | n, op :: rest => n.parked.length < 4096 ∧ Roomy (n.onStorage op true) rest

-- One completion, as far as the claim is concerned.
theorem onStorage_claim (op : OpId) : (n.finishes op = none ∧ (n.onStorage op true).SameClaim n) ∨
    ∃ p action hard, n.finishes op = some (action, hard) ∧
      n.onStorage op true = ({ n with persister := p }.noteDurable hard).onDurable action := by
  rw [finishes, onStorage]
  split
  · exact .inl ⟨rfl, rfl, rfl, rfl, rfl⟩
  · cases n.persister.onComplete op true with
    | mk event p =>
      cases event with
      | nothing => exact .inl ⟨rfl, rfl, rfl, rfl, rfl⟩
      | needSync id file => exact .inl ⟨rfl, rfl, rfl, rfl, rfl⟩
      | failed => exact .inl ⟨rfl, rfl, rfl, rfl, rfl⟩
      | done action hard => exact .inr ⟨p, action, hard, rfl, rfl⟩

end Node

namespace RaftLog

variable {log longer : RaftLog}

theorem Contiguous.atMost_le (contiguous : log.Contiguous) (term : Nat) :
    log.lastIndexWithTermAtMost term ≤ log.lastIndex := by
  have short : (log.entries.takeWhile fun e => e.term ≤ term).length ≤ log.entries.length :=
    (List.takeWhile_prefix _).length_le
  rw [lastIndexWithTermAtMost, contiguous.lastIndex_eq]
  omega

theorem atMost_mono (log : RaftLog) {term later : Nat} (order : term ≤ later) :
    log.lastIndexWithTermAtMost term ≤ log.lastIndexWithTermAtMost later := by
  rw [lastIndexWithTermAtMost, lastIndexWithTermAtMost]
  induction log.entries with
  | nil => rfl
  | cons e rest ih =>
    by_cases early : e.term ≤ term
    · rw [List.takeWhile_cons_of_pos (by simpa using early),
        List.takeWhile_cons_of_pos (by simpa using early.trans order)]
      simp only [List.length_cons]
      omega
    · rw [List.takeWhile_cons_of_neg (by simpa using early)]
      simp

structure Onward (longer log : RaftLog) : Prop where
  last : log.lastIndex ≤ longer.lastIndex
  higher : ∀ term, log.lastIndexWithTermAtMost term ≤ longer.lastIndexWithTermAtMost term
  within : ∀ term, log.lastIndexWithTermAtMost term < log.lastIndex →
    longer.lastIndexWithTermAtMost term = log.lastIndexWithTermAtMost term

theorem Onward.refl (log : RaftLog) : log.Onward log := ⟨le_rfl, fun _ => le_rfl, fun _ _ => rfl⟩

theorem Onward.append (onward : longer.Onward log) (contiguous : longer.Contiguous) {e : Entry}
    (sound : longer.AppendOk e) : (longer.append e).Onward log := by
  have size := contiguous.lastIndex_eq
  have grown : ∀ term, longer.lastIndexWithTermAtMost term ≤ (longer.append e).lastIndexWithTermAtMost term ∧
      (longer.lastIndexWithTermAtMost term < longer.lastIndex →
        (longer.append e).lastIndexWithTermAtMost term = longer.lastIndexWithTermAtMost term) := by
    intro term
    simp only [lastIndexWithTermAtMost, RaftLog.append, List.takeWhile_append]
    split
    · next whole =>
      rw [size, whole, List.length_append]
      omega
    · exact ⟨le_rfl, fun _ => rfl⟩
  refine ⟨?_, fun term => (onward.higher term).trans (grown term).1, fun term inside => ?_⟩
  · rw [lastIndex_append, sound.1]
    exact onward.last.trans (Nat.le_succ _)
  · have same := onward.within term inside
    rw [(grown term).2 (by have := onward.last; omega), same]

end RaftLog

namespace Node

/-- The hard states of finished batches raise the durable term to the largest of theirs. -/
def termAfter (term : Nat) (done : List Finished) : Nat := done.foldl (fun term b => termWith term b.2) term

def ranges (done : List Finished) : List (Nat × Nat) := done.filterMap fun b => b.1.range

variable (n : Node)

def Stirs (b : Finished) : Prop :=
  (∃ range, b.1.range = some range ∧ n.durableIndex < min range.2 n.log.lastIndex) ∨
    ∃ hs, b.2 = some hs ∧ n.durableTerm < hs.term

def Short (all : List Finished) : Prop := ∀ range ∈ n.parked ++ ranges all, range.2 ≤ n.log.lastIndex

def arrived (done : List Finished) : List (Nat × Nat) :=
  n.parked ++ (ranges done).map fun range => (range.1, min range.2 n.log.lastIndex)

def capAt (term : Nat) : Nat := n.log.lastIndexWithTermAtMost term

structure Settling (all before : List Finished) (m : Node) : Prop where
  contiguous : m.log.Contiguous
  onward : m.log.Onward n.log
  grown : m.log = n.log ∨ n.Short all
  term : m.durableTerm = termAfter n.durableTerm before
  tracks : Tracks (n.capAt m.durableTerm) (n.arrived before) n.durableIndex m.durableIndex m.parked
  stuck : (∃ b ∈ before, n.Stirs b) → Stuck (n.capAt m.durableTerm) m.durableIndex m.parked
  still : (∀ b ∈ before, ¬ n.Stirs b) →
    m.durableIndex = n.durableIndex ∧ m.durableTerm = n.durableTerm ∧ m.parked = n.parked

theorem termWith_le (term : Nat) (hard : Option HardState) : term ≤ termWith term hard := by
  cases hard with
  | none => exact le_rfl
  | some hs => exact le_max_left _ _

theorem termAfter_le (term : Nat) (done : List Finished) : term ≤ termAfter term done := by
  unfold termAfter
  induction done generalizing term with
  | nil => exact le_rfl
  | cons b rest ih => exact (termWith_le term b.2).trans (ih _)

variable {n} {all before : List Finished} {m : Node}

theorem Settling.start (contiguous : n.log.Contiguous) (all : List Finished) : n.Settling all [] n where
  contiguous
  onward := .refl _
  grown := .inl rfl
  term := rfl
  tracks := by
    have none : n.arrived [] = n.parked := List.append_nil _
    rw [none]
    exact .start _ _ _
  stuck := by simp
  still := fun _ => ⟨rfl, rfl, rfl⟩

-- What is claimed under a longer log is claimed under the first one.
theorem Settling.narrow (settling : n.Settling all before m) {k : Node} (log : k.log = m.log) {claim claim' : Nat}
    {waiting waiting' : List (Nat × Nat)} (known : n.Short all → ∀ range ∈ waiting, range.2 ≤ n.log.lastIndex)
    (claims : Claims k.durableCap claim waiting claim' waiting') :
    Claims (n.capAt k.durableTerm) claim waiting claim' waiting' := by
  obtain same | short := settling.grown
  · have cap : k.durableCap = n.capAt k.durableTerm := by rw [durableCap, log, same, capAt]
    exact cap ▸ claims
  · have higher := settling.onward.higher k.durableTerm
    rw [← log] at higher
    by_cases inside : n.capAt k.durableTerm < n.log.lastIndex
    · have cap : k.durableCap = n.capAt k.durableTerm := by
        rw [durableCap, log]
        exact settling.onward.within _ inside
      exact cap ▸ claims
    · exact claims.narrow higher fun range member => (known short range member).trans (not_lt.mp inside)

theorem Short.arrived (short : n.Short all) (done : List Finished) :
    ∀ range ∈ n.arrived done, range.2 ≤ n.log.lastIndex := by
  intro range member
  obtain parked | here := List.mem_append.mp member
  · exact short range (List.mem_append_left _ parked)
  · obtain ⟨whole, _, rfl⟩ := List.mem_map.mp here
    exact min_le_right _ _

structure Noted (n : Node) (before : List Finished) (hard : Option HardState) (m : Node) : Prop where
  tracks : Tracks (n.capAt m.durableTerm) (n.arrived before) n.durableIndex m.durableIndex m.parked
  stuck : ((∃ b ∈ before, n.Stirs b) ∨ ∃ hs, hard = some hs ∧ n.durableTerm < hs.term) →
    Stuck (n.capAt m.durableTerm) m.durableIndex m.parked
  still : (∀ b ∈ before, ¬ n.Stirs b) → (¬ ∃ hs, hard = some hs ∧ n.durableTerm < hs.term) →
    m.durableIndex = n.durableIndex ∧ m.durableTerm = n.durableTerm ∧ m.parked = n.parked

theorem Settling.noteDurable (settling : n.Settling all before m) (hard : Option HardState)
    (room : m.parked.length < 4096) : Noted n before hard (m.noteDurable hard) := by
  obtain ⟨log, term, ⟨newer, claims⟩ | ⟨older, claim, parked⟩⟩ := m.noteDurable_claim hard room.le
  · have narrow := settling.narrow log (fun short range member => short.arrived _ range (settling.tracks.subset member)) claims
    have raised : n.capAt m.durableTerm ≤ n.capAt (m.noteDurable hard).durableTerm :=
      n.log.atMost_mono (by rw [term]; exact termWith_le _ _)
    refine ⟨(settling.tracks.raise raised).grow narrow, fun _ => narrow.stuck, fun _ quiet => ?_⟩
    obtain ⟨hs, same, later⟩ := newer
    have start : n.durableTerm ≤ m.durableTerm := settling.term ▸ termAfter_le _ _
    exact absurd ⟨hs, same, start.trans_lt later⟩ quiet
  · have same : (m.noteDurable hard).durableTerm = m.durableTerm := by
      rw [term]
      cases hard with
      | none => rfl
      | some hs => exact max_eq_left (not_lt.mp fun later => older ⟨hs, rfl, later⟩)
    constructor
    · rw [claim, parked, same]
      exact settling.tracks
    · rw [claim, parked, same]
      rintro (stirred | ⟨hs, given, later⟩)
      · exact settling.stuck stirred
      · -- the term rose above this one before
        by_contra loose
        have untouched := settling.still fun b member stirs => loose (settling.stuck ⟨b, member, stirs⟩)
        exact older ⟨hs, given, untouched.2.1 ▸ later⟩
    · intro quiet _
      rw [claim, parked, same]
      exact settling.still quiet

theorem Settling.congr (settling : n.Settling all before m) {k : Node} (same : k.SameClaim m) :
    n.Settling all before k := by
  obtain ⟨log, claim, parked, term⟩ := same
  constructor <;> simp only [log, claim, parked, term]
  · exact settling.contiguous
  · exact settling.onward
  · exact settling.grown
  · exact settling.term
  · exact settling.tracks
  · exact settling.stuck
  · exact settling.still

theorem ranges_concat (done : List Finished) (b : Finished) : ranges (done ++ [b]) = ranges done ++ b.1.range.toList := by
  rw [ranges, List.filterMap_append, ranges]
  congr 1

theorem arrived_concat (n : Node) (done : List Finished) (b : Finished) : n.arrived (done ++ [b]) =
    n.arrived done ++ (b.1.range.toList.map fun range => (range.1, min range.2 n.log.lastIndex)) := by
  rw [arrived, ranges_concat, List.map_append, ← List.append_assoc, arrived]

theorem termAfter_concat (term : Nat) (done : List Finished) (b : Finished) :
    termAfter term (done ++ [b]) = termWith (termAfter term done) b.2 := by
  rw [termAfter, List.foldl_append]
  rfl

-- A batch with no entries of its own leaves the claim as its hard state has put it.
theorem Settling.finishRest (settling : n.Settling all before m) {b : Finished} {k : Node} (room : m.parked.length < 4096)
    (rest : b.1.range = none) (claim : k.durableIndex = (m.noteDurable b.2).durableIndex)
    (parked : k.parked = (m.noteDurable b.2).parked) (term : k.durableTerm = (m.noteDurable b.2).durableTerm)
    (log : k.log = m.log ∨ n.Short all ∧ ∃ e, m.log.AppendOk e ∧ k.log = m.log.append e) :
    n.Settling all (before ++ [b]) k := by
  have noted := settling.noteDurable b.2 room
  obtain ⟨_, raised, _⟩ := m.noteDurable_claim b.2 room.le
  have none : n.arrived (before ++ [b]) = n.arrived before := by
    rw [arrived_concat, rest]
    exact List.append_nil _
  have stirs : n.Stirs b ↔ ∃ hs, b.2 = some hs ∧ n.durableTerm < hs.term := by
    simp [Stirs, rest]
  refine ⟨?_, ?_, ?_, ?_, ?_, ?_, ?_⟩
  · obtain same | ⟨_, e, sound, grows⟩ := log
    · exact same ▸ settling.contiguous
    · exact grows ▸ settling.contiguous.append sound.1
  · obtain same | ⟨_, e, sound, grows⟩ := log
    · exact same ▸ settling.onward
    · exact grows ▸ settling.onward.append settling.contiguous sound
  · obtain same | ⟨short, _⟩ := log
    · exact same ▸ settling.grown
    · exact .inr short
  · rw [term, raised, termAfter_concat, settling.term]
  · rw [claim, parked, term, none]
    exact noted.tracks
  · rw [claim, parked, term]
    rintro ⟨other, member, stirred⟩
    obtain earlier | last := List.mem_append.mp member
    · exact noted.stuck (.inl ⟨other, earlier, stirred⟩)
    · exact noted.stuck (.inr (stirs.mp (List.mem_singleton.mp last ▸ stirred)))
  · intro quiet
    rw [claim, parked, term]
    exact noted.still (fun other member => quiet other (List.mem_append_left _ member))
      fun newer => quiet b (List.mem_append_right _ List.mem_cons_self) (stirs.mpr newer)

-- A batch of log entries brings its range.
theorem Settling.finishLog (settling : n.Settling all before m) {b : Finished} {start index : Nat}
    (room : m.parked.length < 4096) (entries : b.1.range = some (start, index)) (listed : b ∈ all) {k : Node}
    (same : k.SameClaim ((m.noteDurable b.2).claimRange start index)) : n.Settling all (before ++ [b]) k := by
  have noted := settling.noteDurable b.2 room
  obtain ⟨kept, raised, fewer⟩ := m.noteDurable_claim b.2 room.le
  have room' : (m.noteDurable b.2).parked.length < 4096 := by
    obtain ⟨_, claims⟩ | ⟨_, _, parked⟩ := fewer
    · exact claims.fewer.trans_lt room
    · rwa [parked]
  have reach : min index m.log.lastIndex = min index n.log.lastIndex := by
    obtain same | short := settling.grown
    · rw [same]
    · have inside : index ≤ n.log.lastIndex := short (start, index) (List.mem_append_right _
        (List.mem_filterMap.mpr ⟨b, listed, entries⟩))
      have last := settling.onward.last
      omega
  have brought : n.arrived (before ++ [b]) = n.arrived before ++ [(start, min index n.log.lastIndex)] := by
    rw [arrived_concat, entries]
    rfl
  have stirs : n.Stirs b ↔ n.durableIndex < min index n.log.lastIndex ∨
      ∃ hs, b.2 = some hs ∧ n.durableTerm < hs.term := by
    simp [Stirs, entries]
  have earlier : (∀ other ∈ before ++ [b], ¬ n.Stirs other) → ∀ other ∈ before, ¬ n.Stirs other :=
    fun quiet other member => quiet other (List.mem_append_left _ member)
  have newest : (∀ other ∈ before ++ [b], ¬ n.Stirs other) → ¬ n.Stirs b :=
    fun quiet => quiet b (List.mem_append_right _ List.mem_cons_self)
  refine Settling.congr ?_ same
  obtain ⟨log, term, claimed⟩ := (m.noteDurable b.2).claimRange_claim start index room'
  rw [kept] at log claimed
  rw [reach] at claimed
  have termed : ((m.noteDurable b.2).claimRange start index).durableTerm =
      termAfter n.durableTerm (before ++ [b]) := by
    rw [term, raised, termAfter_concat, settling.term]
  have whole : ∀ k : Node, k = (m.noteDurable b.2).claimRange start index →
      Tracks (n.capAt k.durableTerm) (n.arrived (before ++ [b])) n.durableIndex k.durableIndex k.parked →
      ((∃ other ∈ before ++ [b], n.Stirs other) → Stuck (n.capAt k.durableTerm) k.durableIndex k.parked) →
      ((∀ other ∈ before ++ [b], ¬ n.Stirs other) →
        k.durableIndex = n.durableIndex ∧ k.durableTerm = n.durableTerm ∧ k.parked = n.parked) →
      n.Settling all (before ++ [b]) k := by
    rintro k rfl tracks stuck still
    exact ⟨log.symm ▸ settling.contiguous, log.symm ▸ settling.onward, log.symm ▸ settling.grown, termed, tracks,
      stuck, still⟩
  obtain ⟨ahead, claims⟩ | ⟨past, claim, parked⟩ := claimed
  · have narrow := settling.narrow kept (fun short range member => ?_) claims
    · refine whole _ rfl ?_ (fun _ => ?_) fun quiet => ?_
      · rw [brought, term]
        exact (noted.tracks.arrive _).grow narrow
      · rw [term]
        exact narrow.stuck
      · -- nothing before has moved the claim, so this range does
        have untouched := noted.still (earlier quiet) fun newer => newest quiet (stirs.mpr (.inr newer))
        exact absurd (stirs.mpr (.inl (untouched.1 ▸ ahead))) (newest quiet)
    · obtain waits | here := List.mem_append.mp member
      · exact short.arrived _ range (noted.tracks.subset waits)
      · rw [List.mem_singleton.mp here]
        exact min_le_right _ _
  · refine whole _ rfl ?_ ?_ ?_
    · rw [brought, term, claim, parked]
      exact noted.tracks.pass past
    · rw [term, claim, parked]
      intro stirred
      by_cases moved : (∃ other ∈ before, n.Stirs other) ∨ ∃ hs, b.2 = some hs ∧ n.durableTerm < hs.term
      · exact noted.stuck moved
      · rw [not_or] at moved
        have quiet : ∀ other ∈ before, ¬ n.Stirs other := fun other member stirs => moved.1 ⟨other, member, stirs⟩
        obtain ⟨other, member, stirred⟩ := stirred
        obtain old | last := List.mem_append.mp member
        · exact absurd stirred (quiet other old)
        · obtain range | newer := stirs.mp (List.mem_singleton.mp last ▸ stirred)
          · have := (noted.still quiet moved.2).1
            omega
          · exact absurd newer moved.2
    · intro quiet
      rw [term, claim, parked]
      exact noted.still (earlier quiet) fun newer => newest quiet (stirs.mpr (.inr newer))

theorem Settling.finish (settling : n.Settling all before m) {action : Persist} {hard : Option HardState}
    (room : m.parked.length < 4096) (listed : (action, hard) ∈ all) (plain : action.Plain)
    (elected : action.Campaigns → n.Short all) :
    n.Settling all (before ++ [(action, hard)]) ((m.noteDurable hard).onDurable action) := by
  obtain ⟨kept, _, _⟩ := m.noteDurable_claim hard room.le
  cases action with
  | campaign term =>
    obtain ⟨k, same, claim, parked, termed, log⟩ := (m.noteDurable hard).campaignDurable_claim term
    rw [kept] at log
    exact (settling.finishRest room rfl claim parked termed (log.imp_right fun grows => ⟨elected trivial, grows⟩)).congr
      same
  | voteReply dst term granted =>
    have same : ((m.noteDurable hard).send dst (.requestVoteResp term granted)).SameClaim (m.noteDurable hard) :=
      .of_toRaft (send_toRaft ..)
    exact (settling.finishRest room rfl rfl rfl rfl (.inl kept)).congr same
  | reply dst msg =>
    have same : ((m.noteDurable hard).send dst msg).SameClaim (m.noteDurable hard) := .of_toRaft (send_toRaft ..)
    exact (settling.finishRest room rfl rfl rfl rfl (.inl kept)).congr same
  | logDurable start index verified replyTo replyTerm =>
    exact settling.finishLog room rfl listed (logDurable_claim ..)
  | quiet => exact settling.finishRest room rfl rfl rfl rfl (.inl kept)
  | snapshotTaken | snapshotInstalled => exact plain.elim

theorem Settling.run (settling : n.Settling all before m) {ops : List OpId} (room : m.Roomy ops)
    (whole : all = before ++ m.finishesAll ops) (plain : ∀ b ∈ all, b.1.Plain)
    (elected : (∃ b ∈ all, b.1.Campaigns) → n.Short all) : n.Settling all all (m.completeAll ops) := by
  induction ops generalizing m before with
  | nil =>
    rw [finishesAll, List.append_nil] at whole
    rw [whole] at settling ⊢
    exact settling
  | cons op rest ih =>
    rw [finishesAll] at whole
    obtain ⟨none, same⟩ | ⟨p, action, hard, some, next⟩ := m.onStorage_claim op
    · rw [none] at whole
      exact ih (settling.congr same) room.2 whole
    · rw [some, Option.toList_some, ← List.append_assoc] at whole
      have listed : (action, hard) ∈ all := by
        rw [whole]
        simp
      have booked : n.Settling all before { m with persister := p } := settling.congr ⟨rfl, rfl, rfl, rfl⟩
      refine ih ?_ room.2 whole
      change n.Settling all _ (m.onStorage op true)
      rw [next]
      exact booked.finish room.1 listed (plain _ listed) fun stands => elected ⟨_, listed, stands⟩

end Node

end SimKv
