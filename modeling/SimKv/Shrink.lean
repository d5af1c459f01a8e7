import SimKv.Raft.State
import SimKv.Workload

set_option autoImplicit false

/-!
# Shrinking

`harness::shrink`. A failing configuration is cut down as long as it keeps failing in the same way. Every
candidate makes the configuration lighter, so this ends; and where it ends with a whole pass that changed nothing,
no candidate gets any further. How a configuration runs is left open.
-/

namespace SimKv.Harness

structure FaultConfig where
  enableCrashes : Bool
  enablePartitions : Bool
  enableClockSkew : Bool
  enableSlowLinks : Bool
  enableReconfig : Bool
  peerIsolateWeight : Nat
  freshLeaderReconfigPpm : Nat
  -- Faults only happen between these times.
  window : Nat × Nat

structure NetConfig where
  dropPpm : Nat
  duplicatePpm : Nat
  corruptPpm : Nat

structure DiskConfig where
  ioErrorPpm : Nat
  tornWritePpm : Nat
  lostWritePpm : Nat
  reorderUnsynced : Bool

/-- What shrinking reads and changes; `rest` is everything else a run depends on. -/
structure SimConfig (Rest : Type) where
  seed : Nat
  servers : Nat
  spares : Nat
  clients : Nat
  duration : Nat
  settle : Nat
  net : NetConfig
  disk : DiskConfig
  faults : FaultConfig
  raft : RaftConfig
  workload : WorkloadConfig
  rest : Rest

def millis : Nat := 1000000

def seconds : Nat := 1000 * millis

variable {Rest : Type}

def SimConfig.normalise (cfg : SimConfig Rest) : SimConfig Rest :=
  { cfg with faults.window := (min cfg.faults.window.1 cfg.duration, cfg.duration) }

structure Candidate (Rest : Type) where
  label : String
  apply : SimConfig Rest → Option (SimConfig Rest)

def whenever (condition : Prop) [Decidable condition] (next : SimConfig Rest) : Option (SimConfig Rest) :=
  if condition then some next else none

def candidates : List (Candidate Rest) :=
  [ { label := "crashes disabled"
      apply := fun cfg => whenever (cfg.faults.enableCrashes) { cfg with faults.enableCrashes := false } },
    { label := "partitions disabled"
      apply := fun cfg => whenever (cfg.faults.enablePartitions) { cfg with faults.enablePartitions := false } },
    { label := "clock skew disabled"
      apply := fun cfg => whenever (cfg.faults.enableClockSkew) { cfg with faults.enableClockSkew := false } },
    { label := "slow links disabled"
      apply := fun cfg => whenever (cfg.faults.enableSlowLinks) { cfg with faults.enableSlowLinks := false } },
    { label := "message loss disabled"
      apply := fun cfg => whenever (cfg.net.dropPpm > 0) { cfg with net.dropPpm := 0 } },
    { label := "message duplication disabled"
      apply := fun cfg => whenever (cfg.net.duplicatePpm > 0) { cfg with net.duplicatePpm := 0 } },
    { label := "message corruption disabled"
      apply := fun cfg => whenever (cfg.net.corruptPpm > 0) { cfg with net.corruptPpm := 0 } },
    { label := "disk io errors disabled"
      apply := fun cfg => whenever (cfg.disk.ioErrorPpm > 0) { cfg with disk.ioErrorPpm := 0 } },
    { label := "torn writes disabled"
      apply := fun cfg => whenever (cfg.disk.tornWritePpm > 0) { cfg with disk.tornWritePpm := 0 } },
    { label := "lost writes disabled"
      apply := fun cfg => whenever (cfg.disk.lostWritePpm > 0) { cfg with disk.lostWritePpm := 0 } },
    { label := "unsynced write reordering disabled"
      apply := fun cfg => whenever (cfg.disk.reorderUnsynced) { cfg with disk.reorderUnsynced := false } },
    { label := "fewer servers"
      apply := fun cfg => whenever (cfg.servers > 1) { cfg with servers := if cfg.servers > 3 then 3 else 1 } },
    { label := "fewer clients"
      apply := fun cfg => whenever (cfg.clients > 1) { cfg with clients := max (cfg.clients / 2) 1 } },
    { label := "fewer keys"
      apply := fun cfg =>
        whenever (cfg.workload.keys > 1) { cfg with workload.keys := max (cfg.workload.keys / 2) 1 } },
    { label := "shorter run"
      apply := fun cfg => whenever (cfg.duration > 500 * millis)
        (SimConfig.normalise { cfg with duration := max (cfg.duration / 2) (500 * millis) }) },
    { label := "shorter settle"
      apply := fun cfg =>
        whenever (cfg.settle > 5 * seconds) { cfg with settle := max (cfg.settle / 2) (5 * seconds) } },
    { label := "no peer isolation (cut from servers, not clients)"
      apply := fun cfg => whenever (cfg.faults.enablePartitions ∧ cfg.faults.peerIsolateWeight > 0)
        { cfg with faults.peerIsolateWeight := 0 } },
    { label := "elections without pre-vote"
      apply := fun cfg => whenever (cfg.raft.preVote) { cfg with raft.preVote := false } },
    { label := "membership changes only at random times"
      apply := fun cfg => whenever (cfg.faults.enableReconfig ∧ cfg.faults.freshLeaderReconfigPpm > 0)
        { cfg with faults.freshLeaderReconfigPpm := 0 } },
    { label := "no membership changes"
      apply := fun cfg => whenever (cfg.faults.enableReconfig ∨ cfg.spares > 0)
        { cfg with faults.enableReconfig := false, spares := 0 } },
    { label := "reads through the log instead of ReadIndex"
      apply := fun cfg => whenever (cfg.raft.readMode = .readIndex) { cfg with raft.readMode := .log } },
    { label := "no compare-and-set"
      apply := fun cfg => whenever (cfg.workload.casWeight > 0) { cfg with workload.casWeight := 0 } },
    { label := "no deletes"
      apply := fun cfg => whenever (cfg.workload.deleteWeight > 0) { cfg with workload.deleteWeight := 0 } },
    { label := "no reads"
      apply := fun cfg => whenever (cfg.workload.readWeight > 0 ∧ cfg.workload.writeWeight > 0)
        { cfg with workload.readWeight := 0 } } ]

section Shrinking

variable {Outcome : Type} (failed : Outcome → Bool) (signatureOf : Outcome → String)
  (run : SimConfig Rest → Outcome)

structure ShrinkResult (Rest Outcome : Type) where
  original : SimConfig Rest
  minimal : SimConfig Rest
  signature : String
  attempts : Nat
  steps : Nat
  removed : List String
  outcome : Outcome

structure Shrinking (Rest Outcome : Type) where
  current : SimConfig Rest
  best : Outcome
  attempts : Nat := 0
  steps : Nat := 0
  removed : List String := []
  progressed : Bool := false
  log : List String := []

def Reproduces (signature : String) (outcome : Outcome) : Prop :=
  failed outcome = true ∧ signatureOf outcome = signature

instance (signature : String) (outcome : Outcome) :
    Decidable (Reproduces failed signatureOf signature outcome) :=
  inferInstanceAs (Decidable (_ ∧ _))

def sweep (signature : String) (budget : Nat) :
    List (Candidate Rest) → Shrinking Rest Outcome → Shrinking Rest Outcome × Bool
  | [], st => (st, false)
  | cand :: rest, st =>
      if st.attempts ≥ budget then ({ st with log := st.log ++ ["shrink budget exhausted"] }, true)
      else
        match cand.apply st.current with
        | none => sweep signature budget rest st
        | some next =>
            let outcome := run next
            let st := { st with attempts := st.attempts + 1 }
            if Reproduces failed signatureOf signature outcome then
              sweep signature budget rest
                { st with
                  log := st.log ++ ["  kept: " ++ cand.label]
                  current := next
                  best := outcome
                  steps := st.steps + 1
                  progressed := true
                  removed := st.removed ++ [cand.label] }
            else sweep signature budget rest st

def sweeps (signature : String) (budget : Nat) :
    Nat → Shrinking Rest Outcome → Option (Shrinking Rest Outcome × Bool)
  | 0, _ => none
  | fuel + 1, st =>
      let (st, exhausted) := sweep failed signatureOf run signature budget candidates { st with progressed := false }
      if exhausted then some (st, true)
      else if st.progressed then sweeps signature budget fuel st
      else some (st, false)

/-- What `shrink` returns, with whether the budget was exhausted; nothing when the run does not fail. The outer
option is for the fuel. -/
def shrink (fuel : Nat) (cfg : SimConfig Rest) (budget : Nat) :
    Option (List String × Option (ShrinkResult Rest Outcome × Bool)) :=
  let current := cfg.normalise
  let first := run current
  if ¬ failed first then
    some (["seed " ++ toString cfg.seed ++ " does not fail with this configuration; nothing to shrink"], none)
  else
    let signature := signatureOf first
    let log := ["shrinking seed " ++ toString cfg.seed ++ " failing as [" ++ signature ++ "]"]
    (sweeps failed signatureOf run signature budget fuel { current, best := first, log }).map
      fun (st, exhausted) =>
        (st.log, some ({
          original := cfg
          minimal := st.current
          signature
          attempts := st.attempts
          steps := st.steps
          removed := st.removed
          outcome := st.best }, exhausted))

end Shrinking

def readWeight : ReadMode → Nat
  | .log => 0
  | .readIndex => 1

def SimConfig.weight (cfg : SimConfig Rest) : Nat :=
  cfg.servers + cfg.spares + cfg.clients + cfg.duration + cfg.settle +
    (cfg.net.dropPpm + cfg.net.duplicatePpm + cfg.net.corruptPpm) +
    (cfg.disk.ioErrorPpm + cfg.disk.tornWritePpm + cfg.disk.lostWritePpm + cfg.disk.reorderUnsynced.toNat) +
    (cfg.faults.enableCrashes.toNat + cfg.faults.enablePartitions.toNat + cfg.faults.enableClockSkew.toNat +
      cfg.faults.enableSlowLinks.toNat + cfg.faults.enableReconfig.toNat + cfg.faults.peerIsolateWeight +
      cfg.faults.freshLeaderReconfigPpm) +
    (cfg.raft.preVote.toNat + readWeight cfg.raft.readMode) +
    (cfg.workload.keys + cfg.workload.readWeight + cfg.workload.casWeight + cfg.workload.deleteWeight)

theorem eq_of_whenever {condition : Prop} [Decidable condition] {next chosen : SimConfig Rest}
    (applied : whenever condition next = some chosen) : condition ∧ next = chosen := by
  unfold whenever at applied
  split at applied
  · next holds => exact ⟨holds, Option.some.inj applied⟩
  · cases applied

theorem Candidate.lighter {cand : Candidate Rest} (listed : cand ∈ candidates) {cfg next : SimConfig Rest}
    (applied : cand.apply cfg = some next) : next.weight < cfg.weight := by
  simp only [candidates, List.mem_cons, List.not_mem_nil, or_false] at listed
  rcases listed with rfl | rfl | rfl | rfl | rfl | rfl | rfl | rfl | rfl | rfl | rfl | rfl | rfl | rfl | rfl |
    rfl | rfl | rfl | rfl | rfl | rfl | rfl | rfl | rfl
  all_goals
    obtain ⟨holds, rfl⟩ := eq_of_whenever applied
    simp only [SimConfig.weight, SimConfig.normalise, millis, seconds] at holds ⊢
    -- a flag or a mode that was on counts one, and nothing when it is off
    try simp only [holds, readWeight, Bool.toNat_true, Bool.toNat_false]
    try omega
  case inl =>
    split <;> omega
  case inl =>
    rcases holds with on | some_
    · rw [on, Bool.toNat_true]
      omega
    · omega

/-- Configurations got from `start` by candidates with these labels, one after the other. -/
inductive Reached (start : SimConfig Rest) : List String → SimConfig Rest → Prop where
  | start : Reached start [] start
  | apply {labels : List String} {mid next : SimConfig Rest} {cand : Candidate Rest} (before : Reached start labels mid)
      (listed : cand ∈ candidates) (applied : cand.apply mid = some next) :
      Reached start (labels ++ [cand.label]) next

section Search

variable {Outcome : Type} {failed : Outcome → Bool} {signatureOf : Outcome → String}
  {run : SimConfig Rest → Outcome} {signature : String} {budget : Nat}

variable (failed signatureOf run signature) in
def Minimal (cands : List (Candidate Rest)) (cfg : SimConfig Rest) : Prop :=
  ∀ cand ∈ cands, ∀ next, cand.apply cfg = some next → ¬ Reproduces failed signatureOf signature (run next)

variable (failed signatureOf run signature) in
structure Keeping (start : SimConfig Rest) (st : Shrinking Rest Outcome) : Prop where
  outcome : st.best = run st.current
  reproduces : Reproduces failed signatureOf signature st.best
  reached : Reached start st.removed st.current
  steps : st.steps = st.removed.length

variable (failed signatureOf run signature budget) in
structure Swept (start : SimConfig Rest) (cands : List (Candidate Rest)) (st st' : Shrinking Rest Outcome)
    (exhausted : Bool) : Prop where
  keeping : Keeping failed signatureOf run signature start st'
  weight : st'.current.weight ≤ st.current.weight
  lighter : st'.progressed = true → st.progressed = true ∨ st'.current.weight < st.current.weight
  attempts : st'.attempts ≤ st.attempts + cands.length
  spent : exhausted = true → budget ≤ st'.attempts
  still : st'.progressed = false → st.progressed = false ∧ st'.current = st.current
  minimal : exhausted = false → st'.progressed = false →
    Minimal failed signatureOf run signature cands st.current

theorem Keeping.sweep {start : SimConfig Rest} {cands : List (Candidate Rest)} (listed : cands ⊆ candidates)
    {st : Shrinking Rest Outcome} (keeping : Keeping failed signatureOf run signature start st) :
    Swept failed signatureOf run signature budget start cands st
      (sweep failed signatureOf run signature budget cands st).1
      (sweep failed signatureOf run signature budget cands st).2 := by
  induction cands generalizing st with
  | nil =>
    refine ⟨keeping, le_rfl, Or.inl, le_rfl, Bool.noConfusion, fun none_ => ⟨none_, rfl⟩, fun _ _ => ?_⟩
    intro cand member
    exact absurd member List.not_mem_nil
  | cons cand rest ih =>
    obtain ⟨here, later⟩ := List.cons_subset.mp listed
    rw [Harness.sweep]
    split
    · next over_ =>
      refine ⟨⟨keeping.outcome, keeping.reproduces, keeping.reached, keeping.steps⟩, le_rfl, Or.inl,
        Nat.le_add_right _ _, fun _ => over_, fun none_ => ⟨none_, rfl⟩, fun unspent => ?_⟩
      cases unspent
    · split
      · next inapplicable =>
        have swept := ih later keeping
        refine ⟨swept.keeping, swept.weight, swept.lighter,
          swept.attempts.trans (Nat.add_le_add_left (Nat.le_succ _) _), swept.spent, swept.still, ?_⟩
        intro unspent none_ other member next applied
        rcases List.mem_cons.mp member with rfl | member
        · rw [inapplicable] at applied
          cases applied
        · exact swept.minimal unspent none_ other member next applied
      · next next applied =>
        dsimp only
        split
        · next fails =>
          have lighter := Candidate.lighter here applied
          have adopted : Keeping failed signatureOf run signature start
              { st with
                attempts := st.attempts + 1
                log := st.log ++ ["  kept: " ++ cand.label]
                current := next
                best := run next
                steps := st.steps + 1
                progressed := true
                removed := st.removed ++ [cand.label] } := by
            refine ⟨rfl, fails, keeping.reached.apply here applied, ?_⟩
            rw [List.length_append, ← keeping.steps]
            rfl
          have swept := ih later adopted
          have fewer : _ ≤ next.weight := swept.weight
          refine ⟨swept.keeping, fewer.trans lighter.le, fun _ => Or.inr (fewer.trans_lt lighter), ?_, swept.spent, ?_, ?_⟩
          · have runs : _ ≤ st.attempts + 1 + rest.length := swept.attempts
            rw [List.length_cons]
            omega
          · intro none_
            cases (swept.still none_).1
          · intro unspent none_
            cases (swept.still none_).1
        · next passes =>
          have tried : Keeping failed signatureOf run signature start { st with attempts := st.attempts + 1 } :=
            ⟨keeping.outcome, keeping.reproduces, keeping.reached, keeping.steps⟩
          have swept := ih later tried
          refine ⟨swept.keeping, swept.weight, swept.lighter, ?_, swept.spent, swept.still, ?_⟩
          · have runs : _ ≤ st.attempts + 1 + rest.length := swept.attempts
            rw [List.length_cons]
            omega
          · intro unspent none_ other member next' applied'
            rcases List.mem_cons.mp member with rfl | member
            · rw [applied] at applied'
              cases applied'
              exact passes
            · exact swept.minimal unspent none_ other member next' applied'

variable (failed signatureOf run signature budget) in
def pass (st : Shrinking Rest Outcome) : Shrinking Rest Outcome × Bool :=
  sweep failed signatureOf run signature budget candidates { st with progressed := false }

theorem sweeps_succ (fuel : Nat) (st : Shrinking Rest Outcome) :
    sweeps failed signatureOf run signature budget (fuel + 1) st =
      if (pass failed signatureOf run signature budget st).2 then
        some ((pass failed signatureOf run signature budget st).1, true)
      else if (pass failed signatureOf run signature budget st).1.progressed then
        sweeps failed signatureOf run signature budget fuel (pass failed signatureOf run signature budget st).1
      else some ((pass failed signatureOf run signature budget st).1, false) :=
  rfl

theorem Keeping.pass {start : SimConfig Rest} {st : Shrinking Rest Outcome}
    (keeping : Keeping failed signatureOf run signature start st) :
    Swept failed signatureOf run signature budget start candidates { st with progressed := false }
      (pass failed signatureOf run signature budget st).1 (pass failed signatureOf run signature budget st).2 := by
  apply Keeping.sweep (List.Subset.refl candidates)
  exact ⟨keeping.outcome, keeping.reproduces, keeping.reached, keeping.steps⟩

-- There are no more passes that change something than there is to take away.
theorem Keeping.sweeps_isSome {start : SimConfig Rest} {fuel : Nat} {st : Shrinking Rest Outcome}
    (keeping : Keeping failed signatureOf run signature start st) (enough : st.current.weight < fuel) :
    (sweeps failed signatureOf run signature budget fuel st).isSome := by
  induction fuel generalizing st with
  | zero => exact absurd enough (Nat.not_lt_zero _)
  | succ fuel ih =>
    have swept : Swept failed signatureOf run signature budget start candidates _ _ _ := keeping.pass
    rw [sweeps_succ]
    split
    · rfl
    · split
      · next progressed =>
        have lighter : _ < st.current.weight := (swept.lighter progressed).resolve_left Bool.false_ne_true
        exact ih swept.keeping (by omega)
      · rfl

theorem sweeps_mono {fuel more : Nat} (le : fuel ≤ more) {st : Shrinking Rest Outcome}
    {done : Shrinking Rest Outcome × Bool} (enough : sweeps failed signatureOf run signature budget fuel st = some done) :
    sweeps failed signatureOf run signature budget more st = some done := by
  induction fuel generalizing st more with
  | zero => cases enough
  | succ fuel ih =>
    obtain ⟨more, rfl⟩ := Nat.exists_eq_add_of_le' le
    rw [← Nat.add_assoc, sweeps_succ]
    rw [sweeps_succ] at enough
    split at enough
    · next spent => rw [if_pos spent, enough]
    · next unspent =>
      rw [if_neg unspent]
      split at enough
      · next progressed => rw [if_pos progressed, ih (Nat.le_add_left fuel more) enough]
      · next still => rw [if_neg still, enough]

theorem Keeping.sweeps {start : SimConfig Rest} {fuel : Nat} {st st' : Shrinking Rest Outcome} {exhausted : Bool}
    (keeping : Keeping failed signatureOf run signature start st)
    (done : sweeps failed signatureOf run signature budget fuel st = some (st', exhausted)) :
    Keeping failed signatureOf run signature start st' ∧ st'.attempts ≤ st.attempts + 24 * fuel ∧
      (exhausted = true → budget ≤ st'.attempts) ∧
      (exhausted = false → Minimal failed signatureOf run signature candidates st'.current) := by
  induction fuel generalizing st with
  | zero => cases done
  | succ fuel ih =>
    have swept : Swept failed signatureOf run signature budget start candidates _ _ _ := keeping.pass
    have runs : _ ≤ st.attempts + 24 := swept.attempts
    rw [sweeps_succ] at done
    split at done
    · next spent =>
      cases done
      exact ⟨swept.keeping, by omega, fun _ => swept.spent spent, Bool.noConfusion⟩
    · next unspent =>
      split at done
      · next progressed =>
        obtain ⟨keeping, attempts, rest⟩ := ih swept.keeping done
        exact ⟨keeping, by omega, rest⟩
      · next still =>
        cases done
        have none_ := Bool.eq_false_of_not_eq_true still
        refine ⟨swept.keeping, by omega, Bool.noConfusion, fun _ => ?_⟩
        rw [(swept.still none_).2]
        exact swept.minimal (Bool.eq_false_of_not_eq_true unspent) none_

end Search

/-- Shrinking ends, whatever the budget. What it returns failed when it was run, in the way of the first run, and
was got from the original by the candidates on record; and if the budget lasted, no candidate that applies to it
gives a configuration that fails in that way. -/
theorem shrink_minimal {Outcome : Type} (failed : Outcome → Bool) (signatureOf : Outcome → String)
    (run : SimConfig Rest → Outcome) (cfg : SimConfig Rest) (budget : Nat) :
    ∃ log answer, (∀ fuel > cfg.normalise.weight,
        shrink failed signatureOf run fuel cfg budget = some (log, answer)) ∧
      (answer = none ↔ failed (run cfg.normalise) = false) ∧
      ∀ r exhausted, answer = some (r, exhausted) →
        r.original = cfg ∧ r.signature = signatureOf (run cfg.normalise) ∧
        r.outcome = run r.minimal ∧ failed r.outcome = true ∧ signatureOf r.outcome = r.signature ∧
        Reached cfg.normalise r.removed r.minimal ∧ r.steps = r.removed.length ∧
        r.attempts ≤ 24 * (cfg.normalise.weight + 1) ∧ (exhausted = true → budget ≤ r.attempts) ∧
        (exhausted = false → ∀ cand ∈ candidates, ∀ next, cand.apply r.minimal = some next →
          ¬ (failed (run next) = true ∧ signatureOf (run next) = r.signature)) := by
  by_cases fails : failed (run cfg.normalise) = true
  · -- the first run fails; the loop starts from it
    let st : Shrinking Rest Outcome :=
      { current := cfg.normalise
        best := run cfg.normalise
        log := ["shrinking seed " ++ toString cfg.seed ++ " failing as [" ++ signatureOf (run cfg.normalise) ++ "]"] }
    have keeping : Keeping failed signatureOf run (signatureOf (run cfg.normalise)) cfg.normalise st :=
      ⟨rfl, ⟨fails, rfl⟩, .start, rfl⟩
    obtain ⟨⟨st', exhausted⟩, done⟩ :=
      Option.isSome_iff_exists.mp (keeping.sweeps_isSome (Nat.lt_succ_self cfg.normalise.weight) :
        (sweeps failed signatureOf run _ budget _ st).isSome)
    obtain ⟨kept, attempts, spent, minimal⟩ := keeping.sweeps done
    refine ⟨st'.log, some ({
      original := cfg
      minimal := st'.current
      signature := signatureOf (run cfg.normalise)
      attempts := st'.attempts
      steps := st'.steps
      removed := st'.removed
      outcome := st'.best }, exhausted), ?_, ?_, ?_⟩
    · intro fuel enough
      have same := sweeps_mono enough done
      simp only [shrink, fails, not_true_eq_false, if_false]
      exact congrArg (Option.map _) same
    · simp [fails]
    · intro r spentFlag answer
      cases answer
      have counted : st'.attempts ≤ 24 * (cfg.normalise.weight + 1) := by
        have runs : st'.attempts ≤ 0 + 24 * (cfg.normalise.weight + 1) := attempts
        omega
      exact ⟨rfl, rfl, kept.outcome, kept.reproduces.1, kept.reproduces.2, kept.reached, kept.steps, counted, spent,
        minimal⟩
  · refine ⟨["seed " ++ toString cfg.seed ++ " does not fail with this configuration; nothing to shrink"], none,
      ?_, ?_, ?_⟩
    · intro fuel _
      exact if_pos fails
    · simpa using fails
    · intro r exhausted answer
      cases answer

end SimKv.Harness
