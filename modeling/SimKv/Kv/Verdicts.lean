import SimKv.Checker.Durability
import SimKv.Kv.Linearizable

set_option autoImplicit false

/-!
# What the checks at the end of a run find

The history the clients have recorded is sane and gives the linearizability checker nothing to complain about, replicas
that have applied equally much hold the same data, and what was committed is on stable storage on a majority.
-/

namespace SimKv

open Agreement Succession Linearization Std

-- The order of the whole history is an order of each key.
theorem History.Linearizes.on {h : History} {order : List Operation} (linear : h.Linearizes order) (key : String) :
    h.LinearizesOn key (order.filter fun o => o.key = some key) where
  nodup := linear.nodup.filter _
  drawn o member := by
    obtain ⟨here, named⟩ := List.mem_filter.mp member
    exact List.mem_filter.mpr ⟨(List.mem_filter.mp (linear.drawn o here)).1, named⟩
  answered o member answer := by
    obtain ⟨here, named⟩ := List.mem_filter.mp member
    refine List.mem_filter.mpr ⟨linear.answered o (List.mem_filter.mpr ⟨here, ?_⟩) answer, named⟩
    rw [of_decide_eq_true named]
    rfl
  realTime a member b member' apart precedes := by
    obtain ⟨here, named⟩ := List.mem_filter.mp member
    obtain ⟨there, named'⟩ := List.mem_filter.mp member'
    have pair := (linear.realTime a here b there apart precedes).filter fun o => decide (o.key = some key)
    have own : [a, b].filter (fun o => decide (o.key = some key)) = [a, b] :=
      List.filter_eq_self.mpr (List.forall_mem_cons.mpr ⟨named, List.forall_mem_singleton.mpr named'⟩)
    rwa [own] at pair
  explained := by
    have keyed : ∀ o ∈ order, o.key.isSome := fun o here => (List.mem_filter.mp (linear.drawn o here)).2
    have explained := Operation.explains_onRegister keyed linear.explained key
    rwa [ExtTreeMap.getElem?_empty] at explained

variable {ι G : Type} {setup : Setup} {S S' : Service ι G} {c : Cluster} {g : State NodeId Entry}

-- What is settled is in the durable part of the log of every voter of some majority.
theorem SafetyRel.durable {e : Entry} (rel : SafetyRel setup c g) (fixed : Fixed setup g e) :
    ∃ voters, Ballot.Majority setup.members.toFinset voters ∧
      ∀ v ∈ voters, e ∈ (c.host v).raft.log.entries.take (c.host v).raft.durableIndex := by
  obtain ⟨t, l, settled, -, found⟩ := fixed
  rcases settled with rfl | ⟨u, -, i, committed, pre⟩
  · cases found
  · obtain ⟨voters, majority, held⟩ := rel.sound.committed_durable committed
    refine ⟨voters, majority, fun v member => ?_⟩
    obtain ⟨agrees, within⟩ := held v member
    rw [← agrees] at pre
    rw [← (rel.logs v).log, ← (rel.logs v).durable]
    exact List.take_subset_take_left _ within (pre.subset (List.mem_of_getElem? found))

-- Whoever leads in a term no member had gone beyond when an entry was settled has it.
theorem SafetyRel.fixed_leader {c' : Cluster} {g' : State NodeId Entry} {e : Entry} {y : NodeId}
    (rel : SafetyRel setup c g) (fixed : Fixed setup g e) (rel' : SafetyRel setup c' g') (grows : Grows g g')
    (leads : (c'.host y).raft.role = .leader)
    (newer : ∀ x ∈ setup.members, (c.host x).raft.term ≤ (c'.host y).raft.term) : e ∈ (c'.host y).raft.log.entries := by
  obtain ⟨t, l, settled, -, found⟩ := fixed
  rcases settled with rfl | ⟨u, -, i, committed, pre⟩
  · cases found
  · obtain ⟨-, voters, majority, vouch⟩ := id committed
    have some_ : (voters ∩ setup.members.toFinset).Nonempty := by
      refine Finset.card_pos.mp ?_
      rw [Ballot.Majority] at majority
      omega
    obtain ⟨v, member⟩ := some_
    obtain ⟨voter, listed⟩ := Finset.mem_inter.mp member
    -- the term of the winner who had it committed is one the voter has reached
    obtain ⟨m, -, acked⟩ := vouch v voter
    have reached := ((rel.sound.holder v).bound u m (.inr acked)).1
    have now : g.now v = (c.host v).raft.term := congrArg Ballot.Stance.term (rel.election.hosts v).node.now
    have settled : g.Settled Entry.term setup.members.toFinset u l := .inr ⟨u, le_rfl, i, committed, pre⟩
    have below : u ≤ (c'.host y).raft.term := (now ▸ reached).trans (newer v (List.mem_toFinset.mp listed))
    exact (rel'.settled_leader leads (grows.settled settled le_rfl) below).subset (List.mem_of_getElem? found)

namespace Service

def OnDisk (setup : Setup) (S : Service ι G) (disks : List DiskView) : Prop :=
  (∀ id ∈ setup.members, ∃ d ∈ disks, d.id = id) ∧
    ∀ d ∈ disks, (S.host d.id).Restores (readDisk d.bytes d.snapshots.1 d.snapshots.2)

-- Over the members that there are, not over all that there could be.
instance (disks : List DiskView) : Decidable (S.OnDisk setup disks) :=
  @instDecidableAnd _ _ (List.decidableBAll _ setup.members) (List.decidableBAll _ disks)

def Commits (setup : Setup) (S : Service ι G) (c : CommittedEntry) : Prop :=
  c.members = setup.members ∧ ∃ id, ∃ e ∈ (S.host id).log.entries,
    e.index ≤ (S.host id).commitIndex ∧ e.index = c.index ∧ e.term = c.term ∧ e.cmd = c.cmd

theorem Holds.durable {e : Entry} (holds : S.Holds setup c g) (fixed : Fixed setup g e) :
    ∃ voters, Ballot.Majority setup.members.toFinset voters ∧
      ∀ v ∈ voters, e ∈ (S.host v).log.entries.take (S.host v).durableIndex := by
  obtain ⟨voters, majority, held⟩ := holds.safety.durable fixed
  refine ⟨voters, majority, fun v voter => ?_⟩
  have durable := held v voter
  rwa [(holds.backed.hosts v).raft] at durable

theorem Holds.quorum_le_holders {c : Cluster} {disks : List DiskView} {entry : CommittedEntry} {e : Entry}
    (holds : S.Holds setup c g) (fixed : Fixed setup g e) (left : S.OnDisk setup disks)
    (members : entry.members = setup.members) (same : e.index = entry.index ∧ e.term = entry.term ∧ e.cmd = entry.cmd)
    (clusterSize : Nat) : entry.quorum clusterSize ≤ entry.holders disks := by
  obtain ⟨voters, majority, held⟩ := holds.durable fixed
  refine CommittedEntry.quorum_le_holders (members ▸ setup.nodup) (members ▸ majority) (fun v voter member => ?_) _
  obtain ⟨d, there, rfl⟩ := left.1 v (members ▸ member)
  obtain ⟨-, -, -, -, kept⟩ := left.2 d there
  have found := recoverWithSnapshots_get (kept.subset (held d.id voter))
  obtain ⟨index, term, cmd⟩ := same
  refine ⟨d, there, rfl, ?_⟩
  rw [CommittedEntry.heldBy, DiskView.recovered, ← index, found, Option.any_some, term, cmd]
  simp

theorem Lasting.not_instant {o : Operation} (lasting : S.Lasting) (manned : S.crew.Manned)
    (timely : S.crew.now < Nanos.max) (member : o ∈ S.crew.history.ops) : ¬ o.Instant := by
  intro instant
  unfold Operation.Instant at instant
  cases completed : o.completed with
  | none =>
    rw [completed] at instant
    have begun := manned.keeps.begun o member
    rw [← show Nanos.max = o.invoked from instant] at begun
    exact absurd timely (UInt64.not_lt.mpr begun)
  | some t =>
    rw [completed] at instant
    have later := lasting o member t completed
    rw [← show t = o.invoked from instant] at later
    exact absurd later (UInt64.lt_irrefl _)

theorem Serves.sm_eq {committed : Nat → Entry} (serves : S.Serves setup g committed) (id : NodeId) :
    (S.host id).sm = stateAfter committed (S.host id).lastApplied := by
  have synced := (serves.machine id).synced
  rw [Raft.InStep, serves.settled id] at synced
  exact synced

section Runs

variable [Fintype ι] [DecidableEq ι] {source : Harness.RandomSource G} {crew : Harness.System ι G}

theorem few_of_run (run : Execution.Run (Service.step source setup) (fun _ _ => True) S S') (few : S'.crew.Few) :
    S.crew.Few := by
  induction run with
  | refl => exact few
  | step _ _ next ih => exact ih (few_of_step next few)

/-- The recording is sane, and the linearizability checker never reports a violation on it. -/
theorem service_never_convicted (uncompacted : setup.Uncompacted) (logged : ∀ id, (setup.cfg id).readMode = .log)
    (initial : crew.Initial source) (nodes : Function.Injective fun i => (crew.clients i).node)
    (reached : Service.Reachable source setup crew S) (few : S.crew.Few) (timely : S.crew.now < Nanos.max)
    (debug : String → String) (checker : Checker) (key detail : String) :
    S.crew.history.toHistory.wellFormed = .ok () ∧
      (checker.check debug S.crew.history.toHistory).1 ≠ .violation key detail := by
  obtain ⟨c, g, holds, lasting, serves⟩ := holds_of_reachable uncompacted logged initial nodes reached few
  obtain ⟨committed, compatible⟩ := exists_compatible holds.safety.sound
  obtain ⟨order, linear⟩ := holds.linearizes compatible (serves committed compatible).2 few
  refine ⟨History.wellFormed_of_sane holds.manned.keeps.sane, fun verdict => ?_⟩
  obtain ⟨stats, unfolded⟩ := Checker.check_eq debug checker S.crew.history.toHistory
  rw [unfolded] at verdict
  obtain ⟨before, ops, after, split, -, stuck⟩ := Checker.checkAll_violation verdict
  obtain ⟨rfl, -⟩ := Checker.mem_byKey.mp (split ▸ List.mem_append_right _ List.mem_cons_self)
  refine stuck ((holds.manned.keeps.sane.explored_iff key).mpr ⟨⟨_, linear.on key⟩, fun o member => ?_⟩)
  exact lasting.not_instant holds.manned timely (History.mem_on.mp member).1

theorem service_never_convicted_scribes : ∃ S, Service.Reachable (Harness.rngSource 4) scribes scribesCrew S ∧
    S.crew.history.ops.map Operation.outcome = [some .written, some (.value (some "c7v1"))] ∧
    S.crew.history.toHistory.wellFormed = .ok () ∧
    (Checker.check Checker.quoted {} S.crew.history.toHistory).1 ≠ .violation "k4" "" := by
  obtain ⟨S, played, known⟩ := Option.map_eq_some_iff.mp scribes_played
  simp only [Prod.mk.injEq] at known
  obtain ⟨outcomes, now, seq⟩ := known
  have reached : Service.Reachable (Harness.rngSource 4) scribes scribesCrew S := Execution.run_of_play played
  have few : S.crew.Few := fun i => by rw [seq]; decide
  have timely : S.crew.now < Nanos.max := by rw [now]; decide
  refine ⟨S, reached, outcomes, ?_⟩
  exact service_never_convicted (fun _ => rfl) (fun _ => rfl) scribesCrew_initial (fun _ _ _ => rfl) reached few timely
    _ _ _ _

/-- Servers that have applied equally much hold the same state, whenever in a run. -/
theorem replicas_agree (uncompacted : setup.Uncompacted) (logged : ∀ id, (setup.cfg id).readMode = .log)
    (initial : crew.Initial source) (nodes : Function.Injective fun i => (crew.clients i).node)
    (reached : Service.Reachable source setup crew S)
    (run : Execution.Run (Service.step source setup) (fun _ _ => True) S S') (few : S'.crew.Few) {x y : NodeId}
    (level : (S.host x).lastApplied = (S'.host y).lastApplied) : (S.host x).sm = (S'.host y).sm := by
  have early := few_of_run run few
  obtain ⟨c, g, holds, -, serves⟩ := holds_of_reachable uncompacted logged initial nodes reached early
  obtain ⟨c', g', grows, holds', -, serves'⟩ := holds.run uncompacted logged run few
  obtain ⟨committed, compatible⟩ := exists_compatible holds'.safety.sound
  obtain ⟨here, recorded⟩ := serves committed (compatible.before grows)
  obtain ⟨there, -⟩ := serves' committed compatible here recorded
  rw [here.sm_eq, there.sm_eq, level]

theorem scribesWritten_applied :
    (Execution.play (step (Harness.rngSource 4) scribes) (fun _ _ => True) (start scribes scribesCrew)
        scribesWritten).bind
      (fun S => (Execution.play (step (Harness.rngSource 4) scribes) (fun _ _ => True) S scribesRead).map fun S' =>
        ((S.host 0).lastApplied, (S'.host 1).lastApplied, (S'.crew.clients ()).seq)) =
    some (2, 2, 2) := by decide +kernel

theorem replicas_agree_scribes : ∃ S S', Service.Reachable (Harness.rngSource 4) scribes scribesCrew S ∧
    Execution.Run (Service.step (Harness.rngSource 4) scribes) (fun _ _ => True) S S' ∧ (S.host 0).lastApplied = 2 ∧
    (S.host 0).sm = (S'.host 1).sm := by
  obtain ⟨S, played, later⟩ := Option.bind_eq_some_iff.mp scribesWritten_applied
  obtain ⟨S', played', known⟩ := Option.map_eq_some_iff.mp later
  simp only [Prod.mk.injEq] at known
  obtain ⟨here, there, seq⟩ := known
  have reached : Service.Reachable (Harness.rngSource 4) scribes scribesCrew S := Execution.run_of_play played
  have few : S'.crew.Few := fun i => by rw [seq]; decide
  refine ⟨S, S', reached, Execution.run_of_play played', here, ?_⟩
  exact replicas_agree (fun _ => rfl) (fun _ => rfl) scribesCrew_initial (fun _ _ _ => rfl) reached
    (Execution.run_of_play played') few (here.trans there.symm)

/-- Running replicas that have applied equally much hold the same data. -/
theorem replicas_converged (uncompacted : setup.Uncompacted) (logged : ∀ id, (setup.cfg id).readMode = .log)
    (initial : crew.Initial source) (nodes : Function.Injective fun i => (crew.clients i).node)
    (reached : Service.Reachable source setup crew S) (few : S.crew.Few) (up : List NodeId) (debug : String → String)
    (time : Nanos) :
    checkConvergence debug time (up.map fun id => (id, (S.host id).lastApplied, (S.host id).sm.state)) = [] := by
  obtain ⟨c, g, holds, -, serves⟩ := holds_of_reachable uncompacted logged initial nodes reached few
  obtain ⟨committed, compatible⟩ := exists_compatible holds.safety.sound
  obtain ⟨here, -⟩ := serves committed compatible
  refine checkConvergence_nil ?_ debug time
  intro p member q member' level
  obtain ⟨x, -, rfl⟩ := List.mem_map.mp member
  obtain ⟨y, -, rfl⟩ := List.mem_map.mp member'
  dsimp only at level ⊢
  rw [here.sm_eq, here.sm_eq, level]

theorem replicas_converged_scribes : ∃ S, Service.Reachable (Harness.rngSource 4) scribes scribesCrew S ∧
    S.crew.history.ops.map Operation.outcome = [some .written, some (.value (some "c7v1"))] ∧
    checkConvergence Checker.quoted 25 ([0, 1, 2].map fun id => (id, (S.host id).lastApplied, (S.host id).sm.state)) =
      [] := by
  obtain ⟨S, played, known⟩ := Option.map_eq_some_iff.mp scribes_played
  simp only [Prod.mk.injEq] at known
  obtain ⟨outcomes, -, seq⟩ := known
  have reached : Service.Reachable (Harness.rngSource 4) scribes scribesCrew S := Execution.run_of_play played
  have few : S.crew.Few := fun i => by rw [seq]; decide
  refine ⟨S, reached, outcomes, ?_⟩
  exact replicas_converged (fun _ => rfl) (fun _ => rfl) scribesCrew_initial (fun _ _ _ => rfl) reached few _ _ _

/-- Everything that any server of the run has ever known to be committed is on a majority of the disks. -/
theorem committed_on_majority (uncompacted : setup.Uncompacted) (logged : ∀ id, (setup.cfg id).readMode = .log)
    (initial : crew.Initial source) (nodes : Function.Injective fun i => (crew.clients i).node) (few : S'.crew.Few)
    {committed : List CommittedEntry} {disks : List DiskView}
    (known : ∀ entry ∈ committed, ∃ S, Service.Reachable source setup crew S ∧
      Execution.Run (Service.step source setup) (fun _ _ => True) S S' ∧ S.Commits setup entry)
    (left : S'.OnDisk setup disks) (time : Nanos) (clusterSize : Nat) :
    checkCommittedDurable time committed disks clusterSize = [] := by
  refine checkCommittedDurable_nil (fun entry member => ?_) time
  obtain ⟨S, reached, run, members, id, e, held, within, same⟩ := known entry member
  obtain ⟨c, g, holds, -, -⟩ := holds_of_reachable uncompacted logged initial nodes reached (few_of_run run few)
  obtain ⟨c', g', grows, holds', -, -⟩ := holds.run uncompacted logged run few
  have raft : (c.host id).raft = (S.host id).toRaft := (holds.backed.hosts id).raft
  rw [← raft] at held within
  have fixed := holds.safety.fixed held within
  exact holds'.quorum_le_holders (fixed.mono grows) left members same clusterSize

def scribesEntries : List Entry :=
  [ { term := 1, index := 1, cmd := .noop }, { term := 1, index := 2, cmd := ⟨7, 1, .put "k4" "c7v1"⟩ },
    { term := 1, index := 3, cmd := ⟨7, 2, .get "k4"⟩ } ]

def scribesFile : Bytes :=
  List.replicate slotSize 0 ++ (HardState.toSlot { term := 1, votedFor := some 0, seq := 1 } ++
    scribesEntries.flatMap Entry.toRecord)

def scribesDisks : List DiskView := [⟨0, scribesFile, [], []⟩, ⟨1, scribesFile, [], []⟩, ⟨2, [], [], []⟩]

theorem scribes_onDisk :
    (Execution.play (step (Harness.rngSource 4) scribes) (fun _ _ => True) (start scribes scribesCrew)
        (scribesWritten ++ scribesRead)).map
      (fun S => ((S.host 0).log.entries, (S.host 0).commitIndex, (S.crew.clients ()).seq,
        decide (S.OnDisk scribes scribesDisks))) =
    some (scribesEntries, 3, 2, true) := by decide +kernel

theorem committed_on_majority_scribes : ∃ S, Service.Reachable (Harness.rngSource 4) scribes scribesCrew S ∧
    S.OnDisk scribes scribesDisks ∧
    checkCommittedDurable 25 (scribesEntries.map fun e => ⟨e.index, e.term, e.cmd, [0, 1, 2]⟩) scribesDisks 3 = [] := by
  obtain ⟨S, played, known⟩ := Option.map_eq_some_iff.mp scribes_onDisk
  simp only [Prod.mk.injEq, decide_eq_true_eq] at known
  obtain ⟨entries, commitIndex, seq, left⟩ := known
  have reached : Service.Reachable (Harness.rngSource 4) scribes scribesCrew S := Execution.run_of_play played
  have few : S.crew.Few := fun i => by rw [seq]; decide
  have within : ∀ e ∈ scribesEntries, e.index ≤ 3 := by decide
  refine ⟨S, reached, left, ?_⟩
  refine committed_on_majority (fun _ => rfl) (fun _ => rfl) scribesCrew_initial (fun _ _ _ => rfl) few
    (List.forall_mem_map.mpr fun e member => ⟨S, reached, .refl, rfl, 0, e, ?_, ?_, rfl, rfl, rfl⟩) left 25 3
  · rw [entries]
    exact member
  · rw [commitIndex]
    exact within e member

/-- Every operation that was answered is an entry that a majority keeps on disk from then on, and that whoever comes to
lead has. -/
theorem acknowledged_durable (uncompacted : setup.Uncompacted) (logged : ∀ id, (setup.cfg id).readMode = .log)
    (initial : crew.Initial source) (nodes : Function.Injective fun i => (crew.clients i).node)
    (reached : Service.Reachable source setup crew S) (few : S.crew.Few) {o : Operation} (here : o ∈ S.crew.history.ops)
    (answered : o.outcome.isSome) :
    ∃ e : Entry, Carries e.cmd o ∧ e.cmd.op = o.op ∧
      ∀ S', Execution.Run (Service.step source setup) (fun _ _ => True) S S' → S'.crew.Few →
        (∃ voters, Ballot.Majority setup.members.toFinset voters ∧
          ∀ v ∈ voters, e ∈ (S'.host v).log.entries.take (S'.host v).durableIndex) ∧
        ∀ y, (S'.host y).role = .leader → (∀ x ∈ setup.members, (S.host x).term ≤ (S'.host y).term) →
          e ∈ (S'.host y).log.entries := by
  obtain ⟨c, g, holds, -, serves⟩ := holds_of_reachable uncompacted logged initial nodes reached few
  obtain ⟨committed, compatible⟩ := exists_compatible holds.safety.sound
  obtain ⟨first, took⟩ := (serves committed compatible).2 o here answered
  obtain ⟨-, o', there, carries, op, -⟩ := holds.operation compatible few took.placed took.carries.fromClient
  -- the operation that asks for the command is this one
  have same : o' = o := List.inj_on_of_nodup_map holds.manned.keeps.indexed.distinct there here
    (carries.name.trans took.carries.name.symm)
  refine ⟨committed first, took.carries, same ▸ op.symm, fun S' run few' => ?_⟩
  obtain ⟨c', g', grows, holds', -⟩ := holds.run uncompacted logged run few'
  have fixed := (compatible.fixed took.placed).1
  refine ⟨holds'.durable (fixed.mono grows), fun y leads newer => ?_⟩
  have raft : ∀ x, (c.host x).raft = (S.host x).toRaft := fun x => (holds.backed.hosts x).raft
  have raft' : (c'.host y).raft = (S'.host y).toRaft := (holds'.backed.hosts y).raft
  rw [← raft'] at leads newer ⊢
  refine holds.safety.fixed_leader fixed holds'.safety grows leads fun x member => ?_
  rw [raft x]
  exact newer x member

-- The leader's power fails after both answers. It starts again from its disk and votes for server 1, which leads from
-- then on.
def scribesRevived : List (ServiceEvent Unit) :=
  [ .server 0 (.restart 30 scribesFile [] []), .server 1 (.timer 31 .election), .server 1 (.storage 32 7 true),
    .server 1 (.storage 32 8 true), .server 0 (.message 33 1 (.requestVote 2 1 3 1)), .server 0 (.storage 34 9 true),
    .server 0 (.storage 34 10 true), .server 1 (.message 35 0 (.requestVoteResp 2 true)) ]

theorem scribes_revived :
    (Execution.play (step (Harness.rngSource 4) scribes) (fun _ _ => True) (start scribes scribesCrew)
        (scribesWritten ++ scribesRead)).bind
      (fun S => (Execution.play (step (Harness.rngSource 4) scribes) (fun _ _ => True) S scribesRevived).map fun S' =>
        ((S.crew.history.ops.map Operation.outcome, (S.crew.clients ()).seq, (S.host 0).term, (S.host 1).term,
          (S.host 2).term), ((S'.crew.clients ()).seq, (S'.host 1).role, (S'.host 1).term))) =
    some (([some .written, some (.value (some "c7v1"))], 2, 1, 1, 0), (2, .leader, 2)) := by decide +kernel

theorem acknowledged_durable_scribes : ∃ S S', Service.Reachable (Harness.rngSource 4) scribes scribesCrew S ∧
    Execution.Run (Service.step (Harness.rngSource 4) scribes) (fun _ _ => True) S S' ∧
    (S'.host 1).role = .leader ∧ (S'.host 1).term = 2 ∧
    ∃ o ∈ S.crew.history.ops, o.outcome = some .written ∧ ∃ e : Entry, Carries e.cmd o ∧ e.cmd.op = o.op ∧
      (∃ voters, Ballot.Majority scribes.members.toFinset voters ∧
        ∀ v ∈ voters, e ∈ (S'.host v).log.entries.take (S'.host v).durableIndex) ∧
      e ∈ (S'.host 1).log.entries := by
  obtain ⟨S, played, later⟩ := Option.bind_eq_some_iff.mp scribes_revived
  obtain ⟨S', revived, known⟩ := Option.map_eq_some_iff.mp later
  simp only [Prod.mk.injEq] at known
  obtain ⟨⟨outcomes, seq, zero, one, two⟩, seq', leads, newer⟩ := known
  have reached : Service.Reachable (Harness.rngSource 4) scribes scribesCrew S := Execution.run_of_play played
  have run : Execution.Run (Service.step (Harness.rngSource 4) scribes) (fun _ _ => True) S S' :=
    Execution.run_of_play revived
  have few : S.crew.Few := fun i => by rw [seq]; decide
  have few' : S'.crew.Few := fun i => by rw [seq']; decide
  obtain ⟨o, rest, split, written, -⟩ := List.map_eq_cons_iff.mp outcomes
  have here : o ∈ S.crew.history.ops := split ▸ List.mem_cons_self
  obtain ⟨e, carries, op, kept⟩ := acknowledged_durable (fun _ => rfl) (fun _ => rfl) scribesCrew_initial
    (fun _ _ _ => rfl) reached few here (written ▸ rfl)
  obtain ⟨majority, leaders⟩ := kept S' run few'
  refine ⟨S, S', reached, run, leads, newer, o, here, written, e, carries, op, majority, ?_⟩
  refine leaders 1 leads fun x member => ?_
  have listed : x ∈ [0, 1, 2] := member
  simp only [List.mem_cons, List.not_mem_nil, or_false] at listed
  rcases listed with rfl | rfl | rfl <;> omega

end Runs

end Service

end SimKv
