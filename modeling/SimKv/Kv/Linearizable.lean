import SimKv.Checker.Sequential
import SimKv.Kv.Placement

set_option autoImplicit false

/-!
# The service is linearizable

What the clients record is explained by one map that performs every command at its first place in the log. An operation
that has returned has its place, and a command that is asked for later only comes behind it.
-/

namespace SimKv

open Agreement Succession Linearization AtMostOnce Std

section Effects

variable {committed : Nat → Entry}

def Effective (committed : Nat → Entry) (index : Nat) : Prop :=
  (committed index).cmd.FromClient ∧
    Fresh Command.client Command.seq (clientCommands (commands committed (index - 1))) (committed index).cmd

instance (index : Nat) : Decidable (Effective committed index) := inferInstanceAs (Decidable (_ ∧ _))

def effects (committed : Nat → Entry) (count : Nat) : List Nat :=
  (List.range' 1 count).filter fun index => Effective committed index

theorem effects_succ (count : Nat) : effects committed (count + 1) =
    effects committed count ++ if Effective committed (count + 1) then [count + 1] else [] := by
  rw [effects, List.range'_1_concat, List.filter_append, ← effects, Nat.add_comm 1 count]
  congr 1
  split
  · next effective => exact List.filter_cons_of_pos (decide_eq_true effective)
  · next stale => exact List.filter_cons_of_neg (by simpa using stale)

theorem mem_effects {count index : Nat} :
    index ∈ effects committed count ↔ (1 ≤ index ∧ index ≤ count) ∧ Effective committed index := by
  rw [effects, List.mem_filter, List.mem_range'_1, decide_eq_true_eq]
  exact and_congr_left fun _ => by omega

theorem effects_sorted (count : Nat) : (effects committed count).Pairwise (· < ·) := by
  have sorted : (List.range' 1 count).Pairwise (· < ·) := List.pairwise_lt_range'
  exact sorted.filter _

-- A command that takes effect has a higher number than its client's commands in front of it.
theorem Effective.seq_lt {earlier index : Nat} (effective : Effective committed index) (positive : 1 ≤ earlier)
    (before : earlier < index) (fromClient : (committed earlier).cmd.FromClient)
    (same : (committed earlier).cmd.client = (committed index).cmd.client) :
    (committed earlier).cmd.seq < (committed index).cmd.seq := by
  refine effective.2 _ (List.mem_filter.mpr ⟨mem_commands.mpr ⟨earlier, positive, by omega, rfl⟩, ?_⟩) same
  exact decide_eq_true fromClient

-- A command takes effect in one place.
theorem Effective.unique {index index' : Nat} (effective : Effective committed index)
    (effective' : Effective committed index') (positive : 1 ≤ index) (positive' : 1 ≤ index')
    (client : (committed index).cmd.client = (committed index').cmd.client)
    (seq : (committed index).cmd.seq = (committed index').cmd.seq) : index = index' := by
  rcases Nat.lt_trichotomy index index' with before | same | behind
  · exact absurd seq (effective'.seq_lt positive before effective.1 client).ne
  · exact same
  · exact absurd seq.symm (effective.seq_lt positive' behind effective'.1 client.symm).ne

theorem FirstEffect.takesEffect {client seq index : Nat} (effect : FirstEffect committed client seq index)
    (fromClient : (committed index).cmd.FromClient) : Effective committed index :=
  ⟨fromClient, effect.effective fromClient⟩

theorem StateMachine.apply_of_stale {cmds : List Command} {cmd : Command} (fromClient : cmd.FromClient)
    (stale : ¬ Fresh Command.client Command.seq (clientCommands cmds) cmd) :
    ((({} : StateMachine).applyAll cmds).apply cmd).2.state = (({} : StateMachine).applyAll cmds).state := by
  obtain ⟨-, moved⟩ := apply_toServer (({} : StateMachine).applyAll cmds) fromClient
  obtain ⟨_, _, -, -, served⟩ := (kept_applyAll cmds).serve_stale stale
  rw [served] at moved
  exact congrArg Server.state moved

-- One map explains what the commands are answered where they take effect.
theorem explains_effects {pick : Nat → Operation} (count : Nat)
    (asks : ∀ index ∈ effects committed count, (pick index).op = (committed index).cmd.op)
    (answers : ∀ index ∈ effects committed count, ∀ a ∈ (pick index).outcome, answerAt committed index = a) :
    Explains Operation.onMap Operation.outcome ∅ ((effects committed count).map pick) ∧
      after Operation.onMap ∅ ((effects committed count).map pick) = (stateAfter committed count).state := by
  induction count with
  | zero => exact ⟨trivial, rfl⟩
  | succ count ih =>
    have within : ∀ index ∈ effects committed count, index ∈ effects committed (count + 1) := fun index member => by
      rw [effects_succ]
      exact List.mem_append_left _ member
    obtain ⟨explained, state⟩ := ih (fun index member => asks index (within index member))
      fun index member => answers index (within index member)
    rw [effects_succ, List.map_append, explains_append, after_append, state, stateAfter_succ]
    by_cases effective : Effective committed (count + 1)
    · have here : count + 1 ∈ effects committed (count + 1) := mem_effects.mpr ⟨⟨by omega, le_rfl⟩, effective⟩
      obtain ⟨answer, moved⟩ := StateMachine.apply_of_fresh effective.1 effective.2
      rw [if_pos effective]
      have same : (pick (count + 1)).onMap (stateAfter committed count).state =
          StateMachine.perform (stateAfter committed count).state (committed (count + 1)).cmd.op := by
        rw [Operation.onMap, asks _ here]
      refine ⟨⟨explained, fun a recorded => ?_, trivial⟩, ?_⟩
      · rw [same]
        exact answer.symm.trans (answers _ here a recorded)
      · refine (congrArg Prod.snd same).trans moved.symm
    · rw [if_neg effective]
      refine ⟨⟨explained, trivial⟩, ?_⟩
      by_cases fromClient : (committed (count + 1)).cmd.FromClient
      · exact (StateMachine.apply_of_stale fromClient fun fresh => effective ⟨fromClient, fresh⟩).symm
      · rw [StateMachine.apply_of_not_fromClient _ fromClient]
        rfl

end Effects

variable {ι G : Type} {setup : Setup} {S : Service ι G} {c : Cluster} {g g' : State NodeId Entry}
  {committed : Nat → Entry}

/-- The command is a client's, and goes by the name of this operation. -/
structure Carries (cmd : Command) (o : Operation) : Prop where
  fromClient : cmd.FromClient
  client : o.client = cmd.client
  name : o.id = Harness.operationId cmd.client cmd.seq

namespace Service

structure TookPlace (setup : Setup) (g : State NodeId Entry) (committed : Nat → Entry) (S : Service ι G) (o : Operation)
    (first : Nat) : Prop where
  placed : Placed setup g first
  carries : Carries (committed first).cmd o
  effect : FirstEffect committed (committed first).cmd.client (committed first).cmd.seq first
  answer : o.outcome = some (answerAt committed first)
  ahead : ∀ p ∈ S.crew.history.ops, Precedes Operation.start Operation.finish o p →
    ∀ index, Placed setup g index → Carries (committed index).cmd p → first < index

def Recorded (setup : Setup) (g : State NodeId Entry) (committed : Nat → Entry) (S : Service ι G) : Prop :=
  ∀ o ∈ S.crew.history.ops, o.outcome.isSome → ∃ first, TookPlace setup g committed S o first

-- What is settled later comes behind what was answered.
theorem Recorded.server {id : NodeId} {event : KvEvent} {k : KvServer} (recorded : Recorded setup g committed S)
    (formed : ∀ t, WellFormed (g.lead t)) (grows : Grows g g') : Recorded setup g' committed (S.settle id event k) := by
  intro o here answered
  obtain ⟨first, took⟩ := recorded o here answered
  refine ⟨first, { took with placed := took.placed.mono grows, ahead := ?_ }⟩
  intro p there precedes index placed carries
  by_cases old : Placed setup g index
  · exact took.ahead p there precedes index old carries
  · exact took.placed.behind formed old placed

section Client

variable {i : ι} {now : Nanos} {event : Harness.ClientEvent}

-- Request ids tell the attempts of a client apart.
theorem eq_of_reqId {requests : List Harness.Request} (increasing : requests.Pairwise fun r r' => r.reqId < r'.reqId)
    {r r' : Harness.Request} (here : r ∈ requests) (there : r' ∈ requests) (same : r.reqId = r'.reqId) : r = r' := by
  by_contra apart
  obtain pair | pair := pair_or_pair here there apart
  · exact absurd same (List.pairwise_pair.mp (increasing.sublist pair)).ne
  · exact absurd same.symm (List.pairwise_pair.mp (increasing.sublist pair)).ne

-- No command of an operation that is only now invoked is in the log.
theorem Holds.uncarried {index : Nat} {op : Op} (holds : S.Holds setup c g) (compatible : Compatible setup g committed)
    (placed : Placed setup g index) (few : S.crew.Few) (room : (S.crew.clients i).seq + 1 < 2 ^ 32) :
    ¬ Carries (committed index).cmd ((S.crew.crew i).operation op now) := by
  intro carries
  obtain ⟨q, asked, same⟩ := holds.asked_at compatible placed carries.fromClient
  obtain ⟨j, -, who, -, within, -⟩ := asked.listed holds.manned
  have numbered : (S.crew.crew i).nextHistoryId = (S.crew.clients i).seq + 1 := (holds.manned.keeps.fits i).numbered
  have name := carries.name
  rw [same] at name
  obtain ⟨client, seq⟩ := Harness.operationId_inj (numbered ▸ room) (within.trans_lt (few j)) name
  obtain rfl := holds.manned.distinct (client.trans who.symm)
  have numbered : (S.crew.clients i).seq + 1 = q.seq := numbered.symm.trans seq
  omega

-- What a client reads about its latest attempt was answered where the command took effect.
theorem Serves.heard {t : Harness.Trial} {outcome : Outcome} (serves : S.Serves setup g committed)
    (manned : S.crew.Manned) (hears : S.Hears i event) (busy : t ∈ (S.crew.crew i).trial)
    (answers : Harness.Answers event t outcome) :
    ∃ first, Placed setup g first ∧ FirstEffect committed (S.crew.clients i).id t.seq first ∧
      outcome = answerAt committed first := by
  obtain ⟨bytes, rfl, reads⟩ := answers.reads
  have heard : (t.reqId, outcome) ∈ (Harness.ClientEvent.bytes bytes).answer := by
    rw [Harness.ClientEvent.answer, reads]
    rfl
  obtain ⟨q, ⟨j, node, sent⟩, src, reqId, resolves⟩ := serves.replies _ (hears _ heard) answers.definite
  obtain rfl := manned.nodes (node.trans src)
  -- the answer is for the latest attempt
  have fits := manned.keeps.fits j
  obtain ⟨-, current, -, last⟩ := fits.latest t busy
  have latest := List.mem_of_getLast? last
  have same := eq_of_reqId fits.increasing sent latest reqId
  obtain ⟨-, client, seq, -⟩ := Harness.Request.mk.inj same
  rcases resolves with ⟨first, placed, effect, answer⟩ | ⟨later, asked, client', ahead⟩
  · rw [client, seq] at effect
    exact ⟨first, placed, effect, answer⟩
  · obtain ⟨j', -, who, -, within, -⟩ := asked.listed manned
    obtain rfl := manned.distinct (who.trans (client'.trans client))
    have current : t.seq = (S.crew.clients j').seq := current
    omega

variable [DecidableEq ι] {source : Harness.RandomSource G}

open Harness in
-- An operation is as it was, or has just been answered or invoked.
theorem mem_step {C : Harness.System ι G} (manned : C.Manned) {o : Operation}
    (member : o ∈ (C.step source i now event).history.ops) : o ∈ C.history.ops ∨
      (∃ o' ∈ C.history.ops, ∃ t ∈ (C.crew i).trial, ∃ outcome, Harness.Answers event t outcome ∧
        o'.id = operationId (C.crew i).id t.historyId ∧ o'.client = (C.crew i).id ∧ o = o'.answered now outcome) ∨
      ∃ op, o = (C.crew i).operation op now ∧ ((C.step source i now event).crew i).seq = (C.crew i).seq + 1 := by
  obtain ⟨s, h, settles, sends⟩ := System.step_moves source C i now event
  obtain ⟨sameId, sameSeq, sameNext, -⟩ := settles.same
  have before : o ∈ h.ops → o ∈ C.history.ops ∨ ∃ o' ∈ C.history.ops, ∃ t ∈ (C.crew i).trial, ∃ outcome,
      Harness.Answers event t outcome ∧ o'.id = operationId (C.crew i).id t.historyId ∧ o'.client = (C.crew i).id ∧
        o = o'.answered now outcome := by
    intro here
    cases settles with
    | stay | abandon => exact .inl here
    | complete busy answers =>
      obtain ⟨o', listed, id, who, -⟩ := (manned.keeps.fits i).awaited _ busy
      obtain ⟨k, found⟩ := List.getElem?_of_mem listed
      rw [← id] at here
      refine (manned.keeps.indexed.mem_complete found here).imp_right fun same => ?_
      exact ⟨o', listed, _, busy, _, answers, id, who, same⟩
  generalize (C.step source i now event).history = h' at sends member
  generalize (C.step source i now event).crew i = s' at sends ⊢
  cases sends with
  | silent | attempt => exact or_assoc.mp (.inl (before member))
  | begin op idle =>
    rcases Recording.mem_push.mp member with old | rfl
    · exact or_assoc.mp (.inl (before old))
    · refine .inr (.inr ⟨op, ?_, congrArg Nat.succ sameSeq⟩)
      simp only [Standing.operation, sameId, sameNext]

-- An operation of the new history was invoked before, or none of its commands is in the log.
theorem Holds.known (holds : S.Holds setup c g) (compatible : Compatible setup g committed)
    (few : (S.crew.step source i now event).Few) {p : Operation}
    (here : p ∈ (S.crew.step source i now event).history.ops) :
    (∃ p' ∈ S.crew.history.ops, p'.id = p.id ∧ p'.client = p.client ∧ p'.invoked = p.invoked) ∨
      ∀ index, Placed setup g index → ¬ Carries (committed index).cmd p := by
  rcases mem_step holds.manned here with old | ⟨p', there, _, _, _, _, _, _, rfl⟩ | ⟨op, rfl, next⟩
  · exact .inl ⟨p, old, rfl, rfl, rfl⟩
  · exact .inl ⟨p', there, rfl, rfl, rfl⟩
  · have room : (S.crew.clients i).seq + 1 < 2 ^ 32 := next.symm.trans_lt (few i)
    exact .inr fun index placed => holds.uncarried compatible placed few.of_step room

theorem Recorded.client (recorded : Recorded setup g committed S) (serves : S.Serves setup g committed)
    (holds : S.Holds setup c g) (compatible : Compatible setup g committed) (later : S.crew.now < now)
    (hears : S.Hears i event) (few : (S.crew.step source i now event).Few) :
    Recorded setup g committed { S with crew := S.crew.step source i now event } := by
  have manned := holds.manned
  have early : ∀ p ∈ S.crew.history.ops, p.invoked < now := fun p here =>
    UInt64.lt_of_le_of_lt (manned.keeps.begun p here) later
  intro o member answered
  rcases mem_step manned member with old | ⟨o', -, t, busy, outcome, answers, id, who, rfl⟩ | ⟨op, rfl, -⟩
  · obtain ⟨first, took⟩ := recorded o old answered
    refine ⟨first, took.placed, took.carries, took.effect, took.answer, fun p here precedes index placed carries => ?_⟩
    rcases holds.known compatible few here with ⟨p', there, id, client, invoked⟩ | none
    · obtain ⟨t, returns, soon⟩ := precedes
      rw [Operation.start, ← invoked] at soon
      exact took.ahead p' there ⟨t, returns, soon⟩ index placed
        ⟨carries.fromClient, client.trans carries.client, id.trans carries.name⟩
    · exact absurd carries (none index placed)
  · obtain ⟨first, placed, effect, same⟩ := serves.heard manned hears busy answers
    obtain ⟨-, client, seq⟩ := effect.issued
    have positive := ((manned.numbered i).trial t busy).1
    obtain ⟨historyId, current, -⟩ := (manned.keeps.fits i).latest t busy
    have name : o'.id = Harness.operationId (committed first).cmd.client (committed first).cmd.seq := by
      rw [id, client, seq, historyId, current]
      rfl
    refine ⟨first, placed, ⟨holds.fromClient compatible placed seq positive, who.trans client.symm, name⟩, ?_,
      congrArg some same, fun p here precedes index placed carries => ?_⟩
    · rw [client, seq]
      exact effect
    · rcases holds.known compatible few here with ⟨p', there, -, -, invoked⟩ | none
      · -- it was invoked before
        obtain ⟨_, ⟨⟩, soon⟩ := precedes
        rw [Operation.start, ← invoked] at soon
        exact absurd (UInt64.lt_iff_toNat_lt.mp (early p' there)) (Nat.not_lt.mpr soon)
      · exact absurd carries (none index placed)
  · cases answered

end Client

-- Every settled command of a client is one of the recorded operations.
theorem Holds.operation {index : Nat} (holds : S.Holds setup c g) (compatible : Compatible setup g committed)
    (few : S.crew.Few) (placed : Placed setup g index) (fromClient : (committed index).cmd.FromClient) :
    (committed index).cmd.seq < 2 ^ 32 ∧ ∃ o ∈ S.crew.history.ops,
      Carries (committed index).cmd o ∧ o.op = (committed index).cmd.op ∧ o.key.isSome := by
  obtain ⟨q, asked, same⟩ := holds.asked_at compatible placed fromClient
  obtain ⟨i, -, -, -, within, o, here, name, who, op⟩ := asked.listed holds.manned
  have keyed := asked.keyed holds.manned
  rw [← op] at keyed
  refine ⟨?_, o, here, ⟨fromClient, ?_, ?_⟩, ?_, keyed⟩
  all_goals rw [same]
  · exact within.trans_lt (few i)
  · exact who
  · exact name
  · exact op

-- An operation takes effect in one place.
theorem Holds.same_place {index index' : Nat} {o : Operation} (holds : S.Holds setup c g)
    (compatible : Compatible setup g committed) (few : S.crew.Few) (placed : Placed setup g index)
    (placed' : Placed setup g index') (effective : Effective committed index) (effective' : Effective committed index')
    (carries : Carries (committed index).cmd o) (carries' : Carries (committed index').cmd o) : index = index' := by
  have small := (holds.operation compatible few placed effective.1).1
  have small' := (holds.operation compatible few placed' effective'.1).1
  obtain ⟨client, seq⟩ := Harness.operationId_inj small small' (carries.name.symm.trans carries'.name)
  exact effective.unique effective' placed.positive placed'.positive client seq

theorem Recorded.took {index : Nat} {o : Operation} (recorded : Recorded setup g committed S)
    (holds : S.Holds setup c g) (compatible : Compatible setup g committed) (few : S.crew.Few)
    (placed : Placed setup g index) (effective : Effective committed index) (here : o ∈ S.crew.history.ops)
    (carries : Carries (committed index).cmd o) (answered : o.outcome.isSome) :
    TookPlace setup g committed S o index := by
  obtain ⟨first, took⟩ := recorded o here answered
  obtain rfl := holds.same_place compatible few took.placed placed
    (took.effect.takesEffect took.carries.fromClient) effective took.carries carries
  exact took

-- Some place stands behind all that are asked for.
theorem exists_last {A : Type} {l : List A} {settled : Nat → Prop} {at' : A → Nat → Prop}
    (each : ∀ a ∈ l, ∃ n, settled n ∧ at' a n) :
    ∃ last, (last = 0 ∨ settled last) ∧ ∀ a ∈ l, ∃ n ≤ last, at' a n := by
  induction l with
  | nil => exact ⟨0, .inl rfl, List.forall_mem_nil _⟩
  | cons a rest ih =>
    obtain ⟨⟨n, here, placed⟩, later⟩ := List.forall_mem_cons.mp each
    obtain ⟨last, top, covers⟩ := ih later
    refine ⟨max n last, ?_, List.forall_mem_cons.mpr ⟨⟨n, le_max_left _ _, placed⟩, fun b member => ?_⟩⟩
    · rcases max_choice n last with same | same
      · rw [same]
        exact .inr here
      · rwa [same]
    · obtain ⟨n', within, placed'⟩ := covers b member
      exact ⟨n', within.trans (le_max_right _ _), placed'⟩

theorem Holds.linearizes (holds : S.Holds setup c g) (compatible : Compatible setup g committed)
    (recorded : Recorded setup g committed S) (few : S.crew.Few) :
    ∃ order, S.crew.history.toHistory.Linearizes order := by
  have manned := holds.manned
  have each : ∀ index, ∃ o : Operation, Placed setup g index → (committed index).cmd.FromClient →
      o ∈ S.crew.history.ops ∧ Carries (committed index).cmd o ∧ o.op = (committed index).cmd.op ∧ o.key.isSome := by
    intro index
    by_cases there : Placed setup g index ∧ (committed index).cmd.FromClient
    · obtain ⟨-, o, facts⟩ := holds.operation compatible few there.1 there.2
      exact ⟨o, fun _ _ => facts⟩
    · exact ⟨default, fun placed fromClient => absurd ⟨placed, fromClient⟩ there⟩
  choose pick picks using each
  have answered : ∀ o ∈ S.crew.history.ops.filter fun o => o.outcome.isSome, ∃ n, Placed setup g n ∧
      TookPlace setup g committed S o n := by
    intro o member
    obtain ⟨here, answer⟩ := List.mem_filter.mp member
    obtain ⟨first, took⟩ := recorded o here answer
    exact ⟨first, took.placed, took⟩
  obtain ⟨last, top, covers⟩ := exists_last answered
  have place : ∀ index ∈ effects committed last, Placed setup g index ∧ Effective committed index := by
    intro index member
    obtain ⟨⟨positive, within⟩, effective⟩ := mem_effects.mp member
    rcases top with rfl | settled
    · omega
    · exact ⟨settled.earlier holds.safety.formed positive within, effective⟩
  have picked : ∀ index ∈ effects committed last, pick index ∈ S.crew.history.ops ∧
      Carries (committed index).cmd (pick index) ∧ (pick index).op = (committed index).cmd.op ∧
      (pick index).key.isSome := fun index member => picks index (place index member).1 (place index member).2.1
  have took : ∀ index ∈ effects committed last, (pick index).outcome.isSome →
      TookPlace setup g committed S (pick index) index := by
    intro index member answer
    obtain ⟨placed, effective⟩ := place index member
    obtain ⟨here, carries, -⟩ := picked index member
    exact recorded.took holds compatible few placed effective here carries answer
  refine ⟨(effects committed last).map pick, isLinearization_map (effects_sorted last) ?_ ?_ ?_ ?_
    (explains_effects last (fun index member => (picked index member).2.2.1) ?_).1⟩
  · intro index member index' member' same
    obtain ⟨placed, effective⟩ := place index member
    obtain ⟨placed', effective'⟩ := place index' member'
    refine holds.same_place compatible few placed placed' effective effective' (picked index member).2.1 ?_
    rw [same]
    exact (picked index' member').2.1
  · intro index member
    obtain ⟨here, -, -, keyed⟩ := picked index member
    exact List.mem_filter.mpr ⟨here, keyed⟩
  · intro o member answer
    have here := (List.mem_filter.mp member).1
    obtain ⟨first, within, took⟩ := covers o (List.mem_filter.mpr ⟨here, answer⟩)
    have inside : first ∈ effects committed last :=
      mem_effects.mpr ⟨⟨took.placed.positive, within⟩, took.effect.takesEffect took.carries.fromClient⟩
    obtain ⟨there, carries, -⟩ := picked first inside
    refine ⟨first, inside, List.inj_on_of_nodup_map manned.keeps.indexed.distinct there here ?_⟩
    exact carries.name.trans took.carries.name.symm
  · intro index member index' member' precedes
    obtain ⟨here, -⟩ := picked index member
    obtain ⟨there, carries, -⟩ := picked index' member'
    have returned : (pick index).completed.isSome := by
      obtain ⟨t, returns, -⟩ := precedes
      exact (Option.isSome_map ..).symm.trans (Option.isSome_of_mem returns)
    rw [manned.keeps.agree _ here] at returned
    exact (took index member returned).ahead _ there precedes index' (place index' member').1 carries
  · intro index member a recorded
    have answer := (took index member (Option.isSome_of_mem recorded)).answer
    exact Option.some.inj (answer.symm.trans recorded)

section Runs

variable [Fintype ι] [DecidableEq ι] {source : Harness.RandomSource G} {crew : Harness.System ι G} {S' : Service ι G}

def Lasting (S : Service ι G) : Prop := ∀ o ∈ S.crew.history.ops, ∀ t ∈ o.completed, o.invoked < t

omit [Fintype ι] in
theorem Lasting.client {i : ι} {now : Nanos} {event : Harness.ClientEvent} (lasting : S.Lasting)
    (manned : S.crew.Manned) (later : S.crew.now < now) :
    Lasting { S with crew := S.crew.step source i now event } := by
  intro o member t returns
  rcases mem_step manned member with old | ⟨o', there, _, _, _, _, _, _, rfl⟩ | ⟨op, rfl, -⟩
  · exact lasting o old t returns
  · cases returns
    exact UInt64.lt_of_le_of_lt (manned.keeps.begun o' there) later
  · cases returns

theorem few_of_step {event : ServiceEvent ι} (next : S.step source setup event = some S') (few : S'.crew.Few) :
    S.crew.Few := by
  cases event with
  | server id event =>
    simp only [Service.step] at next
    split at next
    · cases next
      exact few
    · cases next
  | client i now told =>
    simp only [Service.step] at next
    split at next
    · cases next
      exact few.of_step
    · cases next

-- What holds before an event holds after it, and the settled part only grows.
theorem Holds.step {event : ServiceEvent ι} (holds : S.Holds setup c g) (uncompacted : setup.Uncompacted)
    (logged : ∀ id, (setup.cfg id).readMode = .log) (next : S.step source setup event = some S') (few : S'.crew.Few) :
    ∃ c' g', Grows g g' ∧ S'.Holds setup c' g' ∧ (S.Lasting → S'.Lasting) ∧
      ∀ committed, Compatible setup g' committed → S.Serves setup g committed → Recorded setup g committed S →
        S'.Serves setup g' committed ∧ Recorded setup g' committed S' := by
  cases event with
  | server id event =>
    simp only [Service.step] at next
    split at next
    · next possible =>
      cases next
      obtain ⟨reaches, calm⟩ := possible
      obtain ⟨c', g', grows, holds'⟩ := holds.server uncompacted logged reaches calm
      refine ⟨c', g', grows, holds', fun lasting => lasting, fun committed compatible serves recorded => ?_⟩
      exact ⟨serves.server holds holds' compatible grows (logged id) reaches calm,
        recorded.server holds.safety.formed grows⟩
    · cases next
  | client i now told =>
    simp only [Service.step] at next
    split at next
    · next possible =>
      cases next
      obtain ⟨later, hears⟩ := possible
      refine ⟨c, g, .refl g, holds.client (UInt64.le_of_lt later) few,
        fun lasting => lasting.client holds.manned later, fun committed compatible serves recorded => ?_⟩
      exact ⟨serves.client holds.manned, recorded.client serves holds compatible later hears few⟩
    · cases next

theorem Holds.run (holds : S.Holds setup c g) (uncompacted : setup.Uncompacted)
    (logged : ∀ id, (setup.cfg id).readMode = .log)
    (run : Execution.Run (Service.step source setup) (fun _ _ => True) S S') (few : S'.crew.Few) :
    ∃ c' g', Grows g g' ∧ S'.Holds setup c' g' ∧ (S.Lasting → S'.Lasting) ∧
      ∀ committed, Compatible setup g' committed → S.Serves setup g committed → Recorded setup g committed S →
        S'.Serves setup g' committed ∧ Recorded setup g' committed S' := by
  induction run with
  | refl => exact ⟨c, g, .refl g, holds, fun lasting => lasting, fun committed _ serves recorded => ⟨serves, recorded⟩⟩
  | step _ _ next ih =>
    obtain ⟨c', g', grows, holds', lasts, serves'⟩ := ih (few_of_step next few)
    obtain ⟨c'', g'', grows', holds'', lasts', serves''⟩ := holds'.step uncompacted logged next few
    refine ⟨c'', g'', grows.trans grows', holds'', fun lasting => lasts' (lasts lasting), ?_⟩
    intro committed compatible serves recorded
    obtain ⟨serves, recorded⟩ := serves' committed (compatible.before grows') serves recorded
    exact serves'' committed compatible serves recorded

theorem holds_of_reachable (uncompacted : setup.Uncompacted) (logged : ∀ id, (setup.cfg id).readMode = .log)
    (initial : crew.Initial source) (nodes : Function.Injective fun i => (crew.clients i).node)
    (reached : Service.Reachable source setup crew S) (few : S.crew.Few) :
    ∃ c g, S.Holds setup c g ∧ S.Lasting ∧
      ∀ committed, Compatible setup g committed → S.Serves setup g committed ∧ Recorded setup g committed S := by
  have empty : (start setup crew).crew.history.ops = [] := by rw [start, initial.history]; rfl
  obtain ⟨c, g, -, holds, lasts, serves⟩ :=
    (Holds.start uncompacted initial nodes).run uncompacted logged reached few
  have lasting : (start setup crew).Lasting := by
    rw [Lasting, empty]
    exact List.forall_mem_nil _
  refine ⟨c, g, holds, lasts lasting, fun committed compatible => ?_⟩
  refine serves committed compatible (.start committed _) ?_
  rw [Recorded, empty]
  exact List.forall_mem_nil _

/-- In every run of the service, the history that the clients record is linearizable. -/
theorem service_linearizable (uncompacted : setup.Uncompacted) (logged : ∀ id, (setup.cfg id).readMode = .log)
    (initial : crew.Initial source) (nodes : Function.Injective fun i => (crew.clients i).node)
    (reached : Service.Reachable source setup crew S) (few : S.crew.Few) :
    ∃ order, S.crew.history.toHistory.Linearizes order := by
  obtain ⟨c, g, holds, -, serves⟩ := holds_of_reachable uncompacted logged initial nodes reached few
  obtain ⟨committed, compatible⟩ := exists_compatible holds.safety.sound
  exact holds.linearizes compatible (serves committed compatible).2 few

def scribes : Setup :=
  { trio with cfg := fun _ =>
      { readMode := .log, preVote := false, leaderStickiness := false, snapshotThreshold := 0 } }

def scribesCrew : Harness.System Unit Rng where
  clients _ := Harness.Client.new (Harness.rngSource 4) 7 9 [0] (Rng.new 1)
    { readWeight := 40, writeWeight := 40, casWeight := 15, deleteWeight := 5, keys := 6, thinkTime := (1, 20)
      requestTimeout := 500, retryBackoff := (10, 80), maxAttempts := 15 }
  ios _ := {}
  history := .new
  now := 0

def scribesWritten : List (ServiceEvent Unit) :=
  [ .server 0 (.timer 0 .election), .server 0 (.storage 0 1 true), .server 0 (.storage 0 2 true),
    .server 1 (.message 0 0 (.requestVote 1 0 0 0)), .server 1 (.storage 0 1 true), .server 1 (.storage 0 2 true),
    .server 0 (.message 0 1 (.requestVoteResp 1 true)), .server 0 (.storage 0 3 true), .server 0 (.storage 0 4 true),
    .client () 5 (.timer Harness.timerThink), .server 0 (.request 0 9 2 7 1 (.put "k4" "c7v1")),
    .server 0 (.storage 0 5 true), .server 0 (.storage 0 6 true),
    .server 1 (.message 0 0 (.appendEntries 1 0 0 0
      [{ term := 1, index := 1, cmd := .noop }, { term := 1, index := 2, cmd := ⟨7, 1, .put "k4" "c7v1"⟩ }] 0)),
    .server 1 (.storage 0 3 true), .server 1 (.storage 0 4 true),
    .server 0 (.message 0 1 (.appendEntriesResp 1 true 2 0)), .server 0 (.timer 0 .heartbeat) ]

def scribesRead : List (ServiceEvent Unit) :=
  [ .client () 8 (.bytes (Message.encode (.client (.reply 2 .written)))),
    .server 1 (.message 0 0 (.appendEntries 1 0 2 1 [] 2)), .client () 20 (.timer Harness.timerThink),
    .server 0 (.request 0 9 3 7 2 (.get "k4")), .server 0 (.storage 0 7 true), .server 0 (.storage 0 8 true),
    .server 1 (.message 0 0 (.appendEntries 1 0 2 1 [{ term := 1, index := 3, cmd := ⟨7, 2, .get "k4"⟩ }] 2)),
    .server 1 (.storage 0 5 true), .server 1 (.storage 0 6 true),
    .server 0 (.message 0 1 (.appendEntriesResp 1 true 3 0)),
    .client () 25 (.bytes (Message.encode (.client (.reply 3 (.value (some "c7v1")))))) ]

theorem scribes_played :
    (Execution.play (step (Harness.rngSource 4) scribes) (fun _ _ => True) (start scribes scribesCrew)
        (scribesWritten ++ scribesRead)).map
      (fun S => (S.crew.history.ops.map Operation.outcome, S.crew.now, (S.crew.clients ()).seq)) =
    some ([some .written, some (.value (some "c7v1"))], 25, 2) := by decide +kernel

theorem scribesCrew_initial : scribesCrew.Initial (Harness.rngSource 4) :=
  ⟨fun _ => ⟨7, 9, [0], Rng.new 1, _, rfl⟩, fun _ => rfl, rfl, fun _ _ _ => rfl⟩

theorem service_linearizable_scribes : ∃ S, Service.Reachable (Harness.rngSource 4) scribes scribesCrew S ∧
    S.crew.history.ops.map Operation.outcome = [some .written, some (.value (some "c7v1"))] ∧
    ∃ order, S.crew.history.toHistory.Linearizes order := by
  obtain ⟨S, played, known⟩ := Option.map_eq_some_iff.mp scribes_played
  simp only [Prod.mk.injEq] at known
  obtain ⟨outcomes, -, seq⟩ := known
  have reached : Service.Reachable (Harness.rngSource 4) scribes scribesCrew S := Execution.run_of_play played
  have few : S.crew.Few := fun i => by rw [seq]; decide
  refine ⟨S, reached, outcomes, ?_⟩
  exact service_linearizable (fun _ => rfl) (fun _ => rfl) scribesCrew_initial (fun _ _ _ => rfl) reached few

end Runs

end Service

end SimKv
