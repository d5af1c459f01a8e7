import SimKv.Checker.Verdict
import SimKv.Kv.Sessions

set_option autoImplicit false

/-!
# The checker's registers and the store's map

Client commands that run one after another leave a history behind that has one order only. What the state
machine answered explains that order on its map, and so on every register of the checker; any other answer
does not.
-/

namespace SimKv

open Std Linearization AtMostOnce

namespace StateMachine

def outcomes (sm : StateMachine) : List Command → List Outcome
  | [] => []
  | cmd :: rest => (sm.apply cmd).1 :: (sm.apply cmd).2.outcomes rest

end StateMachine

namespace Operation

theorem after_onMap {map : ExtTreeMap String String} {order : List Operation} (keyed : ∀ o ∈ order, o.key.isSome)
    (key : String) :
    (after onMap map order)[key]? = after onRegister map[key]? (order.filter fun o => o.key = some key) := by
  induction order generalizing map with
  | nil => rfl
  | cons o rest ih =>
    obtain ⟨name, named⟩ := Option.isSome_iff_exists.mp (keyed o List.mem_cons_self)
    obtain ⟨-, here, elsewhere⟩ := onMap_register map named
    have tail := @ih (o.onMap map).2 fun p later => keyed p (List.mem_cons_of_mem _ later)
    by_cases same : key = name
    · subst same
      rw [here] at tail
      rw [List.filter_cons_of_pos (by simp [named])]
      exact tail
    · rw [List.filter_cons_of_neg (by simpa [named] using Ne.symm same)]
      exact elsewhere key same ▸ tail

-- What a map explains, its registers explain key by key.
theorem explains_onRegister {map : ExtTreeMap String String} {order : List Operation}
    (keyed : ∀ o ∈ order, o.key.isSome) (explained : Explains onMap outcome map order) (key : String) :
    Explains onRegister outcome map[key]? (order.filter fun o => o.key = some key) := by
  induction order generalizing map with
  | nil => trivial
  | cons o rest ih =>
    obtain ⟨name, named⟩ := Option.isSome_iff_exists.mp (keyed o List.mem_cons_self)
    obtain ⟨answer, here, elsewhere⟩ := onMap_register map named
    have tail := ih (fun p later => keyed p (List.mem_cons_of_mem _ later)) explained.2
    by_cases same : key = name
    · subst same
      rw [List.filter_cons_of_pos (by simp [named])]
      exact ⟨answer ▸ explained.1, here ▸ tail⟩
    · rw [List.filter_cons_of_neg (by simpa [named] using Ne.symm same)]
      exact elsewhere key same ▸ tail

end Operation

theorem Command.fromClient_of_key {cmd : Command} (named : cmd.op.key.isSome) : cmd.FromClient := by
  rw [FromClient, members]
  cases op : cmd.op with
  | noop | setMembers members => simp [Op.key, op] at named
  | get _ | put _ _ | delete _ | cas _ _ _ => simp

def Increasing (cmds : List Command) : Prop := cmds.Pairwise fun a b => a.client = b.client → a.seq < b.seq

instance (cmds : List Command) : Decidable (Increasing cmds) := inferInstanceAs (Decidable (cmds.Pairwise _))

/-- The history of commands that a client runs one after another on a fresh state machine: each is there with
the answer the machine gave, takes time, and starts when the one before it has returned. -/
structure History.Records (h : History) (cmds : List Command) : Prop where
  issued : h.ops.map (fun o => (o.client, o.op)) = cmds.map fun cmd => (cmd.client, cmd.op)
  answers : h.ops.map Operation.outcome = (({} : StateMachine).outcomes cmds).map some
  lasting : ∀ o ∈ h.ops, ∃ t ∈ o.completed, o.invoked < t
  apart : h.ops.IsChain fun a b => ∀ t ∈ a.completed, t ≤ b.invoked

namespace StateMachine

-- While numbers go up, the machine answers as the map does.
theorem explains_outcomes {before cmds : List Command} {ops : List Operation}
    (keyed : ∀ cmd ∈ before ++ cmds, cmd.op.key.isSome) (increasing : Increasing (before ++ cmds))
    (issued : ops.map Operation.op = cmds.map Command.op)
    (answers : ops.map Operation.outcome = ((({} : StateMachine).applyAll before).outcomes cmds).map some) :
    Explains Operation.onMap Operation.outcome (({} : StateMachine).applyAll before).state ops := by
  induction cmds generalizing before ops with
  | nil =>
    rw [List.map_eq_nil_iff.mp issued]
    trivial
  | cons cmd rest ih =>
    obtain ⟨o, later, rfl, op, issued⟩ := List.map_eq_cons_iff.mp issued
    obtain ⟨answer, answers⟩ := List.cons.inj answers
    have fromClient := Command.fromClient_of_key (keyed cmd (List.mem_append_right _ List.mem_cons_self))
    have fresh : Fresh Command.client Command.seq (clientCommands before) cmd := fun e here =>
      (List.pairwise_append.mp increasing).2.2 e (List.mem_of_mem_filter here) cmd List.mem_cons_self
    obtain ⟨same, moved⟩ := apply_of_fresh fromClient fresh
    have next : (({} : StateMachine).applyAll (before ++ [cmd])) = ((({} : StateMachine).applyAll before).apply cmd).2 :=
      applyAll_append _ _ _
    rw [List.append_cons] at keyed increasing
    have tail := @ih (before ++ [cmd]) later keyed increasing issued (next ▸ answers)
    refine ⟨fun a recorded => ?_, ?_⟩
    · rw [Operation.onMap, op, ← same]
      exact Option.some.inj (answer.symm.trans recorded)
    · rw [Operation.onMap, op, ← moved, ← next]
      exact tail

end StateMachine

namespace History.Records

open Checker

variable {h : History} {cmds : List Command}

theorem ops_eq (records : h.Records cmds) : h.ops.map Operation.op = cmds.map Command.op := by
  have issued := congrArg (List.map Prod.snd) records.issued
  rwa [List.map_map, List.map_map] at issued

theorem keyed (records : h.Records cmds) (ofClients : ∀ cmd ∈ cmds, cmd.op.key.isSome) :
    ∀ o ∈ h.ops, o.key.isSome := by
  intro o here
  have listed : o.op ∈ cmds.map Command.op := records.ops_eq ▸ List.mem_map_of_mem here
  obtain ⟨cmd, member, same⟩ := List.mem_map.mp listed
  rw [Operation.key, ← same]
  exact ofClients cmd member

theorem successive (records : h.Records cmds) : Successive Operation.start Operation.finish h.ops := by
  refine .of_chain (fun o here => ?_) (records.apart.imp fun a b early r returns => ?_)
  · obtain ⟨t, returns, longer⟩ := records.lasting o here
    exact ⟨t.toNat, Option.mem_map_of_mem _ returns, UInt64.lt_iff_toNat_lt.mp longer⟩
  · obtain ⟨t, completed, rfl⟩ := Option.map_eq_some_iff.mp returns
    exact UInt64.le_iff_toNat_le.mp (early t completed)

-- The map of the store explains the history in the order of the commands.
theorem explained (records : h.Records cmds) (ofClients : ∀ cmd ∈ cmds, cmd.op.key.isSome)
    (increasing : Increasing cmds) : Explains Operation.onMap Operation.outcome ∅ h.ops :=
  @StateMachine.explains_outcomes [] cmds h.ops ofClients increasing records.ops_eq records.answers

end History.Records

namespace Checker

variable {h : History}

-- The search of a key succeeds exactly if the operations on it, as they came, fit a register.
theorem explored_iff_explains (successive : Successive Operation.start Operation.finish h.ops) (key : String) :
    Explored (h.on key) ↔ Explains Operation.onRegister Operation.outcome none (h.on key) := by
  have own : Successive Operation.start Operation.finish (h.on key) := successive.sublist List.filter_sublist
  constructor
  · intro explored
    obtain ⟨order, perm, respects, explained, -⟩ := order_of_explored explored (History.on_keyed key)
    exact own.eq_of_respects perm respects ▸ explained
  · intro explained
    refine explored_of_order (.refl _) own.nodup own.respects explained (fun o here early => ?_) (History.on_keyed key)
    obtain ⟨r, returns, longer⟩ := own.lasting o here
    obtain ⟨t, completed, rfl⟩ := Option.map_eq_some_iff.mp returns
    rw [returnTime, completed] at early
    exact absurd longer (Nat.not_lt.mpr (UInt64.le_iff_toNat_le.mp early))

theorem checkAll_unknown {debug : String → String} {c : Checker} {groups : List (String × List Operation)}
    {key reason : String} (verdict : (checkAll debug groups c).1 = .unknown key reason) :
    ∃ group ∈ groups, c.budget < enough group.2 := by
  induction groups generalizing c with
  | nil => cases verdict
  | cons group rest ih =>
    obtain ⟨first, ops⟩ := group
    have means := @checkPartition_means ops debug c first
    have same := @checkPartition_budget ops debug c first
    rw [checkAll] at verdict
    split at verdict
    · next found =>
      rw [found] at same
      obtain ⟨group, here, spent⟩ := ih verdict
      exact ⟨group, List.mem_cons_of_mem _ here, same ▸ spent⟩
    · rw [verdict] at means
      exact ⟨(first, ops), List.mem_cons_self, means⟩

def OutOfBudget (c : Checker) (h : History) (verdict : Verdict) : Prop :=
  (∃ key reason, verdict = .unknown key reason) ∧ ∃ key, c.budget < enough (h.on key)

-- What the verdict on a history tells about its keys.
theorem check_cases (debug : String → String) (c : Checker) (h : History) :
    ((check debug c h).1 = .linearizable ∧ ∀ key, h.on key ≠ [] → Explored (h.on key)) ∨
      (∃ key detail, (check debug c h).1 = .violation key detail ∧ ¬ Explored (h.on key)) ∨
      OutOfBudget c h (check debug c h).1 := by
  cases verdict : (check debug c h).1 with
  | linearizable =>
    refine .inl ⟨rfl, fun key filled => ?_⟩
    exact checkAll_linearizable verdict _ (mem_byKey.mpr ⟨rfl, filled⟩)
  | violation key detail =>
    obtain ⟨before, ops, after, split, -, stuck⟩ := checkAll_violation verdict
    have listed : (key, ops) ∈ (byKey h.ops).toList := split ▸ List.mem_append_right _ List.mem_cons_self
    obtain ⟨rfl, -⟩ := mem_byKey.mp listed
    exact .inr (.inl ⟨key, detail, rfl, stuck⟩)
  | unknown key reason =>
    obtain ⟨⟨key', ops⟩, listed, spent⟩ := checkAll_unknown verdict
    obtain ⟨rfl, -⟩ := mem_byKey.mp listed
    exact .inr (.inr ⟨⟨key, reason, rfl⟩, key', spent⟩)

-- An answer other than the recorded one does not fit the place of its operation.
theorem not_explains_altered {front back : List Operation} {o : Operation} {key : String} {truth other : Outcome}
    (keyed : ∀ p ∈ front, p.key.isSome) (named : o.key = some key) (recorded : o.outcome = some truth)
    (explained : Explains Operation.onMap Operation.outcome ∅ (front ++ o :: back)) (wrong : truth ≠ other) :
    ¬ Explains Operation.onRegister Operation.outcome none
      ((History.mk (front ++ { o with outcome := some other } :: back)).on key) := by
  have held : (after Operation.onMap ∅ front)[key]? =
      after Operation.onRegister none (front.filter fun p => p.key = some key) := Operation.after_onMap keyed key
  have named' : ({ o with outcome := some other } : Operation).key = some key := named
  rw [History.on, List.filter_append, List.filter_cons_of_pos (by simp [named']), explains_append, ← held]
  rintro ⟨-, fits, -⟩
  obtain ⟨-, fits', -⟩ := (explains_append _ _).mp explained
  refine wrong ?_
  calc truth = (o.onMap (after Operation.onMap ∅ front)).1 := (fits' truth recorded).symm
    _ = (o.onRegister (after Operation.onMap ∅ front)[key]?).1 := (Operation.onMap_register _ named).1
    _ = other := fits other rfl

/-- On what clients ran one after another, with their numbers going up, the checker and the store agree: the
history is linearizable, and a single wrong answer in it is a violation on the key of its command. -/
theorem check_records (debug : String → String) (c : Checker) {h : History} {cmds : List Command}
    (ofClients : ∀ cmd ∈ cmds, cmd.op.key.isSome) (increasing : Increasing cmds) (records : h.Records cmds) :
    ((check debug c h).1 = .linearizable ∨ OutOfBudget c h (check debug c h).1) ∧
      ∀ front o back key other, h.ops = front ++ o :: back → o.key = some key → o.outcome ≠ some other →
        let altered : History := ⟨front ++ { o with outcome := some other } :: back⟩
        (∃ detail, (check debug c altered).1 = .violation key detail) ∨
          OutOfBudget c altered (check debug c altered).1 := by
  have keyed := records.keyed ofClients
  have explained := records.explained ofClients increasing
  have each := Operation.explains_onRegister keyed explained
  constructor
  · obtain ⟨fine, -⟩ | ⟨key, detail, -, stuck⟩ | out := check_cases debug c h
    · exact .inl fine
    · exact absurd ((explored_iff_explains records.successive key).mpr (each key)) stuck
    · exact .inr out
  · intro front o back key other split named wrong altered
    have member : o ∈ h.ops := split ▸ List.mem_append_right _ List.mem_cons_self
    have successive : Successive Operation.start Operation.finish altered.ops := by
      refine records.successive.congr_times ?_
      rw [split, List.map_append, List.map_append]
      rfl
    have elsewhere : ∀ name ≠ key, altered.on name = h.on name := by
      intro name apart
      have own : ¬ o.key = some name := by simpa [named] using Ne.symm apart
      have own' : ¬ ({ o with outcome := some other } : Operation).key = some name := own
      rw [History.on, History.on, split, List.filter_append, List.filter_append,
        List.filter_cons_of_neg (by simpa using own'), List.filter_cons_of_neg (by simpa using own)]
    obtain ⟨truth, recorded⟩ : ∃ truth, o.outcome = some truth := by
      have answer : o.outcome ∈ h.ops.map Operation.outcome := List.mem_map_of_mem member
      rw [records.answers] at answer
      obtain ⟨truth, -, same⟩ := List.mem_map.mp answer
      exact ⟨truth, same.symm⟩
    have stuck : ¬ Explored (altered.on key) := by
      rw [explored_iff_explains successive]
      refine not_explains_altered (fun p here => keyed p ?_) named recorded (split ▸ explained) ?_
      · exact split ▸ List.mem_append_left _ here
      · exact fun same => wrong (same ▸ recorded)
    obtain ⟨-, all⟩ | ⟨name, detail, verdict, stuck'⟩ | out := check_cases debug c altered
    · have filled : altered.on key ≠ [] :=
        List.ne_nil_of_mem (History.mem_on.mpr ⟨List.mem_append_right _ List.mem_cons_self, named⟩)
      exact absurd (all key filled) stuck
    · by_cases same : name = key
      · exact .inl ⟨detail, same ▸ verdict⟩
      · rw [elsewhere name same, explored_iff_explains records.successive] at stuck'
        exact absurd (each name) stuck'
    · exact .inr out

def writeThenRead : History where
  ops := [
    { id := 1, client := 0, op := .put "k" "a", invoked := 0, completed := some 10, outcome := some .written },
    { id := 2, client := 1, op := .get "k", invoked := 20, completed := some 30, outcome := some (.value (some "a")) }]

theorem check_records_writeThenRead :
    ((check quoted {} writeThenRead).1 = .linearizable ∨
      OutOfBudget {} writeThenRead (check quoted {} writeThenRead).1) ∧
    ((∃ detail, (check quoted {} staleRead).1 = .violation "k" detail) ∨
      OutOfBudget {} staleRead (check quoted {} staleRead).1) := by
  have records : writeThenRead.Records
      [{ client := 0, seq := 1, op := .put "k" "a" }, { client := 1, seq := 1, op := .get "k" }] := by
    refine ⟨rfl, by decide +kernel, ?_, .cons_cons ?_ (.singleton _)⟩
    · refine List.forall_mem_cons.mpr ⟨⟨10, rfl, by decide⟩, List.forall_mem_singleton.mpr ⟨30, rfl, by decide⟩⟩
    · intro t returns
      cases returns
      decide
  obtain ⟨fine, wrong⟩ := check_records quoted {} (by decide) (by decide) records
  exact ⟨fine, wrong (writeThenRead.ops.take 1) (writeThenRead.ops.get ⟨1, by decide⟩) [] "k" (.value none) rfl rfl
    (by decide)⟩

end Checker

end SimKv
