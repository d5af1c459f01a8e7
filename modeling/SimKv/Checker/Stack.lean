import SimKv.Checker.Search

set_option autoImplicit false

/-!
# The stack of the checker

What the search of one key holds is settled by its stack of choices: the bitset marks the operations
on it, the list threads all the others, and the register is the one the model has after them.
-/

namespace SimKv.Checker

open Links Backtrack Relation

variable (ops : List Operation)

def Search.Round (s s' : Search) : Prop := s.entry ≠ sentinel ops ∧ s.turn ops = some s'

def Search.Later : Search → Search → Prop := ReflTransGen (Search.Round ops)

def Search.Reached (s : Search) : Prop := Search.Later ops (.init ops) s

def Search.Pushes (s s' : Search) : Prop := s.Round ops s' ∧ s'.calls = (s.entry, s.state) :: s.calls

def Search.Pops (s s' : Search) : Prop := s.Round ops s' ∧ ∃ top, s.calls = top :: s'.calls

/-- The loop has a verdict: every operation is linearized, or there is nothing left to undo. -/
def Search.Ended (s : Search) : Prop := s.entry = sentinel ops ∨ s.turn ops = none

def Search.stacked (s : Search) : List Nat := s.calls.reverse.map fun call => (s.nodes.node call.1).op

def replay (state : Reg) (linearized : List Nat) : Option Reg :=
  linearized.foldlM (fun state i =>
    let (ok, next) := step state ops[i]!
    if ok then some next else none) state

structure Search.Exact (s : Search) : Prop where
  linked : s.nodes.loop.Around (sentinel ops) (live ops s.linearized)
  labels : s.nodes.labels = (threaded ops).labels
  entry : s.entry = sentinel ops ∨ s.entry ∈ live ops s.linearized
  distinct : s.stacked.Nodup
  linearized : ∀ i, s.linearized.test i = true ↔ i ∈ s.stacked
  state : replay ops .absent s.stacked = some s.state

variable {ops} {s s' : Search}

theorem Search.turn_cases (turned : s.turn ops = some s') :
    s' = { s with entry := (s.nodes.node s.entry).next } ∨
    (∃ next, step s.state ops[(s.nodes.node s.entry).op]! = (true, next) ∧ s' = s.lift ops next) ∨
    ∃ call prior calls, s.calls = (call, prior) :: calls ∧ s' = s.undo call prior calls := by
  rw [Search.turn] at turned
  by_cases call : (s.nodes.node s.entry).isCall = true
  · simp only [call, if_true] at turned
    split at turned
    · next fits =>
      refine .inr (.inl ⟨_, ?_, (Option.some.inj turned).symm⟩)
      exact Prod.ext fits.1 rfl
    · exact .inl (Option.some.inj turned).symm
  · simp only [call] at turned
    cases stack : s.calls with
    | nil =>
      rw [stack] at turned
      cases turned
    | cons top calls =>
      rw [stack] at turned
      exact .inr (.inr ⟨top.1, top.2, calls, rfl, (Option.some.inj turned).symm⟩)

theorem Levels.unique {nodes nodes' : Nodes} {c c' : Config} {calls : List (Nat × Reg)}
    {below below' : List (Frame Config)} (left : Levels ops nodes c calls below)
    (right : Levels ops nodes' c' calls below') : nodes = nodes' ∧ c.1 = c'.1 := by
  induction left generalizing nodes' c' below' with
  | root =>
    cases right
    exact ⟨rfl, rfl⟩
  | lift lower split passed ih =>
    obtain ⟨nodes', bits, front, back, below', rfl, sameBits, -, lower', -, -⟩ := right.lifted
    obtain ⟨rfl, rfl⟩ := ih lower'
    exact ⟨rfl, sameBits.symm⟩

inductive Stands (ops : List Operation) : Reg → List (Nat × Reg) → Prop where
  | root : Stands ops .absent []
  | lift {prior next : Reg} {calls : List (Nat × Reg)} {p : Nat} (lower : Stands ops prior calls)
      (fits : step prior ops[opAt ops p]! = (true, next)) : Stands ops next ((p, prior) :: calls)

theorem Stands.lifted {state prior : Reg} {p : Nat} {calls : List (Nat × Reg)}
    (stands : Stands ops state ((p, prior) :: calls)) : Stands ops prior calls := by
  cases stands with
  | lift lower fits => exact lower

theorem Stands.replay {state : Reg} {calls : List (Nat × Reg)} (stands : Stands ops state calls) :
    replay ops .absent (calls.reverse.map fun call => opAt ops call.1) = some state := by
  induction stands with
  | root => rfl
  | lift lower fits ih =>
    rw [Checker.replay] at ih ⊢
    rw [List.reverse_cons, List.map_append, List.foldlM_append, ih]
    simp only [List.map_cons, List.map_nil, List.foldlM_cons, List.foldlM_nil, Option.bind_eq_bind,
      Option.bind_some, fits, if_true, Option.pure_def]

theorem Levels.lifted_lt {nodes : Nodes} {c : Config} {calls : List (Nat × Reg)} {below : List (Frame Config)}
    (levels : Levels ops nodes c calls below) : ∀ call ∈ calls, call.1 < sentinel ops := by
  induction levels with
  | root => exact List.forall_mem_nil _
  | lift lower split passed ih =>
    refine List.forall_mem_cons.mpr ⟨?_, ih⟩
    exact live_lt _ _ (split ▸ List.mem_append_right _ List.mem_cons_self)

-- The bitset is what is on the stack, and nothing is on it twice.
theorem Levels.marked {nodes : Nodes} {c : Config} {calls : List (Nat × Reg)} {below : List (Frame Config)}
    (levels : Levels ops nodes c calls below) :
    (calls.map fun call => opAt ops call.1).Nodup ∧
      ∀ i, c.1.test i = true ↔ i ∈ calls.map fun call => opAt ops call.1 := by
  induction levels with
  | root =>
    refine ⟨List.nodup_nil, fun i => ?_⟩
    rw [Words.test, List.getD_eq_getElem?_getD, List.getElem?_replicate]
    split <;> simp
  | @lift nodes c calls below p front back next lower split passed ih =>
    obtain ⟨distinct, marked⟩ := ih
    obtain ⟨short, absent⟩ := mem_live.mp (split ▸ List.mem_append_right _ List.mem_cons_self)
    constructor
    · refine List.nodup_cons.mpr ⟨fun member => ?_, distinct⟩
      have present := (marked _).mpr member
      rw [absent] at present
      cases present
    · intro i
      rw [Words.test_mark (lower.level.wide.within (opAt_lt short)), List.map_cons, List.mem_cons, ← marked i]
      rw [Bool.or_eq_true, decide_eq_true_iff]
      tauto

theorem Search.Round.follows {a : State Config} {front back : List Nat} {below : List (Frame Config)}
    (follows : Follows ops s a front back below) (round : s.Round ops s') :
    ∃ a' front' back' below', Follows ops s' a' front' back' below' := by
  obtain ⟨inside, turned⟩ := round
  obtain ⟨next, moved, a', -, front', back', below', follows'⟩ | ⟨stuck, -⟩ := follows.turn inside
  · rw [turned] at moved
    cases moved
    exact ⟨a', front', back', below', follows'⟩
  · rw [turned] at stuck
    cases stuck

theorem Search.Round.stands {a : State Config} {front back : List Nat} {below : List (Frame Config)}
    (follows : Follows ops s a front back below) (stands : Stands ops s.state s.calls) (round : s.Round ops s') :
    Stands ops s'.state s'.calls := by
  obtain ⟨inside, turned⟩ := round
  obtain ⟨rest, rfl⟩ := follows.back_cons inside
  obtain ⟨-, opEq, -⟩ := follows.levels.level.label follows.entry_lt
  obtain rfl | ⟨next, fits, rfl⟩ | ⟨call, prior, calls, stack, rfl⟩ := Search.turn_cases turned
  · exact stands
  · exact .lift stands (opEq ▸ fits)
  · exact (stack ▸ stands).lifted

-- The search stands somewhere at every level it has reached.
theorem Search.Reached.follows (reached : s.Reached ops) :
    (∃ a front back below, Follows ops s a front back below) ∧ Stands ops s.state s.calls := by
  induction reached with
  | refl => exact ⟨⟨_, _, _, _, follows_init⟩, .root⟩
  | tail before round ih =>
    obtain ⟨⟨a, front, back, below, follows⟩, stands⟩ := ih
    exact ⟨round.follows follows, round.stands follows stands⟩

theorem Search.stacked_eq {a : State Config} {front back : List Nat} {below : List (Frame Config)}
    (follows : Follows ops s a front back below) : s.stacked = s.calls.reverse.map fun call => opAt ops call.1 := by
  refine List.map_congr_left fun call member => ?_
  have short := follows.levels.lifted_lt call (List.mem_reverse.mp member)
  exact (follows.levels.level.label short).2.1

theorem Search.Reached.exact (reached : s.Reached ops) : s.Exact ops := by
  obtain ⟨⟨a, front, back, below, follows⟩, stands⟩ := reached.follows
  have level := follows.levels.level
  obtain ⟨distinct, marked⟩ := follows.levels.marked
  have stacked := Search.stacked_eq follows
  exact {
    linked := level.around
    labels := level.labels
    entry := by
      by_cases inside : s.entry = sentinel ops
      · exact .inl inside
      · obtain ⟨rest, rfl⟩ := follows.back_cons inside
        exact .inr (follows.split ▸ List.mem_append_right _ List.mem_cons_self)
    distinct := by
      rw [stacked, List.map_reverse]
      exact List.nodup_reverse.mpr distinct
    linearized := by
      intro i
      rw [stacked, List.map_reverse, List.mem_reverse]
      exact marked i
    state := by
      rw [stacked]
      exact stands.replay }

-- Searches with the same stack hold the same list, the same bitset and the same register.
theorem Search.Reached.unique (left : s.Reached ops) (right : s'.Reached ops) (same : s.calls = s'.calls) :
    s.nodes = s'.nodes ∧ s.linearized = s'.linearized ∧ s.state = s'.state := by
  obtain ⟨⟨_, _, _, _, follows⟩, -⟩ := left.follows
  obtain ⟨⟨_, _, _, _, follows'⟩, -⟩ := right.follows
  obtain ⟨nodes, bits⟩ := follows.levels.unique (same ▸ follows'.levels)
  have stacked : s.stacked = s'.stacked := by rw [Search.stacked, Search.stacked, same, nodes]
  have state := left.exact.state
  rw [stacked, right.exact.state] at state
  exact ⟨nodes, bits, (Option.some.inj state).symm⟩

theorem search_ended (debug : String → String) (key : String) (budget left : Nat) (s : Search) :
    (∃ last, Search.Later ops s last ∧ last.Ended ops) ∨
      ∃ reason, (search ops debug key budget left s).1 = .unknown key reason := by
  induction left generalizing s with
  | zero =>
    rw [search]
    split
    · next outside => exact .inl ⟨s, .refl, .inl outside⟩
    · exact .inr ⟨_, rfl⟩
  | succ left ih =>
    rw [search]
    split
    · next outside => exact .inl ⟨s, .refl, .inl outside⟩
    · next inside =>
      cases turned : s.turn ops with
      | none => exact .inl ⟨s, .refl, .inr turned⟩
      | some s' =>
        obtain ⟨last, later, ended⟩ | unknown := ih s'
        · exact .inl ⟨last, .head ⟨inside, turned⟩ later, ended⟩
        · exact .inr unknown

theorem checkPartition_decides (debug : String → String) (c : Checker) (key : String)
    (plenty : enough ops ≤ c.budget) :
    (checkPartition ops debug c key).1 = .linearizable ∨
      ∃ detail, (checkPartition ops debug c key).1 = .violation key detail := by
  have means : Means ops key c.budget _ _ := checkPartition_means debug c key
  revert means
  cases (checkPartition ops debug c key).1 with
  | linearizable => exact fun _ => .inl rfl
  | violation found detail =>
    intro means
    exact .inr ⟨detail, by rw [means.1]⟩
  | unknown found reason =>
    intro means
    exact absurd plenty (Nat.not_le.mpr means)

theorem Search.Pops.restores {pushed late popped : Search} (reached : s.Reached ops) (pushes : s.Pushes ops pushed)
    (later : pushed.Later ops late) (top : late.calls = pushed.calls) (pops : late.Pops ops popped) :
    popped.nodes = s.nodes ∧ popped.linearized = s.linearized ∧ popped.state = s.state ∧ popped.calls = s.calls := by
  obtain ⟨pushRound, pushed⟩ := pushes
  obtain ⟨popRound, choice, stack⟩ := pops
  have same : popped.calls = s.calls := by
    rw [top, pushed] at stack
    exact (List.cons.inj stack).2.symm
  have poppedReached : popped.Reached ops := ((reached.tail pushRound).trans later).tail popRound
  obtain ⟨nodes, bits, state⟩ := poppedReached.unique reached same
  exact ⟨nodes, bits, state, same⟩

theorem search_terminates_exact (ops : List Operation) :
    (∃ last, Search.Reached ops last ∧ last.Ended ops) ∧
    (∃ plenty, ∀ (debug : String → String) (c : Checker) (key : String), plenty ≤ c.budget →
      (checkPartition ops debug c key).1 = .linearizable ∨
        ∃ detail, (checkPartition ops debug c key).1 = .violation key detail) ∧
    (∀ s, Search.Reached ops s → s.Exact ops) ∧
    ∀ s pushed late popped : Search, s.Reached ops → s.Pushes ops pushed → pushed.Later ops late →
      late.calls = pushed.calls → late.Pops ops popped →
        popped.nodes = s.nodes ∧ popped.linearized = s.linearized ∧ popped.state = s.state ∧
          popped.calls = s.calls := by
  refine ⟨?_, ⟨enough ops, fun debug c key => checkPartition_decides debug c key⟩, fun s reached => reached.exact,
    fun s pushed late popped reached pushes later top pops => pops.restores reached pushes later top⟩
  -- a search that is given enough rounds does not run out of them
  obtain ended | ⟨reason, exhausted⟩ := search_ended id "" (enough ops) (enough ops) (Search.init ops)
  · exact ended
  · have means : Means ops "" (enough ops) (start (choices ops) (root ops)) (.unknown "" reason) :=
      exhausted ▸ search_means (enough ops) follows_init inv_start
    exact absurd means (Nat.lt_irrefl _)

end SimKv.Checker
