import Mathlib.Data.List.Nodup
import Mathlib.Data.List.Sort
import Mathlib.Order.Lattice
import Mathlib.Order.BoundedOrder.Basic

set_option autoImplicit false

/-!
# Linearizations

Operations take time: one is invoked, and may return. A linearization puts operations in an order
that keeps every return ahead of the invocations that came after it, and that a sequential object
explains. Orders of different objects can be merged into one as long as no operation returns at the
instant of its invocation.
-/

namespace Linearization

open scoped List

variable {O T S A : Type}

section RealTime

variable [LinearOrder T] (invoked : O → T) (returned : O → Option T)

def Precedes (a b : O) : Prop := ∃ t ∈ returned a, t ≤ invoked b

def Respects (order : List O) : Prop := order.Pairwise fun a b => ¬ Precedes invoked returned b a

end RealTime

section Sequential

variable (perform : S → O → A × S) (outcome : O → Option A)

def Explains : S → List O → Prop
  | _, [] => True
  | s, o :: rest => (∀ a ∈ outcome o, (perform s o).1 = a) ∧ Explains (perform s o).2 rest

end Sequential

structure IsLinearization [LinearOrder T] (invoked : O → T) (returned : O → Option T) (perform : S → O → A × S)
    (outcome : O → Option A) (start : S) (ops order : List O) : Prop where
  nodup : order.Nodup
  drawn : ∀ o ∈ order, o ∈ ops
  answered : ∀ o ∈ ops, (outcome o).isSome → o ∈ order
  realTime : ∀ a ∈ order, ∀ b ∈ order, a ≠ b → Precedes invoked returned a b → [a, b] <+ order
  explained : Explains perform outcome start order

theorem pair_or_pair {a b : O} {l : List O} (here : a ∈ l) (there : b ∈ l) (distinct : a ≠ b) :
    [a, b] <+ l ∨ [b, a] <+ l := by
  induction l with
  | nil => cases here
  | cons o rest ih =>
    obtain rfl | later := List.mem_cons.mp here
    · obtain rfl | after := List.mem_cons.mp there
      · exact absurd rfl distinct
      · exact .inl ((List.singleton_sublist.mpr after).cons_cons _)
    · obtain rfl | after := List.mem_cons.mp there
      · exact .inr ((List.singleton_sublist.mpr later).cons_cons _)
      · exact (ih later after).imp (·.cons _) (·.cons _)

theorem not_pair_of_pair {a b : O} {l : List O} (nodup : l.Nodup) (pair : [a, b] <+ l) : ¬ [b, a] <+ l := by
  induction l with
  | nil => cases pair
  | cons o rest ih =>
    obtain ⟨fresh, nodup⟩ := List.nodup_cons.mp nodup
    intro back
    cases pair with
    | cons _ pair =>
      cases back with
      | cons _ back => exact ih nodup pair back
      | cons_cons _ back => exact fresh (pair.subset (List.mem_cons_of_mem _ List.mem_cons_self))
    | cons_cons _ pair =>
      cases back with
      | cons _ back => exact fresh (back.subset (List.mem_cons_of_mem _ List.mem_cons_self))
      | cons_cons _ back => exact fresh (List.singleton_sublist.mp pair)

section RealTime

variable [LinearOrder T] {invoked : O → T} {returned : O → Option T} {order : List O}

theorem Respects.pair (respects : Respects invoked returned order) {a b : O} (here : a ∈ order) (there : b ∈ order)
    (distinct : a ≠ b) (precedes : Precedes invoked returned a b) : [a, b] <+ order := by
  obtain pair | back := pair_or_pair here there distinct
  · exact pair
  · have refuted := (List.pairwise_pair.mp (respects.sublist back))
    exact absurd precedes refuted

theorem respects_of_pair (nodup : order.Nodup)
    (realTime : ∀ a ∈ order, ∀ b ∈ order, a ≠ b → Precedes invoked returned a b → [a, b] <+ order) :
    Respects invoked returned order := by
  rw [Respects, List.pairwise_iff_forall_sublist]
  intro a b pair precedes
  have here : a ∈ order := pair.subset List.mem_cons_self
  have there : b ∈ order := pair.subset (List.mem_cons_of_mem _ List.mem_cons_self)
  have distinct : b ≠ a := by
    rintro rfl
    exact absurd (pair.nodup nodup) (by simp)
  exact not_pair_of_pair nodup pair (realTime b there a here distinct precedes)

section Sequential

variable {perform : S → O → A × S} {outcome : O → Option A} {start : S} {ops : List O}

theorem isLinearization_of_perm (perm : order.Perm ops) (nodup : ops.Nodup)
    (respects : Respects invoked returned order) (explained : Explains perform outcome start order) :
    IsLinearization invoked returned perform outcome start ops order where
  nodup := perm.nodup_iff.mpr nodup
  drawn _ here := perm.subset here
  answered _ here _ := perm.symm.subset here
  realTime _ here _ there distinct precedes := respects.pair here there distinct precedes
  explained

-- Operations in the order of their places.
theorem isLinearization_map {P : Type} [Preorder P] {places : List P} {pick : P → O} (sorted : places.Pairwise (· < ·))
    (distinct : ∀ k ∈ places, ∀ k' ∈ places, pick k = pick k' → k = k') (drawn : ∀ k ∈ places, pick k ∈ ops)
    (answered : ∀ o ∈ ops, (outcome o).isSome → ∃ k ∈ places, pick k = o)
    (inOrder : ∀ k ∈ places, ∀ k' ∈ places, Precedes invoked returned (pick k) (pick k') → k < k')
    (explained : Explains perform outcome start (places.map pick)) :
    IsLinearization invoked returned perform outcome start ops (places.map pick) where
  nodup := List.Nodup.map_on distinct (sorted.imp ne_of_lt)
  drawn := List.forall_mem_map.mpr drawn
  answered o here answer := List.mem_map.mpr (answered o here answer)
  realTime a here b there apart precedes := by
    have respects : Respects invoked returned (places.map pick) := by
      refine List.pairwise_map.mpr (sorted.imp_of_mem fun {k k'} inside inside' before back => ?_)
      exact lt_asymm before (inOrder k' inside' k inside back)
    exact respects.pair here there apart precedes
  explained

variable (perform) in
def after (s : S) (ops : List O) : S := ops.foldl (fun s o => (perform s o).2) s

omit [LinearOrder T] in
theorem after_append (front back : List O) : after perform start (front ++ back) =
    after perform (after perform start front) back := List.foldl_append

omit [LinearOrder T] in
theorem explains_append (front back : List O) :
    Explains perform outcome start (front ++ back) ↔
      Explains perform outcome start front ∧ Explains perform outcome (after perform start front) back := by
  induction front generalizing start with
  | nil => exact ⟨fun explained => ⟨trivial, explained⟩, And.right⟩
  | cons o rest ih =>
    rw [List.cons_append, Explains, Explains, ih, and_assoc]
    rfl

omit [LinearOrder T] in
theorem Explains.append {front back : List O} (explained : Explains perform outcome start front)
    (silent : ∀ o ∈ back, outcome o = none) : Explains perform outcome start (front ++ back) := by
  induction front generalizing start with
  | nil =>
    induction back generalizing start with
    | nil => trivial
    | cons o rest ih =>
      obtain ⟨here, later⟩ := List.forall_mem_cons.mp silent
      refine ⟨fun a answer => ?_, ih later trivial⟩
      rw [here] at answer
      cases answer
  | cons o rest ih => exact ⟨explained.1, ih explained.2⟩

-- An operation that was never answered can go last.
theorem IsLinearization.all (linear : IsLinearization invoked returned perform outcome start ops order)
    (nodup : ops.Nodup) (silent : ∀ o ∈ ops, outcome o = none → returned o = none) :
    ∃ full : List O, full.Perm ops ∧ Respects invoked returned full ∧ Explains perform outcome start full := by
  classical
  let missing := ops.filter fun o => o ∉ order
  have pending : ∀ o ∈ missing, outcome o = none ∧ returned o = none := by
    intro o here
    obtain ⟨member, absent⟩ := List.mem_filter.mp here
    have none : outcome o = none := by
      by_contra answer
      exact of_decide_eq_true absent (linear.answered o member (Option.isSome_iff_ne_none.mpr answer))
    exact ⟨none, silent o member none⟩
  have free : ∀ a, ∀ b ∈ missing, ¬ Precedes invoked returned b a := by
    rintro a b here ⟨t, returns, -⟩
    rw [(pending b here).2] at returns
    cases returns
  refine ⟨order ++ missing, ?_, ?_, linear.explained.append fun o here => (pending o here).1⟩
  · have apart : (order ++ missing).Nodup := by
      refine List.nodup_append.mpr ⟨linear.nodup, nodup.filter _, ?_⟩
      rintro a here b there rfl
      exact of_decide_eq_true (List.mem_filter.mp there).2 here
    refine (List.perm_ext_iff_of_nodup apart nodup).mpr fun o => ?_
    simp only [List.mem_append, missing, List.mem_filter, decide_eq_true_eq]
    exact ⟨fun either => either.elim (linear.drawn o) And.left, fun here => or_iff_not_imp_left.mpr fun absent => ⟨here, absent⟩⟩
  · refine List.pairwise_append.mpr ⟨respects_of_pair linear.nodup linear.realTime, ?_, fun a _ b there => free a b there⟩
    exact List.pairwise_of_forall_mem_list fun a _ b there => free a b there

end Sequential

variable (invoked returned) in
structure Successive (ops : List O) : Prop where
  lasting : ∀ o ∈ ops, ∃ r ∈ returned o, invoked o < r
  ascend : ops.Pairwise (Precedes invoked returned)

namespace Successive

variable {ops : List O}

-- It is enough that each operation has returned when the next one is invoked.
theorem of_chain (lasting : ∀ o ∈ ops, ∃ r ∈ returned o, invoked o < r)
    (chain : ops.IsChain fun a b => ∀ r ∈ returned a, r ≤ invoked b) : Successive invoked returned ops := by
  induction ops with
  | nil => exact ⟨lasting, .nil⟩
  | cons o rest ih =>
    obtain ⟨⟨t, returns, -⟩, later⟩ := List.forall_mem_cons.mp lasting
    cases rest with
    | nil => exact ⟨lasting, List.pairwise_singleton _ _⟩
    | cons next rest =>
      obtain ⟨first, chain⟩ := List.isChain_cons_cons.mp chain
      have tail := ih later chain
      refine ⟨lasting, .cons (fun p here => ?_) tail.ascend⟩
      refine ⟨t, returns, ?_⟩
      obtain rfl | behind := List.mem_cons.mp here
      · exact first t returns
      · -- the one in between takes time
        obtain ⟨r, lasts, longer⟩ := later next List.mem_cons_self
        obtain ⟨r', returns', soon⟩ := (List.pairwise_cons.mp tail.ascend).1 p behind
        obtain rfl := Option.mem_unique lasts returns'
        exact (first t returns).trans (longer.le.trans soon)

theorem sublist (successive : Successive invoked returned ops) {part : List O} (sub : part <+ ops) :
    Successive invoked returned part :=
  ⟨fun o here => successive.lasting o (sub.subset here), successive.ascend.sublist sub⟩

-- Only the times matter.
theorem map_iff {P : Type} (f : P → O) (ops : List P) :
    Successive invoked returned (ops.map f) ↔ Successive (invoked ∘ f) (returned ∘ f) ops := by
  have pairs : (ops.map f).Pairwise (Precedes invoked returned) ↔
      ops.Pairwise (Precedes (invoked ∘ f) (returned ∘ f)) := List.pairwise_map
  constructor
  · rintro ⟨lasting, ascend⟩
    exact ⟨fun o here => lasting (f o) (List.mem_map_of_mem here), pairs.mp ascend⟩
  · rintro ⟨lasting, ascend⟩
    exact ⟨List.forall_mem_map.mpr lasting, pairs.mpr ascend⟩

theorem congr_times {others : List O}
    (times : others.map (fun o => (invoked o, returned o)) = ops.map fun o => (invoked o, returned o))
    (successive : Successive invoked returned ops) : Successive invoked returned others := by
  have of_times : ∀ l : List O, Successive Prod.fst Prod.snd (l.map fun o => (invoked o, returned o)) ↔
      Successive invoked returned l := map_iff _
  exact (of_times others).mp (times ▸ (of_times ops).mpr successive)

theorem not_precedes {a b : O} (lastingA : ∃ r ∈ returned a, invoked a < r) (lastingB : ∃ r ∈ returned b, invoked b < r)
    (precedes : Precedes invoked returned a b) : ¬ Precedes invoked returned b a := by
  rintro ⟨t, returns, early⟩
  obtain ⟨s, returns', soon⟩ := precedes
  obtain ⟨r, lasts, longer⟩ := lastingA
  obtain ⟨r', lasts', longer'⟩ := lastingB
  obtain rfl := Option.mem_unique returns lasts'
  obtain rfl := Option.mem_unique returns' lasts
  exact absurd (early.trans_lt (longer.trans_le soon)) (not_lt_of_gt longer')

theorem respects (successive : Successive invoked returned ops) : Respects invoked returned ops :=
  successive.ascend.imp_of_mem fun {a b} here there =>
    not_precedes (successive.lasting a here) (successive.lasting b there)

theorem nodup (successive : Successive invoked returned ops) : ops.Nodup :=
  successive.ascend.imp_of_mem fun {a b} here there precedes same => by
    subst same
    exact not_precedes (successive.lasting a here) (successive.lasting a there) precedes precedes

-- Operations one after another have no other order that keeps real time.
theorem eq_of_respects (successive : Successive invoked returned ops) (perm : order.Perm ops)
    (respects : Respects invoked returned order) : order = ops := by
  refine List.Perm.eq_of_pairwise (fun a b here there apart apart' => ?_) respects successive.respects perm
  by_contra distinct
  obtain pair | pair := pair_or_pair (perm.subset here) there distinct
  · exact apart' (List.pairwise_pair.mp (successive.ascend.sublist pair))
  · exact apart (List.pairwise_pair.mp (successive.ascend.sublist pair))

end Successive

variable [OrderBot T]

def instants (invoked : O → T) : T → List O → List (T × O)
  | _, [] => []
  | t, o :: rest => (max t (invoked o), o) :: instants invoked (max t (invoked o)) rest

omit [OrderBot T] in
theorem map_snd_instants (t : T) : (instants invoked t order).map Prod.snd = order := by
  induction order generalizing t with
  | nil => rfl
  | cons o rest ih => rw [instants, List.map_cons, ih]

omit [OrderBot T] in
theorem le_instants {t : T} : ∀ point ∈ instants invoked t order, t ≤ point.1 ∧ invoked point.2 ≤ point.1 := by
  induction order generalizing t with
  | nil => nofun
  | cons o rest ih =>
    rintro point (_ | ⟨_, member⟩)
    · exact ⟨le_max_left _ _, le_max_right _ _⟩
    · exact ⟨(le_max_left _ _).trans (ih point member).1, (ih point member).2⟩

omit [OrderBot T] in
theorem instants_ascend {t : T} : (instants invoked t order).Pairwise fun a b => a.1 ≤ b.1 := by
  induction order generalizing t with
  | nil => exact .nil
  | cons o rest ih => exact .cons (fun point member => (le_instants point member).1) ih

-- `t` is the latest invocation of what stands in front.
omit [OrderBot T] in
theorem instants_lt {t : T} (respects : Respects invoked returned order)
    (lasting : ∀ o ∈ order, ∀ r ∈ returned o, invoked o < r) (late : ∀ o ∈ order, ∀ r ∈ returned o, t < r) :
    ∀ point ∈ instants invoked t order, ∀ r ∈ returned point.2, point.1 < r := by
  induction order generalizing t with
  | nil => nofun
  | cons o rest ih =>
    obtain ⟨behind, respects⟩ := List.pairwise_cons.mp respects
    rintro point (_ | ⟨_, member⟩) r returns
    · exact max_lt (late o List.mem_cons_self r returns) (lasting o List.mem_cons_self r returns)
    · refine ih respects (fun p here => lasting p (List.mem_cons_of_mem _ here)) ?_ point member r returns
      intro p here r returns
      refine max_lt (late p (List.mem_cons_of_mem _ here) r returns) ?_
      exact lt_of_not_ge fun early => behind p here ⟨r, returns, early⟩

-- Orders that keep real time each on their own are parts of one order that does.
theorem merge (orders : List (List O)) (respects : ∀ l ∈ orders, Respects invoked returned l)
    (lasting : ∀ l ∈ orders, ∀ o ∈ l, ∀ r ∈ returned o, invoked o < r) :
    ∃ order : List O, order.Perm orders.flatten ∧ Respects invoked returned order ∧ ∀ l ∈ orders, l <+ order := by
  let le : T × O → T × O → Bool := fun a b => a.1 ≤ b.1
  have trans : ∀ a b c, le a b → le b c → le a c := by
    intro a b c ab bc
    simp only [le, decide_eq_true_eq] at *
    exact ab.trans bc
  have total : ∀ a b, le a b || le b a := by
    intro a b
    simpa [le] using le_total a.1 b.1
  let pool := orders.flatMap (instants invoked ⊥)
  have inside : ∀ point ∈ pool, invoked point.2 ≤ point.1 ∧ ∀ r ∈ returned point.2, point.1 < r := by
    intro point member
    obtain ⟨l, here, member⟩ := List.mem_flatMap.mp member
    refine ⟨(le_instants point member).2, instants_lt (respects l here) (lasting l here) ?_ point member⟩
    exact fun o within r returns => bot_le.trans_lt (lasting l here o within r returns)
  refine ⟨(pool.mergeSort le).map Prod.snd, ?_, ?_, ?_⟩
  · have names : pool.map Prod.snd = orders.flatten := by
      simp only [pool, List.map_flatMap, map_snd_instants, List.flatMap_id']
    exact names ▸ (List.mergeSort_perm pool le).map Prod.snd
  · refine List.pairwise_map.mpr ?_
    refine List.Pairwise.imp_of_mem ?_ (List.pairwise_mergeSort trans total pool)
    rintro a b here there ascend ⟨r, returns, early⟩
    -- the instant of `b` comes before its return, that of `a` not before its invocation
    have := (inside b (List.mem_mergeSort.mp there)).2 r returns
    have := (inside a (List.mem_mergeSort.mp here)).1
    have : a.1 ≤ b.1 := by simpa [le] using ascend
    exact absurd (lt_of_lt_of_le ‹b.1 < r› (early.trans ‹invoked a.2 ≤ a.1›)) (not_lt_of_ge this)
  · intro l here
    have part : instants invoked ⊥ l <+ pool := by
      obtain ⟨front, back, rfl⟩ := List.append_of_mem here
      simp only [pool, List.flatMap_append, List.flatMap_cons]
      exact (List.sublist_append_left ..).trans (List.sublist_append_right ..)
    have ascends : (instants invoked ⊥ l).Pairwise fun a b => le a b := by
      refine instants_ascend.imp ?_
      simp [le]
    have kept := (List.sublist_mergeSort trans total ascends part).map Prod.snd
    rwa [map_snd_instants] at kept

end RealTime

end Linearization
