import Mathlib.Data.Set.Insert

set_option autoImplicit false

/-!
# Windows on diverging sequences

Several parties each hold a window on a growing sequence of items, tagged position by position, that may differ
from party to party. A window starts from a value that stands for everything below it. If two windows agree on all
below a position wherever they agree on its tag, and every window starts from a value that another one has come to,
then the value at a position is a matter of the position and the tag alone.
-/

namespace SimKv.Lineage

structure Window (Item Tag Value : Type) where
  base : Nat
  last : Nat
  item : Nat → Item
  tag : Nat → Tag
  value : Nat → Value

variable {Item Tag Value : Type}

namespace Window

variable (w : Window Item Tag Value)

def Covers (i : Nat) : Prop := w.base ≤ i ∧ i ≤ w.last

def Holds (i : Nat) : Prop := w.base < i ∧ i ≤ w.last

def Folds (step : Value → Item → Value) : Prop :=
  ∀ i, w.Covers i → w.Holds (i + 1) → w.value (i + 1) = step (w.value i) (w.item (i + 1))

def Matches (w' : Window Item Tag Value) : Prop :=
  ∀ i, w.Covers i → w'.Covers i → w.tag i = w'.tag i → ∀ j ≤ i,
    (w.Covers j → w'.Covers j → w.tag j = w'.tag j) ∧ (w.Holds j → w'.Holds j → w.item j = w'.item j)

variable {w} in
theorem Holds.covers {i : Nat} (holds : w.Holds i) : w.Covers i := ⟨holds.1.le, holds.2⟩

variable {w} in
theorem Holds.covers_pred {i : Nat} (holds : w.Holds (i + 1)) : w.Covers i :=
  ⟨Nat.le_of_lt_succ holds.1, (Nat.le_succ i).trans holds.2⟩

end Window

variable (known : Set (Window Item Tag Value))

def Uniform : Prop :=
  ∀ w ∈ known, ∀ w' ∈ known, ∀ i, w.Covers i → w'.Covers i → w.tag i = w'.tag i → w.value i = w'.value i

def Held (i : Nat) (tag : Tag) : Prop := ∃ w ∈ known, w.Holds i ∧ w.tag i = tag

def Grounded : Prop := ∀ w ∈ known, w.base = 0 ∨ Held known w.base (w.tag w.base)

def Stepwise (relation : Value → Item → Prop) : Prop :=
  ∀ w ∈ known, ∀ i, w.Holds (i + 1) → relation (w.value i) (w.item (i + 1))

def Rooted (w : Window Item Tag Value) : Prop :=
  ∃ w' ∈ known, w'.Covers w.base ∧ w'.tag w.base = w.tag w.base ∧ w'.value w.base = w.value w.base

variable {known} {w : Window Item Tag Value} {step : Value → Item → Value}

theorem Grounded.insert (grounded : Grounded known) (rooted : Rooted known w) : Grounded (insert w known) := by
  have kept : ∀ {i tag}, Held known i tag → Held (Insert.insert w known) i tag := by
    rintro i tag ⟨w', member, held⟩
    exact ⟨w', Set.mem_insert_of_mem _ member, held⟩
  rintro v (rfl | member)
  · obtain ⟨w', member, covers, tag, -⟩ := rooted
    obtain here | above := Nat.eq_or_lt_of_le covers.1
    · have base := grounded w' member
      rw [here, tag] at base
      exact base.imp_right kept
    · exact .inr ⟨w', Set.mem_insert_of_mem _ member, ⟨above, covers.2⟩, tag⟩
  · exact (grounded v member).imp_right kept

-- A new window that is rooted in the known ones and matches them agrees with them on every value.
theorem Uniform.value_eq (uniform : Uniform known) (grounded : Grounded known) (folds : ∀ v ∈ known, v.Folds step)
    (rooted : Rooted known w) (folds' : w.Folds step) (match_ : ∀ v ∈ known, w.Matches v)
    {v : Window Item Tag Value} (member : v ∈ known) {i : Nat} (covers : w.Covers i) (covers' : v.Covers i)
    (tag : w.tag i = v.tag i) : w.value i = v.value i := by
  induction i generalizing v with
  | zero =>
    obtain ⟨root, known', covered, tag', value⟩ := rooted
    have base : w.base = 0 := Nat.le_zero.mp covers.1
    rw [base] at covered tag' value
    rw [← value]
    exact uniform root known' v member 0 covered covers' (tag'.trans tag)
  | succ i ih =>
    obtain base | above := Nat.eq_or_lt_of_le covers.1
    · obtain ⟨root, known', covered, tag', value⟩ := rooted
      rw [base] at covered tag' value
      rw [← value]
      exact uniform root known' v member _ covered covers' (tag'.trans tag)
    · have held : w.Holds (i + 1) := ⟨above, covers.2⟩
      -- the item is there in some known window, if not in this one
      obtain ⟨u, known', held', tag'⟩ : Held known (i + 1) (v.tag (i + 1)) := by
        obtain start | later := Nat.eq_or_lt_of_le covers'.1
        · have grounded := grounded v member
          rw [start] at grounded
          exact grounded.resolve_left (Nat.succ_ne_zero i)
        · exact ⟨v, member, ⟨later, covers'.2⟩, rfl⟩
      have agree := match_ u known' (i + 1) covers held'.covers (tag.trans tag'.symm)
      have before := ih known' held.covers_pred held'.covers_pred
        ((agree i (Nat.le_succ i)).1 held.covers_pred held'.covers_pred)
      rw [folds' i held.covers_pred held, before, (agree (i + 1) le_rfl).2 held held',
        ← folds u known' i held'.covers_pred held']
      exact uniform u known' v member _ held'.covers covers' tag'

theorem Uniform.insert (uniform : Uniform known) (grounded : Grounded known) (folds : ∀ v ∈ known, v.Folds step)
    (rooted : Rooted known w) (folds' : w.Folds step) (match_ : ∀ v ∈ known, w.Matches v) :
    Uniform (insert w known) := by
  rintro u (rfl | member) v (rfl | member') i covers covers' tag
  · rfl
  · exact uniform.value_eq grounded folds rooted folds' match_ member' covers covers' tag
  · exact (uniform.value_eq grounded folds rooted folds' match_ member covers' covers tag.symm).symm
  · exact uniform u member v member' i covers covers' tag

-- An item that is held already meets the value it has met before.
theorem Stepwise.insert {relation : Value → Item → Prop} (stepwise : Stepwise known relation) (uniform : Uniform known)
    (grounded : Grounded known) (folds : ∀ v ∈ known, v.Folds step) (rooted : Rooted known w) (folds' : w.Folds step)
    (match_ : ∀ v ∈ known, w.Matches v)
    (each : ∀ i, w.Holds (i + 1) → Held known (i + 1) (w.tag (i + 1)) ∨ relation (w.value i) (w.item (i + 1))) :
    Stepwise (insert w known) relation := by
  rintro v (rfl | member) i held
  · obtain ⟨u, known', held', tag⟩ | new := each i held
    · have agree := match_ u known' (i + 1) held.covers held'.covers tag.symm
      have before := uniform.value_eq grounded folds rooted folds' match_ known' held.covers_pred held'.covers_pred
        ((agree i (Nat.le_succ i)).1 held.covers_pred held'.covers_pred)
      rw [before, (agree (i + 1) le_rfl).2 held held']
      exact stepwise u known' i held'
    · exact new
  · exact stepwise v member i held

end SimKv.Lineage
