import SimKv.Platter

set_option autoImplicit false

/-!
# The two slots of the hard state

A write to one slot leaves the other alone, however it ends. What a slot would be read as does not depend on the
length of the file: behind its end there are the zeros it is extended with.
-/

namespace SimKv

def byteAt (bytes : Bytes) (k : Nat) : UInt8 := bytes[k]?.getD 0

def slotBytes (bytes : Bytes) (i : Nat) : Bytes :=
  (List.range slotSize).map fun k => byteAt bytes (i * slotSize + k)

def slotRead (bytes : Bytes) (i : Nat) : Option HardState := HardState.fromSlot (slotBytes bytes i)

def slotFound (bytes : Bytes) (i : Nat) : Option HardState :=
  if bytes.length < i * slotSize + slotSize then none else slotRead bytes i

theorem take_drop_slot {bytes : Bytes} {i : Nat} (reaches : i * slotSize + slotSize ≤ bytes.length) :
    (bytes.drop (i * slotSize)).take slotSize = slotBytes bytes i := by
  apply List.ext_getElem
  · rw [List.length_take, List.length_drop, slotBytes, List.length_map, List.length_range]
    omega
  · intro k inside _
    rw [List.length_take, List.length_drop] at inside
    have here : i * slotSize + k < bytes.length := by omega
    simp [slotBytes, byteAt, List.getElem?_eq_getElem here]

theorem preferSlot_eq (bytes : Bytes) (best : HardState) (i : Nat) :
    preferSlot bytes best i = match slotFound bytes i with
      | some hs => if best.seq ≤ hs.seq then hs else best
      | none => best := by
  simp only [preferSlot, slotFound]
  split
  · rfl
  · next reaches =>
    have read : HardState.fromSlot ((bytes.drop (i * slotSize)).take slotSize) = slotRead bytes i := by
      rw [take_drop_slot (not_lt.mp reaches), slotRead]
    cases found : slotRead bytes i with
    | none => simp only [read, found]
    | some hs => simp only [read, found]

theorem recoverHardState_eq (bytes : Bytes) :
    recoverHardState bytes = match slotFound bytes 0, slotFound bytes 1 with
      | some a, some b => if a.seq ≤ b.seq then b else a
      | some a, none => a
      | none, some b => b
      | none, none => {} := by
  rw [recoverHardState, preferSlot_eq, preferSlot_eq]
  cases slotFound bytes 0 with
  | none => cases slotFound bytes 1 <;> rfl
  | some a => cases slotFound bytes 1 <;> rfl

-- A slot with a newer state than the other one's decides.
theorem recoverHardState_newest {bytes : Bytes} {i j : Nat} {hs : HardState} (slots : i = 0 ∧ j = 1 ∨ i = 1 ∧ j = 0)
    (found : slotFound bytes i = some hs) (older : ∀ other ∈ slotFound bytes j, other.seq < hs.seq) :
    recoverHardState bytes = hs := by
  rw [recoverHardState_eq]
  rcases slots with ⟨rfl, rfl⟩ | ⟨rfl, rfl⟩
  · rw [found]
    cases other : slotFound bytes 1 with
    | none => rfl
    | some b => exact if_neg (not_le.mpr (older b other))
  · rw [found]
    cases other : slotFound bytes 0 with
    | none => rfl
    | some a => exact if_pos (older a other).le

theorem byteAt_resize {buf : Bytes} {len k : Nat} (inside : k < len) : byteAt (resize buf len) k = byteAt buf k := by
  rw [byteAt, byteAt, resize]
  rcases Nat.lt_or_ge k buf.length with here | beyond
  · rw [List.getElem?_append_left (by rw [List.length_take]; omega), List.getElem?_take_of_lt inside]
  · have size : (buf.take len).length = buf.length := by
      rw [List.length_take]
      omega
    rw [List.getElem?_append_right (by omega), size, List.getElem?_replicate, if_pos (by omega),
      List.getElem?_eq_none beyond]
    rfl

theorem WriteKind.byteAt_apply {buf : Bytes} {kind : WriteKind} {k : Nat} (misses : kind.Misses k) :
    byteAt (kind.apply buf) k = byteAt buf k := by
  cases kind with
  | setLen len => exact byteAt_resize misses
  | data offset bytes =>
    simp only [apply]
    generalize widened : (if buf.length < offset + bytes.length then resize buf (offset + bytes.length) else buf) = wide
    have reaches : offset + bytes.length ≤ wide.length := by
      subst widened
      split
      · rw [length_resize]
      · omega
    have still : byteAt wide k = byteAt buf k := by
      subst widened
      split
      · next short =>
        rcases misses with before | after
        · exact byteAt_resize (by omega)
        · rw [byteAt, byteAt, List.getElem?_eq_none (by rw [length_resize]; exact after),
            List.getElem?_eq_none (by omega)]
      · rfl
    have left : (wide.take offset).length = offset := by
      rw [List.length_take]
      omega
    rw [← still, byteAt, byteAt]
    rcases misses with before | after
    · rw [List.getElem?_append_left (by omega), List.getElem?_take_of_lt before]
    · rw [List.getElem?_append_right (by omega), List.getElem?_append_right (by omega), left, List.getElem?_drop,
        show offset + bytes.length + (k - offset - bytes.length) = k by omega]

-- However a write ends, it changes nothing but what it reaches.
theorem WriteKind.byteAt_resolve {buf : Bytes} {kind : WriteKind} {fate : Fate} {k : Nat} (misses : kind.Misses k) :
    byteAt (WriteKind.resolve buf (kind, fate)) k = byteAt buf k := by
  cases fate with
  | lost => rfl
  | whole => cases kind <;> exact byteAt_apply misses
  | torn keep =>
    cases kind with
    | setLen len => exact byteAt_apply misses
    | data offset bytes =>
      simp only [resolve]
      split
      · rfl
      · apply byteAt_apply
        rw [Misses, List.length_take]
        rw [Misses] at misses
        omega

theorem byteAt_crashImage {durable : Bytes} {fates : List (WriteKind × Fate)} {k : Nat}
    (misses : ∀ w ∈ fates, w.1.Misses k) : byteAt (crashImage durable fates) k = byteAt durable k := by
  induction fates generalizing durable with
  | nil => rfl
  | cons first rest ih =>
    rw [List.forall_mem_cons] at misses
    exact (ih misses.2).trans (WriteKind.byteAt_resolve misses.1)

def WriteKind.SparesSlot (i : Nat) (kind : WriteKind) : Prop := ∀ k < slotSize, kind.Misses (i * slotSize + k)

theorem slotRead_crashImage {durable : Bytes} {fates : List (WriteKind × Fate)} {i : Nat}
    (spared : ∀ w ∈ fates, w.1.SparesSlot i) : slotRead (crashImage durable fates) i = slotRead durable i := by
  have same : slotBytes (crashImage durable fates) i = slotBytes durable i := by
    apply List.map_congr_left
    intro k member
    exact byteAt_crashImage fun w here => spared w here k (List.mem_range.mp member)
  rw [slotRead, slotRead, same]

def WriteKind.Reaches (len : Nat) : WriteKind → Prop
  | .data .. => True
  | .setLen size => len ≤ size

theorem WriteKind.le_length_apply {buf : Bytes} {kind : WriteKind} {len : Nat} (reaches : kind.Reaches len)
    (long : len ≤ buf.length) : len ≤ (kind.apply buf).length := by
  cases kind with
  | setLen size =>
    rw [apply, length_resize]
    exact reaches
  | data offset bytes =>
    simp only [apply]
    generalize widened : (if buf.length < offset + bytes.length then resize buf (offset + bytes.length) else buf) = wide
    have reaches : offset + bytes.length ≤ wide.length ∧ len ≤ wide.length := by
      subst widened
      split
      · rw [length_resize]
        omega
      · omega
    rw [List.length_append, List.length_append, List.length_take, List.length_drop]
    omega

theorem WriteKind.le_length_resolve {buf : Bytes} {kind : WriteKind} {fate : Fate} {len : Nat}
    (reaches : kind.Reaches len) (long : len ≤ buf.length) : len ≤ (WriteKind.resolve buf (kind, fate)).length := by
  cases fate with
  | lost => exact long
  | whole => cases kind <;> exact le_length_apply reaches long
  | torn keep =>
    cases kind with
    | setLen size => exact le_length_apply reaches long
    | data offset bytes =>
      simp only [resolve]
      split
      · exact long
      · exact le_length_apply trivial long

theorem le_length_crashImage {durable : Bytes} {fates : List (WriteKind × Fate)} {len : Nat}
    (reaches : ∀ w ∈ fates, w.1.Reaches len) (long : len ≤ durable.length) :
    len ≤ (crashImage durable fates).length := by
  induction fates generalizing durable with
  | nil => exact long
  | cons first rest ih =>
    rw [List.forall_mem_cons] at reaches
    exact ih reaches.2 (WriteKind.le_length_resolve reaches.1 long)

-- A slot that is found stays found.
theorem slotFound_crashImage {durable : Bytes} {fates : List (WriteKind × Fate)} {i : Nat} {hs : HardState}
    (found : slotFound durable i = some hs) (spared : ∀ w ∈ fates, w.1.SparesSlot i)
    (reaches : ∀ w ∈ fates, w.1.Reaches (i * slotSize + slotSize)) :
    slotFound (crashImage durable fates) i = some hs := by
  rw [slotFound] at found ⊢
  split at found
  · cases found
  · next long =>
    rw [if_neg (not_lt.mpr (le_length_crashImage reaches (not_lt.mp long))), slotRead_crashImage spared]
    exact found

theorem slot_other (seq : Nat) : seq % 2 = 0 ∧ (seq + 1) % 2 = 1 ∨ seq % 2 = 1 ∧ (seq + 1) % 2 = 0 := by omega

theorem slotFound_le {bytes : Bytes} {i : Nat} {hs : HardState} (found : slotFound bytes i = some hs) :
    slotRead bytes i = some hs := by
  rw [slotFound] at found
  split at found
  · cases found
  · exact found

/-- Recovery finds `hs`: nothing has ever been written, or `hs` is in its slot and the other one holds nothing as
new. Of the first write there may be so much that it could be read if the file were longer. -/
inductive HardOnDisk (bytes : Bytes) : HardState → Prop where
  | fresh (zero : slotRead bytes 0 = none)
      (first : ∀ hs ∈ slotRead bytes 1, hs.seq = 1 ∧ bytes.length < stateFileSize) : HardOnDisk bytes {}
  | held (hs : HardState) (found : slotFound bytes (hs.seq % 2) = some hs)
      (older : ∀ other ∈ slotRead bytes ((hs.seq + 1) % 2), other.seq < hs.seq) : HardOnDisk bytes hs

theorem HardOnDisk.recover {bytes : Bytes} {hs : HardState} (held : HardOnDisk bytes hs) :
    recoverHardState bytes = hs := by
  cases held with
  | fresh zero first =>
    have none_ : slotFound bytes 0 = none ∧ slotFound bytes 1 = none := by
      constructor
      · rw [slotFound, zero, ite_self]
      · rw [slotFound]
        split
        · rfl
        · next long =>
          cases read : slotRead bytes 1 with
          | none => rfl
          | some hs => exact absurd (first hs read).2 long
    rw [recoverHardState_eq, none_.1, none_.2]
  | held hs found older =>
    exact recoverHardState_newest (slot_other hs.seq) found fun other here => older other (slotFound_le here)

def HardState.kind (hs : HardState) : WriteKind := .data (HardState.slotOffset hs.seq) hs.toSlot

theorem HardState.kind_spares (hs : HardState) : hs.kind.SparesSlot ((hs.seq + 1) % 2) := by
  intro k inside
  rw [kind, WriteKind.Misses, HardState.toSlot_length, HardState.slotOffset]
  rcases slot_other hs.seq with ⟨here, there⟩ | ⟨here, there⟩
  · rw [here, there]
    omega
  · rw [here, there]
    omega

-- Where a write lands, its bytes are read.
theorem byteAt_written (buf : Bytes) (offset : Nat) (bytes : Bytes) {k : Nat} (inside : k < bytes.length) :
    byteAt (WriteKind.apply buf (.data offset bytes)) (offset + k) = bytes[k] := by
  simp only [WriteKind.apply]
  generalize widened : (if buf.length < offset + bytes.length then resize buf (offset + bytes.length) else buf) = wide
  have reaches : offset + bytes.length ≤ wide.length := by
    subst widened
    split
    · rw [length_resize]
    · omega
  have left : (wide.take offset).length = offset := by
    rw [List.length_take]
    omega
  rw [byteAt, List.getElem?_append_right (by omega), left, Nat.add_sub_cancel_left, List.getElem?_append_left inside,
    List.getElem?_eq_getElem inside, Option.getD_some]

theorem WriteKind.length_apply_data (buf : Bytes) (offset : Nat) (bytes : Bytes) :
    (apply buf (.data offset bytes)).length = max buf.length (offset + bytes.length) := by
  simp only [apply]
  split
  · rw [List.length_append, List.length_append, List.length_take, List.length_drop, length_resize]
    omega
  · rw [List.length_append, List.length_append, List.length_take, List.length_drop]
    omega

namespace HardState

variable {hs next : HardState} {bytes : Bytes}

theorem slotRead_kind (storable : hs.Storable) (bytes : Bytes) :
    slotRead (hs.kind.apply bytes) (hs.seq % 2) = some hs := by
  have landed : slotBytes (hs.kind.apply bytes) (hs.seq % 2) = hs.toSlot := by
    apply List.ext_getElem
    · rw [slotBytes, List.length_map, List.length_range, toSlot_length]
    · intro k _ inside
      simp only [slotBytes, List.getElem_map, List.getElem_range]
      exact byteAt_written bytes _ hs.toSlot inside
  rw [slotRead, landed, fromSlot_toSlot storable]

-- All of a slot's bytes land, or a file that was too short still is.
theorem resolve_kind (hs : HardState) (bytes : Bytes) (fate : Fate) :
    WriteKind.resolve bytes (hs.kind, fate) = hs.kind.apply bytes ∨
      (bytes.length < stateFileSize → (WriteKind.resolve bytes (hs.kind, fate)).length < stateFileSize) := by
  cases fate with
  | lost => exact .inr id
  | whole => exact .inl rfl
  | torn keep =>
    simp only [kind, WriteKind.resolve]
    split
    · exact .inr id
    · rcases Nat.lt_or_ge keep slotSize with part | all
      · refine .inr fun short => ?_
        have place : slotOffset hs.seq ≤ slotSize := by
          have slot := Nat.mod_lt hs.seq two_pos
          exact (Nat.mul_le_mul_right slotSize (Nat.le_of_lt_succ slot)).trans_eq (Nat.one_mul _)
        rw [WriteKind.length_apply_data, List.length_take, toSlot_length, min_eq_left part.le]
        rw [stateFileSize] at short ⊢
        omega
      · rw [List.take_of_length_le (by rw [toSlot_length]; exact all)]
        exact .inl rfl

end HardState

theorem crashImage_singleton (bytes : Bytes) (w : WriteKind × Fate) : crashImage bytes [w] = WriteKind.resolve bytes w := rfl

-- With one slot as it was, the other decides whether the old state is found or the new one.
theorem HardOnDisk.either {bytes image : Bytes} {hs next : HardState} (held : HardOnDisk bytes hs)
    (follows : next.seq = hs.seq + 1) (same : slotRead image (hs.seq % 2) = slotRead bytes (hs.seq % 2))
    (still : ∀ found, slotFound bytes (hs.seq % 2) = some found → slotFound image (hs.seq % 2) = some found)
    (tears : slotRead image (next.seq % 2) = none ∨ slotRead image (next.seq % 2) = some next ∨
      slotRead image (next.seq % 2) = slotRead bytes (next.seq % 2))
    (short : slotRead image (next.seq % 2) = some next ∨
      (bytes.length < stateFileSize → image.length < stateFileSize)) :
    recoverHardState image = hs ∨ recoverHardState image = next := by
  rw [follows] at tears short
  cases held with
  | held hs found older =>
    have kept := still hs found
    cases landed : slotFound image ((hs.seq + 1) % 2) with
    | none =>
      refine .inl (recoverHardState_newest (slot_other hs.seq) kept ?_)
      rw [landed]
      exact nofun
    | some got =>
      rw [slotFound_le landed] at tears
      rcases tears with none_ | new | old
      · cases none_
      · cases new
        refine .inr (recoverHardState_newest (j := hs.seq % 2) (by omega) landed ?_)
        rw [kept]
        rintro other ⟨⟩
        omega
      · refine .inl (recoverHardState_newest (slot_other hs.seq) kept ?_)
        rw [landed]
        rintro other ⟨⟩
        exact older got old.symm
  | fresh zero first =>
    have none_ : slotFound image 0 = none := by
      rw [slotFound]
      split
      · rfl
      · exact same.trans zero
    rw [recoverHardState_eq, none_]
    cases landed : slotFound image 1 with
    | none => exact .inl rfl
    | some got =>
      have read : slotRead image 1 = some got := slotFound_le landed
      have new : slotRead image 1 = some next := by
        change slotRead image 1 = none ∨ slotRead image 1 = some next ∨ slotRead image 1 = slotRead bytes 1 at tears
        rcases tears with nothing | new | old
        · rw [read] at nothing
          cases nothing
        · exact new
        · -- what is left of an earlier first write is not found while the file is short
          refine short.resolve_right fun stays => ?_
          have left := stays (first got (old.symm.trans read)).2
          rw [slotFound, if_pos (by rw [stateFileSize] at left; omega)] at landed
          cases landed
      rw [read] at new
      cases new
      exact .inr rfl

theorem HardOnDisk.written {bytes : Bytes} {hs next : HardState} (held : HardOnDisk bytes hs)
    (follows : next.seq = hs.seq + 1) (storable : next.Storable) {fate : Fate}
    (tears : slotRead (WriteKind.resolve bytes (next.kind, fate)) (next.seq % 2) = none ∨
      slotRead (WriteKind.resolve bytes (next.kind, fate)) (next.seq % 2) = some next ∨
      slotRead (WriteKind.resolve bytes (next.kind, fate)) (next.seq % 2) = slotRead bytes (next.seq % 2)) :
    recoverHardState (WriteKind.resolve bytes (next.kind, fate)) = hs ∨
      recoverHardState (WriteKind.resolve bytes (next.kind, fate)) = next := by
  have spares : ∀ w ∈ [(next.kind, fate)], w.1.SparesSlot (hs.seq % 2) := by
    have other : (next.seq + 1) % 2 = hs.seq % 2 := by omega
    rw [List.forall_mem_singleton, ← other]
    exact next.kind_spares
  have short : slotRead (WriteKind.resolve bytes (next.kind, fate)) (next.seq % 2) = some next ∨
      (bytes.length < stateFileSize → (WriteKind.resolve bytes (next.kind, fate)).length < stateFileSize) := by
    refine (next.resolve_kind bytes fate).imp (fun whole => ?_) id
    rw [whole]
    exact HardState.slotRead_kind storable bytes
  rw [← crashImage_singleton] at tears short ⊢
  exact held.either follows (slotRead_crashImage spares)
    (fun found here => slotFound_crashImage here spares (List.forall_mem_singleton.mpr trivial)) tears short

-- A write within the two slots leaves the log region alone.
theorem WriteKind.drop_apply_data {buf : Bytes} {offset : Nat} {bytes : Bytes} {start : Nat}
    (below : offset + bytes.length ≤ start) : (apply buf (.data offset bytes)).drop start = buf.drop start := by
  simp only [apply]
  split
  · next short =>
    rw [List.drop_of_length_le, List.drop_of_length_le (by omega)]
    rw [List.length_append, List.length_append, List.length_take, List.length_drop, length_resize]
    omega
  · next long =>
    have front : (buf.take offset ++ bytes).length = offset + bytes.length := by
      rw [List.length_append, List.length_take]
      omega
    rw [← List.append_assoc, List.drop_append, List.drop_of_length_le (by omega), List.nil_append, front, List.drop_drop,
      Nat.add_sub_cancel' below]

theorem HardState.drop_resolve_kind (hs : HardState) (bytes : Bytes) (fate : Fate) :
    (WriteKind.resolve bytes (hs.kind, fate)).drop stateFileSize = bytes.drop stateFileSize := by
  have place : slotOffset hs.seq + slotSize ≤ stateFileSize := by
    have slot := Nat.mod_lt hs.seq two_pos
    have below := Nat.mul_le_mul_right slotSize (Nat.le_of_lt_succ slot)
    rw [slotOffset, stateFileSize]
    omega
  cases fate with
  | lost => rfl
  | whole => exact WriteKind.drop_apply_data (by rw [toSlot_length]; exact place)
  | torn keep =>
    simp only [kind, WriteKind.resolve]
    split
    · rfl
    · refine WriteKind.drop_apply_data ?_
      rw [List.length_take, toSlot_length]
      omega

-- Once the write has landed, recovery finds the new state.
theorem HardOnDisk.landed {bytes : Bytes} {hs next : HardState} (held : HardOnDisk bytes hs)
    (follows : next.seq = hs.seq + 1) (storable : next.Storable) :
    recoverHardState (next.kind.apply bytes) = next := by
  have read := HardState.slotRead_kind storable bytes
  have found : slotFound (next.kind.apply bytes) (next.seq % 2) = some next := by
    rw [slotFound, if_neg, read]
    rw [HardState.kind, WriteKind.length_apply_data, HardState.toSlot_length, HardState.slotOffset]
    omega
  have spares : next.kind.SparesSlot (hs.seq % 2) := by
    have other : (next.seq + 1) % 2 = hs.seq % 2 := by omega
    rw [← other]
    exact next.kind_spares
  refine recoverHardState_newest (j := hs.seq % 2) (by omega) found fun other here => ?_
  have spared : ∀ w ∈ [(next.kind, Fate.whole)], w.1.SparesSlot (hs.seq % 2) := List.forall_mem_singleton.mpr spares
  have still : slotRead (crashImage bytes [(next.kind, Fate.whole)]) (hs.seq % 2) = slotRead bytes (hs.seq % 2) :=
    slotRead_crashImage spared
  rw [show crashImage bytes [(next.kind, Fate.whole)] = next.kind.apply bytes from rfl] at still
  have old := (still.symm.trans (slotFound_le here))
  cases held with
  | fresh zero first =>
    rw [show ({} : HardState).seq % 2 = 0 from rfl, zero] at old
    cases old
  | held hs found =>
    rw [slotFound_le found] at old
    cases old
    omega

end SimKv
