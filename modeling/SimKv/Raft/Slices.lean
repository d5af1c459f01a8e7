import SimKv.Raft.Commit

set_option autoImplicit false

/-!
# Slices of a leader's log

What an append message brings goes on where the log is cut for it, and what lies at or below the commit index is not
touched.
-/

namespace SimKv

namespace RaftLog

variable {log log' : RaftLog} {c : Nat}

theorem Contiguous.termAt_above (contiguous : log.Contiguous) {i : Nat} (above : log.snapshotIndex < i) :
    log.termAt i = log.entries[i - log.firstIndex]?.map Entry.term := by
  rw [termAt, if_neg (by rw [noIndex]; omega), if_neg (by omega), contiguous.get_eq above]

theorem Contiguous.entries_truncateFrom (contiguous : log.Contiguous) {at_ : Nat} (above : log.snapshotIndex < at_) :
    (log.truncateFrom at_).entries = log.entries.take (at_ - log.firstIndex) := by
  have size := contiguous.lastIndex_eq
  have first : max at_ log.firstIndex = at_ := max_eq_left above
  rw [RaftLog.truncateFrom, first]
  by_cases inside : at_ ≤ log.lastIndex
  · rw [if_pos inside]
  · rw [if_neg inside, List.take_of_length_le]
    rw [firstIndex]
    omega

theorem Contiguous.lastIndex_truncateFrom (contiguous : log.Contiguous) {at_ : Nat} (above : log.snapshotIndex < at_) :
    (log.truncateFrom at_).lastIndex = min log.lastIndex (at_ - 1) := by
  have size := contiguous.lastIndex_eq
  rw [(contiguous.truncateFrom at_).lastIndex_eq, snapshotIndex_truncateFrom, contiguous.entries_truncateFrom above,
    List.length_take, firstIndex]
  omega

theorem lastTerm_mem (log : RaftLog) : log.lastTerm ∈ log.terms :=
  List.mem_of_getElem? (terms_getLast log.snapshotTerm log.entries)

theorem mem_terms_append {e : Entry} {t : Nat} (member : t ∈ (log.append e).terms) : t ∈ log.terms ∨ t = e.term := by
  simp only [terms, append, List.map_append, List.map_singleton, ← List.cons_append] at member
  rcases List.mem_append.mp member with old | new
  · exact .inl old
  · exact .inr (List.mem_singleton.mp new)

theorem mem_terms_truncateFrom {at_ t : Nat} (member : t ∈ (log.truncateFrom at_).terms) : t ∈ log.terms := by
  simp only [truncateFrom] at member
  split at member
  · rcases List.mem_cons.mp member with base | kept
    · exact base ▸ List.mem_cons_self
    · exact List.mem_cons_of_mem _ (List.map_subset _ (List.take_subset _ _) kept)
  · exact member

theorem mem_terms_compactTo {index term t : Nat} (member : t ∈ (log.compactTo index term).terms) :
    t ∈ log.terms ∨ t = term ∧ log.snapshotIndex < index ∧ index ≤ log.lastIndex := by
  simp only [compactTo] at member
  split at member
  · exact .inl member
  · next inside =>
    rcases List.mem_cons.mp member with base | kept
    · exact .inr ⟨base, by omega, by omega⟩
    · exact .inl (List.mem_cons_of_mem _ (List.map_subset _ (List.drop_subset _ _) kept))

theorem mem_terms_of_termAt {i t : Nat} (above : log.snapshotIndex < i) (contiguous : log.Contiguous)
    (known : log.termAt i = some t) : t ∈ log.terms := by
  rw [contiguous.termAt_above above] at known
  obtain ⟨e, found, same⟩ := Option.map_eq_some_iff.mp known
  exact List.mem_cons_of_mem _ (List.mem_map.mpr ⟨e, List.mem_of_getElem? found, same⟩)

theorem Contiguous.inside_of_termAt (contiguous : log.Contiguous) {i t : Nat} (positive : i ≠ noIndex)
    (known : log.termAt i = some t) : i ≤ log.lastIndex := by
  have size := contiguous.lastIndex_eq
  rw [contiguous.termAt_eq positive] at known
  split at known
  · cases known
  · have inside := (List.getElem?_eq_some_iff.mp known).1
    rw [length_terms] at inside
    omega

structure KeepsTo (c : Nat) (log log' : RaftLog) : Prop where
  base : log.snapshotIndex ≤ log'.snapshotIndex
  same : ∀ i ≤ c, log'.snapshotIndex < i → log'.termAt i = log.termAt i

theorem KeepsTo.refl (log : RaftLog) : KeepsTo c log log := ⟨le_rfl, fun _ _ _ => rfl⟩

theorem Contiguous.keepsTo_append (contiguous : log.Contiguous) (inside : c ≤ log.lastIndex) {e : Entry}
    (sound : log.AppendOk e) : KeepsTo c log (log.append e) where
  base := le_rfl
  same := by
    intro i low above
    have size := contiguous.lastIndex_eq
    have old : log.snapshotIndex < i := above
    rw [(contiguous.append sound.1).termAt_above above, contiguous.termAt_above old]
    change (log.entries ++ [e])[i - log.firstIndex]?.map Entry.term = _
    rw [List.getElem?_append_left]
    rw [firstIndex]
    omega

theorem Contiguous.keepsTo_truncateFrom (contiguous : log.Contiguous) {at_ : Nat} (beyond : c < at_) :
    KeepsTo c log (log.truncateFrom at_) where
  base := (log.snapshotIndex_truncateFrom at_).ge
  same := by
    intro i low above
    rw [snapshotIndex_truncateFrom] at above
    rw [(contiguous.truncateFrom at_).termAt_above (by rwa [snapshotIndex_truncateFrom]), contiguous.termAt_above above,
      contiguous.entries_truncateFrom (by omega), firstIndex, firstIndex, snapshotIndex_truncateFrom,
      List.getElem?_take, if_pos (by omega)]

theorem Contiguous.keepsTo_compactTo (contiguous : log.Contiguous) (index term : Nat) :
    KeepsTo c log (log.compactTo index term) where
  base := log.snapshotIndex_le_compactTo index term
  same := by
    intro i _ above
    have compacted := contiguous.compactTo index term
    have lower := log.snapshotIndex_le_compactTo index term
    rw [compacted.termAt_above above, contiguous.termAt_above (lower.trans_lt above), firstIndex, firstIndex]
    by_cases stays : index ≤ log.snapshotIndex ∨ log.lastIndex < index
    · rw [RaftLog.compactTo, if_pos stays]
    · rw [RaftLog.compactTo, if_neg stays] at above ⊢
      rw [List.getElem?_drop]
      congr 2
      dsimp only at above ⊢
      omega

theorem Contiguous.keepsTo_adopt (contiguous : log.Contiguous) {index term : Nat} (base : log.snapshotIndex ≤ c)
    (wanted : log.termAt index = some term ∨ c ≤ index) : KeepsTo c log (log.adopt index term) := by
  rw [RaftLog.adopt]
  split
  · exact contiguous.keepsTo_compactTo index term
  · next unknown =>
    have beyond := wanted.resolve_left unknown
    refine ⟨base.trans beyond, fun i low above => ?_⟩
    exact absurd (low.trans beyond) (not_le.mpr above)

theorem Contiguous.le_lastIndex_adopt (contiguous : log.Contiguous) {index term : Nat} (positive : index ≠ noIndex)
    (inside : c ≤ log.lastIndex) (wanted : log.termAt index = some term ∨ c ≤ index) :
    max c index ≤ (log.adopt index term).lastIndex := by
  rw [RaftLog.adopt]
  split
  · next known =>
    rw [contiguous.lastIndex_compactTo]
    exact max_le inside (contiguous.inside_of_termAt positive known)
  · next unknown => exact max_le (wanted.resolve_left unknown) le_rfl

theorem mem_terms_adopt {index term t : Nat} (member : t ∈ (log.adopt index term).terms) : t ∈ log.terms ∨ t = term := by
  rw [adopt] at member
  split at member
  · rcases mem_terms_compactTo member with old | new
    · exact .inl old
    · exact .inr new.1
  · exact .inr (List.mem_singleton.mp member)

theorem Contiguous.termAt_truncateFrom (contiguous : log.Contiguous) {at_ i : Nat} (above : log.snapshotIndex < at_)
    (below : i < at_) : (log.truncateFrom at_).termAt i = log.termAt i := by
  by_cases zero : i = noIndex
  · rw [termAt, termAt, if_pos zero, if_pos zero]
  · rw [(contiguous.truncateFrom at_).termAt_eq zero, contiguous.termAt_eq zero, snapshotIndex_truncateFrom]
    split
    · rfl
    · rw [terms, terms, contiguous.entries_truncateFrom above, List.map_take, ← List.take_succ_cons, List.getElem?_take,
        if_pos (by rw [firstIndex]; omega), snapshotTerm_truncateFrom]

theorem Contiguous.termAt_isSome (contiguous : log.Contiguous) {i : Nat} (above : log.snapshotIndex < i)
    (inside : i ≤ log.lastIndex) : ∃ t, log.termAt i = some t := by
  obtain ⟨e, _, _, found⟩ := contiguous.exists_get above inside
  refine ⟨e.term, ?_⟩
  rw [termAt, if_neg (by rw [noIndex]; omega), if_neg (by omega), found, Option.map_some]

def Rooted (log : RaftLog) : Prop := log.snapshotIndex = noIndex → log.snapshotTerm = 0

instance (log : RaftLog) : Decidable log.Rooted := inferInstanceAs (Decidable (_ → _))

theorem Rooted.compactTo (rooted : log.Rooted) (index term : Nat) : (log.compactTo index term).Rooted := by
  intro zero
  by_cases stays : index ≤ log.snapshotIndex ∨ log.lastIndex < index
  · rw [RaftLog.compactTo, if_pos stays] at zero ⊢
    exact rooted zero
  · rw [RaftLog.compactTo, if_neg stays, noIndex] at zero
    dsimp only at zero
    omega

theorem Rooted.adopt (rooted : log.Rooted) {index : Nat} (positive : index ≠ noIndex) (term : Nat) :
    (log.adopt index term).Rooted := by
  rw [RaftLog.adopt]
  split
  · exact rooted.compactTo index term
  · exact fun zero => absurd zero positive

theorem Contiguous.termAt_lastIndex (contiguous : log.Contiguous) (rooted : log.Rooted) :
    log.termAt log.lastIndex = some log.lastTerm := by
  have size := contiguous.lastIndex_eq
  by_cases zero : log.lastIndex = noIndex
  · have empty : log.entries = [] := List.length_eq_zero_iff.mp (by rw [noIndex] at zero; omega)
    rw [termAt, if_pos zero, lastTerm, empty, rooted (by rw [noIndex] at *; omega)]
    rfl
  · rw [contiguous.termAt_eq zero, if_neg (by omega), size, Nat.add_sub_cancel_left, terms, terms_getLast, lastTerm]

end RaftLog

/-- The entries follow `prevIndex`, in terms that never decrease from `prevTerm` on and reach at most the leader's. -/
structure Sliced (term prevIndex prevTerm : Nat) (entries : List Entry) : Prop where
  numbered : entries.map Entry.index = List.range' (prevIndex + 1) entries.length
  ordered : (prevTerm :: entries.map Entry.term).Pairwise (· ≤ ·)
  bounded : ∀ e ∈ entries, e.term ≤ term

instance (term prevIndex prevTerm : Nat) (entries : List Entry) : Decidable (Sliced term prevIndex prevTerm entries) :=
  decidable_of_iff (entries.map Entry.index = List.range' (prevIndex + 1) entries.length ∧
      (prevTerm :: entries.map Entry.term).Pairwise (· ≤ ·) ∧ ∀ e ∈ entries, e.term ≤ term)
    ⟨fun all => ⟨all.1, all.2.1, all.2.2⟩, fun sliced => ⟨sliced.numbered, sliced.ordered, sliced.bounded⟩⟩

def Raft.Undisputed (r : Raft) (entries : List Entry) : Prop :=
  ∀ e ∈ entries, e.index ≤ r.commitIndex → ∀ t ∈ r.log.termAt e.index, t = e.term

instance (r : Raft) (entries : List Entry) : Decidable (r.Undisputed entries) :=
  inferInstanceAs (Decidable (∀ e ∈ entries, _ → ∀ t ∈ r.log.termAt e.index, t = e.term))

section Slices

variable {log : RaftLog} {r : Raft} {term p t i : Nat} {es : List Entry} {conflict : Bool}

theorem Sliced.index (sliced : Sliced term p t es) {k : Nat} {e : Entry} (found : es[k]? = some e) :
    e.index = p + 1 + k := by
  have listed : (es.map Entry.index)[k]? = some e.index := by rw [List.getElem?_map, found, Option.map_some]
  rw [sliced.numbered] at listed
  obtain ⟨inside, same⟩ := List.getElem?_eq_some_iff.mp listed
  rw [List.getElem_range'] at same
  omega

theorem Sliced.drop (sliced : Sliced term p t es) {k : Nat} {e : Entry} (found : es[k]? = some e) :
    Sliced term (p + (k + 1)) e.term (es.drop (k + 1)) where
  numbered := by
    rw [List.map_drop, sliced.numbered, List.drop_range', List.length_drop]
    congr 1
    omega
  ordered := by
    obtain ⟨inside, here⟩ := List.getElem?_eq_some_iff.mp found
    have rest : (es.drop k).map Entry.term = e.term :: (es.drop (k + 1)).map Entry.term := by
      rw [List.drop_eq_getElem_cons inside, here, List.map_cons]
    rw [← rest]
    have tail := sliced.ordered.tail
    exact tail.sublist ((List.drop_sublist k es).map _)
  bounded e' member := sliced.bounded e' (List.mem_of_mem_drop member)

-- What is left of a slice above the snapshot is a slice.
theorem Sliced.trims {prevIndex prevTerm : Nat} {entries : List Entry} (sliced : Sliced term prevIndex prevTerm entries)
    (undisputed : r.Undisputed entries) (base : r.log.snapshotIndex ≤ r.commitIndex)
    (trims : Trims r.log prevIndex prevTerm entries p t es) : Sliced term p t es ∧ r.Undisputed es := by
  refine ⟨?_, fun e member => undisputed e (trims.subset member)⟩
  cases trims with
  | whole => exact sliced
  | skip below longer =>
    have place : r.log.snapshotIndex - prevIndex - 1 < entries.length := by omega
    have found := List.getElem?_eq_getElem place
    have index := sliced.index found
    have edge : entries[r.log.snapshotIndex - prevIndex - 1].index = r.log.snapshotIndex := by omega
    -- the last entry that is skipped is the one the snapshot ends with
    have same : r.log.snapshotTerm = entries[r.log.snapshotIndex - prevIndex - 1].term := by
      apply undisputed _ (List.getElem_mem place) (edge.trans_le base)
      rw [edge, Option.mem_def, RaftLog.termAt, if_neg (by rw [noIndex]; omega), if_pos rfl]
    have rest := sliced.drop found
    rwa [show r.log.snapshotIndex - prevIndex - 1 + 1 = r.log.snapshotIndex - prevIndex by omega,
      show prevIndex + (r.log.snapshotIndex - prevIndex) = r.log.snapshotIndex by omega, ← same] at rest

structure RaftLog.StopsAt (log : RaftLog) (p i : Nat) (conflict : Bool) (e : Entry) : Prop where
  before : ∃ t, log.termAt (p + i) = some t ∧ t ≤ e.term
  here : if conflict then ∃ t, log.termAt (p + 1 + i) = some t ∧ t ≠ e.term else log.termAt (p + 1 + i) = none

theorem firstNew_stops {start : Nat} (known : log.termAt (p + start) = some t)
    (ordered : (t :: es.map Entry.term).Pairwise (· ≤ ·)) (found : Node.firstNew log p es start = some (i, conflict)) :
    ∃ k e, i = start + k ∧ es[k]? = some e ∧ log.StopsAt p i conflict e := by
  induction es generalizing start t with
  | nil => cases found
  | cons e rest ih =>
    have least : t ≤ e.term := (List.pairwise_cons.mp ordered).1 _ List.mem_cons_self
    rw [Node.firstNew] at found
    cases own : log.termAt (p + 1 + start) with
    | none =>
      rw [own] at found
      cases found
      exact ⟨0, e, rfl, rfl, ⟨t, known, least⟩, own⟩
    | some mine =>
      rw [own] at found
      dsimp only at found
      split at found
      · next same =>
        -- the entry is held already, and the next one is compared with it
        have next : log.termAt (p + (start + 1)) = some e.term := by
          rw [← same, ← own]
          congr 1
          omega
        obtain ⟨k, e', place, here, stops⟩ := ih next ordered.tail found
        exact ⟨k + 1, e', by omega, here, stops⟩
      · next differs =>
        cases found
        exact ⟨0, e, rfl, rfl, ⟨t, known, least⟩, mine, own, differs⟩

-- Cut where the scan stopped, the log ends right before the entry.
theorem RaftLog.StopsAt.cut {e : Entry} (stops : log.StopsAt p i conflict e) (contiguous : log.Contiguous) (rooted : log.Rooted)
    (base : log.snapshotIndex ≤ p) :
    (if conflict then log.truncateFrom (p + 1 + i) else log).lastIndex = p + i ∧
      (if conflict then log.truncateFrom (p + 1 + i) else log).lastTerm ≤ e.term := by
  obtain ⟨⟨t, known, least⟩, here⟩ := stops
  suffices ends : ∀ cut : RaftLog, cut.Contiguous → cut.Rooted → cut.lastIndex = p + i →
      cut.termAt (p + i) = some t → cut.lastIndex = p + i ∧ cut.lastTerm ≤ e.term by
    cases conflict with
    | false =>
      apply ends log contiguous rooted _ known
      have inside : p + i ≤ log.lastIndex := by
        by_cases zero : p + i = noIndex
        · rw [zero]
          exact Nat.zero_le _
        · exact contiguous.inside_of_termAt zero known
      have beyond : ¬ p + 1 + i ≤ log.lastIndex := by
        intro present
        obtain ⟨own, found⟩ := contiguous.termAt_isSome (show log.snapshotIndex < p + 1 + i by omega) present
        cases found.symm.trans here
      omega
    | true =>
      obtain ⟨own, found, _⟩ := here
      have present := contiguous.inside_of_termAt (by rw [noIndex]; omega) found
      have above : log.snapshotIndex < p + 1 + i := by omega
      apply ends (log.truncateFrom (p + 1 + i)) (contiguous.truncateFrom _)
      · intro zero
        rw [RaftLog.snapshotIndex_truncateFrom] at zero
        rw [RaftLog.snapshotTerm_truncateFrom, rooted zero]
      · rw [contiguous.lastIndex_truncateFrom above]
        omega
      · rw [contiguous.termAt_truncateFrom above (by omega), known]
  intro cut contiguous rooted last known
  refine ⟨last, ?_⟩
  have same := contiguous.termAt_lastIndex rooted
  rw [last, known, Option.some.injEq] at same
  exact same.symm.trans_le least

theorem RaftLog.appendsOk_of_ordered (numbered : ∀ k e, es[k]? = some e → e.index = log.lastIndex + 1 + k)
    (ordered : (log.lastTerm :: es.map Entry.term).Pairwise (· ≤ ·)) : log.AppendsOk es := by
  induction es generalizing log with
  | nil => trivial
  | cons e rest ih =>
    have index := numbered 0 e rfl
    have least : log.lastTerm ≤ e.term := (List.pairwise_cons.mp ordered).1 _ List.mem_cons_self
    refine ⟨⟨index, least⟩, ih ?_ ?_⟩
    · intro k e' found
      have later := numbered (k + 1) e' found
      rw [log.lastIndex_append]
      omega
    · have last : (log.append e).lastTerm = e.term := by simp [lastTerm, append]
      rw [last]
      exact ordered.tail

-- The assertions hold for what is new in a slice.
theorem Sliced.appendsOk (sliced : Sliced term p t es) (contiguous : log.Contiguous) (rooted : log.Rooted)
    (base : log.snapshotIndex ≤ p) (agrees : log.matchesAt p t)
    (found : Node.firstNew log p es 0 = some (i, conflict)) :
    (if conflict then log.truncateFrom (p + 1 + i) else log).AppendsOk (es.drop i) ∧
      ∃ e, es[i]? = some e ∧ log.StopsAt p i conflict e := by
  have known : log.termAt (p + 0) = some t := agrees
  obtain ⟨k, e, rfl, here, stops⟩ := firstNew_stops known sliced.ordered found
  rw [Nat.zero_add] at stops ⊢
  refine ⟨?_, e, here, stops⟩
  obtain ⟨last, least⟩ := stops.cut contiguous rooted base
  generalize (if conflict then log.truncateFrom (p + 1 + k) else log) = cut at last least ⊢
  apply RaftLog.appendsOk_of_ordered
  · intro j e' here'
    rw [List.getElem?_drop] at here'
    rw [last, sliced.index here']
    omega
  · obtain ⟨inside, same⟩ := List.getElem?_eq_some_iff.mp here
    have later := (sliced.drop here).ordered
    rw [List.drop_eq_getElem_cons inside, same, List.map_cons]
    refine List.pairwise_cons.mpr ⟨fun b member => ?_, later⟩
    rcases List.mem_cons.mp member with rfl | member
    · exact least
    · exact least.trans ((List.pairwise_cons.mp later).1 b member)

end Slices

end SimKv
