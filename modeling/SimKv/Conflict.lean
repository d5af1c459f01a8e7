import SimKv.Checker.Durability
import SimKv.Machine
import SimKv.Raft.Slices

set_option autoImplicit false

/-!
# A crash in a conflicting append

`write_log_from` cuts the file where the old entries go and writes the new ones there: two operations, of which
power loss takes either, and any part of the second. What recovery then makes of old and new records together.
-/

namespace SimKv

open Codec

def LongestRun (expected floor : Nat) (bytes : Bytes) (es : List Entry) : Prop :=
  ∃ tail, bytes = records es ++ tail ∧ (∀ e ∈ es, e.Intact) ∧ Follows expected floor es ∧
    Stops (expected + es.length) (floorAfter floor es) tail

namespace LongestRun

variable {expected floor : Nat} {bytes : Bytes} {es : List Entry}

theorem empty (stops : Stops expected floor bytes) : LongestRun expected floor bytes [] :=
  ⟨bytes, rfl, nofun, trivial, stops⟩

theorem cons {e : Entry} (intact : e.Intact) (index : e.index = expected) (term : floor ≤ e.term)
    (run : LongestRun (expected + 1) e.term bytes es) :
    LongestRun expected floor (e.toRecord ++ bytes) (e :: es) := by
  obtain ⟨tail, rfl, others, follows, stops⟩ := run
  refine ⟨tail, ?_, List.forall_mem_cons.mpr ⟨intact, others⟩, ⟨index, term, follows⟩, ?_⟩
  · rw [records_cons, List.append_assoc]
  · rw [List.length_cons, floorAfter_cons, ← Nat.add_assoc, Nat.add_right_comm]
    exact stops

theorem behind {front : List Entry} (intact : ∀ e ∈ front, e.Intact) (follows : Follows expected floor front)
    (run : LongestRun (expected + front.length) (floorAfter floor front) bytes es) :
    LongestRun expected floor (records front ++ bytes) (front ++ es) := by
  induction front generalizing expected floor with
  | nil => exact run
  | cons e rest ih =>
    obtain ⟨index, term, later⟩ := follows
    rw [List.length_cons, floorAfter_cons, ← Nat.add_assoc, Nat.add_right_comm] at run
    rw [records_cons, List.append_assoc]
    exact (ih (fun r member => intact r (List.mem_cons_of_mem _ member)) later run).cons
      (intact e List.mem_cons_self) index term

-- The beginning need not be known, as long as the first record has the index that is expected.
theorem recovered (run : LongestRun expected 0 bytes es) (starts : 1 ≤ expected)
    (first : ∀ e size, readRecord bytes = some (e, size) → e.index = expected) :
    (recoverLogAnyStart bytes).entries = es := by
  obtain ⟨tail, rfl, intact, follows, stops⟩ := run
  cases read : readRecord (records es ++ tail) with
  | none =>
    cases es with
    | nil =>
      have stops := Stops.of_unread read (firstIndexOf (records [] ++ tail)) 0
      have intact : ∀ e ∈ ([] : List Entry), e.Intact := List.forall_mem_nil _
      exact congrArg RecoveredLog.entries (recoverLogFrom_run intact trivial stops)
    | cons e rest =>
      rw [records_cons, List.append_assoc, readRecord_append (intact e List.mem_cons_self)] at read
      cases read
  | some pair =>
    obtain ⟨valid, -, rest, same⟩ := readRecord_inv read
    have start : firstIndexOf (records es ++ tail) = expected := by
      rw [same, firstIndexOf_record valid.valid.1, first pair.1 pair.2 read]
      exact max_eq_left starts
    rw [recoverLogAnyStart, start, recoverLogFrom_run intact follows stops]

end LongestRun

theorem WriteKind.apply_data {buf : Bytes} {offset : Nat} (inside : offset ≤ buf.length) (bytes : Bytes) :
    WriteKind.apply buf (.data offset bytes) =
      buf.take offset ++ (bytes ++ buf.drop (offset + bytes.length)) := by
  simp only [WriteKind.apply]
  split
  · next short =>
    rw [resize, List.take_of_length_le short.le, List.take_append_of_le_length inside,
      List.drop_of_length_le (i := offset + bytes.length) (l := buf) short.le, List.drop_of_length_le]
    rw [List.length_append, List.length_replicate]
    omega
  · rfl

-- Some leading bytes land, and what they do not reach stays.
theorem WriteKind.resolve_data {buf : Bytes} {offset : Nat} (inside : offset ≤ buf.length) (bytes : Bytes) (fate : Fate) :
    ∃ keep ≤ bytes.length, WriteKind.resolve buf (.data offset bytes, fate) =
      buf.take offset ++ (bytes.take keep ++ buf.drop (offset + keep)) := by
  have none_ : buf = buf.take offset ++ (bytes.take 0 ++ buf.drop (offset + 0)) := by
    rw [List.take_zero, List.nil_append, Nat.add_zero, List.take_append_drop]
  cases fate with
  | lost => exact ⟨0, Nat.zero_le _, none_⟩
  | whole =>
    refine ⟨bytes.length, le_rfl, ?_⟩
    rw [List.take_length]
    exact apply_data inside bytes
  | torn keep =>
    simp only [resolve]
    split
    · exact ⟨0, Nat.zero_le _, none_⟩
    · have landed : bytes.take (min keep bytes.length) = bytes.take keep := List.take_eq_take_min.symm
      refine ⟨min keep bytes.length, min_le_right _ _, ?_⟩
      rw [apply_data inside, List.length_take, landed]

theorem WriteKind.resolve_setLen {buf : Bytes} {len : Nat} (inside : len ≤ buf.length) (fate : Fate) :
    WriteKind.resolve buf (.setLen len, fate) = buf ∨ WriteKind.resolve buf (.setLen len, fate) = buf.take len := by
  have cut : resize buf len = buf.take len := by
    rw [resize, Nat.sub_eq_zero_of_le inside, List.replicate_zero, List.append_nil]
  cases fate with
  | lost => exact .inl rfl
  | torn keep => exact .inr cut
  | whole => exact .inr cut

theorem fates_pair {fates : List (WriteKind × Fate)} {a b : WriteKind} (possible : (fates.map Prod.fst).Perm [a, b]) :
    ∃ x y, fates = [(a, x), (b, y)] ∨ fates = [(b, y), (a, x)] := by
  have size := possible.length_eq
  rw [List.length_map] at size
  obtain ⟨⟨first, x⟩, ⟨second, y⟩, rfl⟩ := List.length_eq_two.mp size
  have member : first ∈ [a, b] := possible.mem_iff.mp List.mem_cons_self
  rcases List.mem_cons.mp member with rfl | member
  · obtain rfl := List.singleton_inj.mp (List.perm_singleton.mp possible.cons_inv)
    exact ⟨x, y, .inl rfl⟩
  · obtain rfl := List.mem_singleton.mp member
    obtain rfl := List.singleton_inj.mp (List.perm_singleton.mp (possible.trans (.swap ..)).cons_inv)
    exact ⟨y, x, .inr rfl⟩

theorem SimFile.overwrite_crash {f : SimFile} {offset : Nat} {bytes image : Bytes}
    (pending : f.pending = [.setLen offset, .data offset bytes]) (inside : offset ≤ f.durable.length)
    (crash : f.CrashesTo image) :
    ∃ keep ≤ bytes.length, ∃ tail, (tail = [] ∨ tail = f.durable.drop (offset + keep)) ∧
      image = f.durable.take offset ++ (bytes.take keep ++ tail) := by
  obtain ⟨fates, possible, rfl⟩ := crash
  rw [pending] at possible
  obtain ⟨x, y, rfl | rfl⟩ := fates_pair possible
  · -- the cut comes first
    rcases WriteKind.resolve_setLen inside x with kept | cut
    · obtain ⟨keep, few, landed⟩ := WriteKind.resolve_data inside bytes y
      refine ⟨keep, few, _, .inr rfl, ?_⟩
      rw [crashImage, List.foldl_cons, kept, List.foldl_cons, landed, List.foldl_nil]
    · have size : (f.durable.take offset).length = offset := by
        rw [List.length_take, min_eq_left inside]
      obtain ⟨keep, few, landed⟩ := WriteKind.resolve_data size.ge bytes y
      refine ⟨keep, few, [], .inl rfl, ?_⟩
      rw [crashImage, List.foldl_cons, cut, List.foldl_cons, landed, List.foldl_nil, List.take_take, min_self,
        List.drop_of_length_le (size.trans_le (Nat.le_add_right _ _))]
  · obtain ⟨keep, few, landed⟩ := WriteKind.resolve_data inside bytes y
    have front : (f.durable.take offset).length = offset := by
      rw [List.length_take, min_eq_left inside]
    have reaches : offset ≤ (f.durable.take offset ++ (bytes.take keep ++ f.durable.drop (offset + keep))).length := by
      rw [List.length_append, front]
      exact Nat.le_add_right _ _
    rw [crashImage, List.foldl_cons, landed, List.foldl_cons, List.foldl_nil]
    rcases WriteKind.resolve_setLen reaches x with kept | cut
    · exact ⟨keep, few, _, .inr rfl, kept⟩
    · refine ⟨0, Nat.zero_le _, [], .inl rfl, ?_⟩
      rw [cut, List.take_left' front, List.take_zero, List.append_nil, List.append_nil]

/-- Where a record was written, what is there reads as nothing, as that record, or as it did before: a torn record
fails its checksum. -/
def ChecksumsHold (before after : Bytes) (new : List Entry) : Prop :=
  ∀ front e back, new = front ++ e :: back →
    readRecord (after.drop (records front).length) = none ∨
      readRecord (after.drop (records front).length) = some (e, e.toRecord.length) ∨
      readRecord (after.drop (records front).length) = readRecord (before.drop (records front).length)

/-- Behind some of the new records, the bytes of `before` go on with a record that can come next and is not the
next new one. -/
def ResumesBehind (before : Bytes) (expected floor : Nat) (new front : List Entry) : Prop :=
  ∃ back e size, new = front ++ back ∧ (∀ r ∈ front, r.Intact) ∧
    readRecord (before.drop (records front).length) = some (e, size) ∧ e.index = expected + front.length ∧
    floorAfter floor front ≤ e.term ∧ back.head? ≠ some e

section Overlay

variable {before after tail : Bytes} {keep expected floor : Nat} {e : Entry} {new front : List Entry}

theorem ChecksumsHold.rest (checksums : ChecksumsHold before (e.toRecord ++ after) (e :: new)) :
    ChecksumsHold (before.drop e.toRecord.length) after new := by
  intro front r back split
  have here := checksums (e :: front) r back (congrArg (e :: ·) split)
  rw [records_cons, List.length_append, List.drop_length_add_append] at here
  rw [List.drop_drop]
  exact here

theorem ResumesBehind.cons (intact : e.Intact)
    (resumes : ResumesBehind (before.drop e.toRecord.length) (expected + 1) e.term new front) :
    ResumesBehind before expected floor (e :: new) (e :: front) := by
  obtain ⟨back, r, size, split, fine, read, place, reaches, other⟩ := resumes
  refine ⟨back, r, size, congrArg (e :: ·) split, List.forall_mem_cons.mpr ⟨intact, fine⟩, ?_, ?_, ?_, other⟩
  · rw [records_cons, List.length_append, ← List.drop_drop]
    exact read
  · rw [List.length_cons]
    omega
  · rw [floorAfter_cons]
    exact reaches

-- If the first new record is read, the bytes behind it are an overlay again.
theorem overlay_rest {size : Nat} (few : keep ≤ (records (e :: new)).length)
    (kept : tail = [] ∨ tail = before.drop keep)
    (read : readRecord ((records (e :: new)).take keep ++ tail) = some (e, size)) :
    e.Intact ∧ ∃ keep' ≤ (records new).length, ∃ tail',
      (tail' = [] ∨ tail' = (before.drop e.toRecord.length).drop keep') ∧
        (records (e :: new)).take keep ++ tail = e.toRecord ++ ((records new).take keep' ++ tail') := by
  obtain ⟨intact, -, left, same⟩ := readRecord_inv read
  refine ⟨intact, ?_⟩
  rw [records_cons, List.length_append] at few
  rcases Nat.lt_or_ge keep e.toRecord.length with short | whole
  · have cut : (records (e :: new)).take keep = e.toRecord.take keep := by
      rw [records_cons, List.take_append_of_le_length short.le]
    have size : (e.toRecord.take keep).length = keep := by
      rw [List.length_take, min_eq_left short.le]
    rcases kept with rfl | rfl
    · -- there is not enough to hold the record
      have sizes := congrArg List.length same
      rw [cut, List.append_nil, size, List.length_append] at sizes
      omega
    · refine ⟨0, Nat.zero_le _, before.drop e.toRecord.length, .inr rfl, ?_⟩
      have rest : left = before.drop e.toRecord.length := by
        have behind := congrArg (List.drop e.toRecord.length) same
        rw [List.drop_left, cut, List.drop_append, size, List.drop_of_length_le (size.trans_le short.le),
          List.drop_drop, Nat.add_sub_cancel' short.le] at behind
        exact behind.symm
      rw [same, rest]
      rfl
  · refine ⟨keep - e.toRecord.length, by omega, tail, ?_, ?_⟩
    · rw [List.drop_drop, Nat.add_sub_cancel' whole]
      exact kept
    · rw [records_cons, List.take_append, List.take_of_length_le whole, List.append_assoc]

-- Where nothing resumes behind the new records, what is read is the front of them.
theorem overlay_run (follows : Follows expected floor new) (few : keep ≤ (records new).length)
    (kept : tail = [] ∨ tail = before.drop keep)
    (checksums : ChecksumsHold before ((records new).take keep ++ tail) new)
    (never : ∀ front, ¬ ResumesBehind before expected floor new front) :
    ∃ es, LongestRun expected floor ((records new).take keep ++ tail) es ∧ es <+: new := by
  induction new generalizing expected floor keep before tail with
  | nil =>
    obtain rfl := Nat.le_zero.mp few
    refine ⟨[], .empty ?_, List.prefix_rfl⟩
    intro e size read next
    rcases kept with rfl | rfl
    · cases read
    · exact never [] ⟨[], e, size, rfl, nofun, read, next.1, next.2, nofun⟩
  | cons e rest ih =>
    obtain ⟨index, term, later⟩ := follows
    -- what is read first is nothing or the first new record
    have first : readRecord ((records (e :: rest)).take keep ++ tail) = none ∨
        (∃ size, readRecord ((records (e :: rest)).take keep ++ tail) = some (e, size)) ∨
        Stops expected floor ((records (e :: rest)).take keep ++ tail) := by
      rcases checksums [] e rest rfl with unread | new | old
      · exact .inl unread
      · exact .inr (.inl ⟨_, new⟩)
      · refine .inr ?_
        by_cases stops : Stops expected floor ((records (e :: rest)).take keep ++ tail)
        · exact .inr stops
        · simp only [Stops, not_forall, not_not] at stops
          obtain ⟨r, size, read, next⟩ := stops
          by_cases same : r = e
          · exact .inl ⟨size, same ▸ read⟩
          · refine absurd ⟨e :: rest, r, size, rfl, nofun, ?_, next.1, next.2, ?_⟩ (never [])
            · exact old.symm.trans read
            · exact fun here => same (Option.some.inj here).symm
    rcases first with unread | ⟨size, read⟩ | stops
    · exact ⟨[], .empty (.of_unread unread _ _), List.nil_prefix⟩
    · obtain ⟨intact, keep', few', tail', kept', shape⟩ := overlay_rest few kept read
      rw [shape] at checksums
      obtain ⟨es, run, front⟩ := ih later few' kept' checksums.rest
        fun front resumes => never (e :: front) (resumes.cons intact)
      rw [shape]
      exact ⟨e :: es, run.cons intact index term, (List.prefix_cons_inj e).mpr front⟩
    · exact ⟨[], .empty stops, List.nil_prefix⟩

-- No record begins with another one.
theorem Entry.Valid.record_unique {e r : Entry} (valid : e.Valid) (also : r.Valid) {rest left : Bytes}
    (same : e.toRecord ++ rest = r.toRecord ++ left) : e = r := by
  simp only [Entry.toRecord, List.append_assoc] at same
  obtain ⟨-, behind⟩ := List.append_inj same (by simp [Enc.u32])
  obtain ⟨-, payload⟩ := List.append_inj behind (by simp [crcBytes, Enc.u32])
  exact valid.encode_unique also payload

-- What is read of an overlay is a front of the new records, or all that was there.
theorem overlay_recovered {r : Entry} {more : List Entry} {stale : Bytes} (follows : Follows expected floor (e :: new))
    (valid : e.Valid) (few : keep ≤ (records (e :: new)).length) (kept : tail = [] ∨ tail = before.drop keep)
    (checksums : ChecksumsHold before ((records (e :: new)).take keep ++ tail) (e :: new))
    (never : ∀ front, front ≠ [] → ¬ ResumesBehind before expected floor (e :: new) front)
    (shape : before = r.toRecord ++ stale) (intact : r.Intact) (other : r.term ≠ e.term)
    (was : LongestRun expected floor before (r :: more)) :
    ∃ es, LongestRun expected floor ((records (e :: new)).take keep ++ tail) es ∧
      (es <+: e :: new ∨ es = r :: more) := by
  obtain ⟨index, term, later⟩ := follows
  rcases checksums [] e new rfl with unread | read | old
  · exact ⟨[], .empty (.of_unread unread _ _), .inl List.nil_prefix⟩
  · obtain ⟨fine, keep', few', tail', kept', again⟩ := overlay_rest few kept read
    rw [again] at checksums
    obtain ⟨es, run, front⟩ := overlay_run later few' kept' checksums.rest
      fun front resumes => never (e :: front) nofun (resumes.cons fine)
    rw [again]
    exact ⟨e :: es, run.cons fine index term, .inl ((List.prefix_cons_inj e).mpr front)⟩
  · -- the old record is still there, so nothing has changed
    have read : readRecord ((records (e :: new)).take keep ++ tail) = some (r, r.toRecord.length) := by
      refine old.trans ?_
      rw [shape]
      exact readRecord_append intact _
    obtain ⟨-, -, left, still⟩ := readRecord_inv read
    have distinct : ∀ rest rest', e.toRecord ++ rest ≠ r.toRecord ++ rest' := by
      intro rest rest' same
      exact other (congrArg Entry.term (valid.record_unique intact.valid.1 same).symm)
    have short : keep < e.toRecord.length := by
      by_contra long
      rw [records_cons, List.take_append, List.take_of_length_le (not_lt.mp long), List.append_assoc] at still
      exact distinct _ _ still
    have cut : (records (e :: new)).take keep = e.toRecord.take keep := by
      rw [records_cons, List.take_append_of_le_length short.le]
    have size : (e.toRecord.take keep).length = keep := by
      rw [List.length_take, min_eq_left short.le]
    rw [cut] at still
    have shorter : keep < r.toRecord.length := by
      by_contra long
      have front := congrArg (List.take keep) still
      rw [List.take_left' size, List.take_append, List.take_of_length_le (not_lt.mp long)] at front
      refine distinct [] (left.take (keep - r.toRecord.length) ++ e.toRecord.drop keep) ?_
      rw [← List.append_assoc, ← front, List.take_append_drop, List.append_nil]
    refine ⟨r :: more, ?_, .inr rfl⟩
    have unchanged : (records (e :: new)).take keep ++ tail = before := by
      rcases kept with rfl | rfl
      · have sizes := congrArg List.length still
        rw [List.append_nil, size, List.length_append] at sizes
        omega
      · have front := congrArg (List.take keep) still
        rw [List.take_left' size, List.take_append_of_le_length shorter.le] at front
        have whole : (r.toRecord ++ stale).take keep = r.toRecord.take keep :=
          List.take_append_of_le_length shorter.le
        rw [cut, front, ← whole, ← shape, List.take_append_drop]
    rw [unchanged]
    exact was

-- Whatever is read of an overlay has the index that is expected.
theorem overlay_first {r : Entry} {more : List Entry} (follows : Follows expected floor (e :: new))
    (checksums : ChecksumsHold before after (e :: new)) (was : LongestRun expected floor before (r :: more)) {r' : Entry}
    {size : Nat} (read : readRecord after = some (r', size)) : r'.index = expected := by
  obtain ⟨stale, rfl, intact, old, -⟩ := was
  have here : readRecord (records (r :: more) ++ stale) = some (r, r.toRecord.length) := by
    rw [records_cons, List.append_assoc]
    exact readRecord_append (intact r List.mem_cons_self) _
  have first : readRecord after = none ∨ readRecord after = some (e, e.toRecord.length) ∨
      readRecord after = readRecord (records (r :: more) ++ stale) := checksums [] e new rfl
  rw [read, here] at first
  rcases first with unread | fresh | same
  · cases unread
  · cases fresh
    exact follows.1
  · cases same
    exact old.1

-- Where something does resume, a crash that stops there lets it.
theorem resumes_overlay (follows : Follows expected floor new) (resumes : ResumesBehind before expected floor new front) :
    ChecksumsHold before ((records new).take (records front).length ++ before.drop (records front).length) new ∧
      ∃ back e es, new = front ++ back ∧ back.head? ≠ some e ∧
        LongestRun expected floor
          ((records new).take (records front).length ++ before.drop (records front).length) (front ++ e :: es) := by
  obtain ⟨back, e, size, rfl, intact, read, place, reaches, other⟩ := resumes
  have cut : (records (front ++ back)).take (records front).length = records front := by
    rw [records_append, List.take_left]
  rw [cut]
  constructor
  · intro front' r back' split
    obtain ⟨gap, rfl, -⟩ | ⟨gap, rfl, rest⟩ := List.append_eq_append_iff.mp split
    · refine .inr (.inr ?_)
      rw [records_append, List.length_append, List.drop_length_add_append, List.drop_drop]
    · cases gap with
      | nil =>
        refine .inr (.inr ?_)
        rw [List.append_nil, List.drop_left]
      | cons first gap =>
        obtain ⟨rfl, -⟩ := List.cons.inj rest
        refine .inr (.inl ?_)
        rw [records_append, List.append_assoc, List.drop_left, records_cons, List.append_assoc]
        exact readRecord_append (intact r (List.mem_append_right _ List.mem_cons_self)) _
  · obtain ⟨fine, -, rest, shape⟩ := readRecord_inv read
    obtain ⟨es, tail, rfl, others, later, stops⟩ := exists_run rest (expected + front.length + 1) e.term
    refine ⟨back, e, es, rfl, other, LongestRun.behind intact follows.left ?_⟩
    rw [shape]
    exact LongestRun.cons fine place reaches ⟨tail, rfl, others, later, stops⟩

end Overlay

/-- The region holds the records of what has been compacted and of what the log holds, one after another, and behind
them nothing that goes on. -/
structure RaftLog.OnFile (log : RaftLog) (region : Bytes) (old : List Entry) (stale : Bytes) : Prop where
  region : region = records (old ++ log.entries) ++ stale
  intact : ∀ e ∈ old ++ log.entries, e.Intact
  compacted : old.length ≤ log.snapshotIndex
  follows : Follows (log.firstIndex - old.length) 0 (old ++ log.entries)
  boundary : ∀ e ∈ old.getLast?, e.term = log.snapshotTerm
  offsets : log.offsets = recordStarts (records old).length log.entries
  finish : log.finish = (records (old ++ log.entries)).length
  stops : Stops (log.lastIndex + 1) (floorAfter 0 (old ++ log.entries)) stale

theorem recordStarts_getElem {es : List Entry} {pos i : Nat} (inside : i < es.length) :
    (recordStarts pos es)[i]? = some (pos + (records (es.take i)).length) := by
  induction es generalizing pos i with
  | nil => exact absurd inside (Nat.not_lt_zero i)
  | cons e rest ih =>
    cases i with
    | zero => rfl
    | succ i =>
      rw [recordStarts, List.getElem?_cons_succ, ih (Nat.lt_of_succ_lt_succ inside), List.take_succ_cons, records_cons,
        List.length_append, Nat.add_assoc]

theorem Follows.right {expected floor : Nat} {es later : List Entry} (follows : Follows expected floor (es ++ later)) :
    Follows (expected + es.length) (floorAfter floor es) later := by
  induction es generalizing expected floor with
  | nil => exact follows
  | cons e rest ih =>
    have here := ih follows.2.2
    rw [List.length_cons, floorAfter_cons, ← Nat.add_assoc, Nat.add_right_comm]
    exact here

theorem Follows.filter_lt {first floor k : Nat} {es : List Entry} (follows : Follows first floor es) :
    es.filter (fun e => e.index < k) = es.take (k - first) := by
  induction es generalizing first floor with
  | nil => simp
  | cons e rest ih =>
    have index := follows.1
    by_cases before : first < k
    · have more : k - first = k - (first + 1) + 1 := by omega
      rw [List.filter_cons_of_pos (by simpa [index] using before), more, List.take_succ_cons, ih follows.2.2]
    · rw [Nat.sub_eq_zero_of_le (not_lt.mp before), List.take_zero, List.filter_eq_nil_iff]
      intro r member
      have := follows.first_le r member
      simp only [decide_eq_true_eq]
      omega

theorem Follows.mono {expected floor floor' : Nat} {es : List Entry} (follows : Follows expected floor es)
    (less : floor' ≤ floor) : Follows expected floor' es := by
  cases es with
  | nil => trivial
  | cons e rest => exact ⟨follows.1, less.trans follows.2.1, follows.2.2⟩

theorem RaftLog.AppendsOk.follows {log : RaftLog} {es : List Entry} (sound : log.AppendsOk es) :
    Follows (log.lastIndex + 1) log.lastTerm es := by
  induction es generalizing log with
  | nil => trivial
  | cons e rest ih =>
    have later := ih sound.2
    have term : (log.append e).lastTerm = e.term := by simp [lastTerm, append]
    rw [RaftLog.lastIndex_append, term, sound.1.1] at later
    exact ⟨sound.1.1, sound.1.2, later⟩

namespace RaftLog.OnFile

variable {log : RaftLog} {region stale : Bytes} {old : List Entry} {k : Nat}

theorem contiguous (file : log.OnFile region old stale) : log.Contiguous := by
  intro i e found
  have later := file.follows.right
  obtain ⟨inside, rfl⟩ := List.getElem?_eq_some_iff.mp found
  have index := later.index_eq inside
  have := file.compacted
  rw [index]
  simp only [firstIndex]
  omega

theorem longest (file : log.OnFile region old stale) :
    LongestRun (log.firstIndex - old.length) 0 region (old ++ log.entries) := by
  refine ⟨stale, file.region, file.intact, file.follows, ?_⟩
  have size := file.contiguous.lastIndex_eq
  have := file.compacted
  have place : log.firstIndex - old.length + (old ++ log.entries).length = log.lastIndex + 1 := by
    rw [List.length_append, size, firstIndex]
    omega
  rw [place]
  exact file.stops

theorem cut (file : log.OnFile region old stale) (above : log.firstIndex ≤ k) :
    (old ++ log.entries).filter (fun e => e.index < k) = old ++ log.entries.take (k - log.firstIndex) := by
  have := file.compacted
  have reach : k - (log.firstIndex - old.length) = old.length + (k - log.firstIndex) := by
    rw [firstIndex] at above ⊢
    omega
  rw [file.follows.filter_lt, reach, List.take_length_add_append]

theorem byteOffsetOf (file : log.OnFile region old stale) (above : log.firstIndex ≤ k) (held : k ≤ log.lastIndex) :
    log.byteOffsetOf k = (records (old ++ log.entries.take (k - log.firstIndex))).length := by
  have size := file.contiguous.lastIndex_eq
  have inside : k - log.firstIndex < log.entries.length := by
    rw [firstIndex] at above ⊢
    omega
  rw [RaftLog.byteOffsetOf, if_neg (not_lt.mpr above), file.offsets, recordStarts_getElem inside, Option.getD_some,
    records_append, List.length_append]

-- From `k` on, the file goes on with the entry the log holds there.
theorem split (file : log.OnFile region old stale) (above : log.firstIndex ≤ k) (held : k ≤ log.lastIndex) :
    ∃ r more, log.entries.drop (k - log.firstIndex) = r :: more ∧ log.termAt k = some r.term := by
  have size := file.contiguous.lastIndex_eq
  have inside : k - log.firstIndex < log.entries.length := by
    rw [firstIndex] at above ⊢
    omega
  refine ⟨log.entries[k - log.firstIndex], _, List.drop_eq_getElem_cons inside, ?_⟩
  rw [file.contiguous.termAt_above above, List.getElem?_eq_getElem inside, Option.map_some]

end RaftLog.OnFile

namespace RaftLog

variable {log : RaftLog} {k : Nat} {new : List Entry}

theorem offsets_appendAll (log : RaftLog) (es : List Entry) :
    (log.appendAll es).offsets = log.offsets ++ recordStarts log.finish es := by
  unfold appendAll
  induction es generalizing log with
  | nil => exact (List.append_nil _).symm
  | cons e rest ih =>
    rw [List.foldl_cons, ih, RaftLog.append, recordStarts, List.append_assoc]
    rfl

theorem finish_appendAll (log : RaftLog) (es : List Entry) :
    (log.appendAll es).finish = log.finish + (records es).length := by
  unfold appendAll
  induction es generalizing log with
  | nil => rfl
  | cons e rest ih =>
    rw [List.foldl_cons, ih, RaftLog.append, records_cons, List.length_append, Nat.add_assoc]

theorem truncateFrom_inside (above : log.firstIndex ≤ k) (held : k ≤ log.lastIndex) :
    log.truncateFrom k =
      { log with
        entries := log.entries.take (k - log.firstIndex)
        offsets := log.offsets.take (k - log.firstIndex)
        finish := log.byteOffsetOf k } := by
  rw [truncateFrom, max_eq_left above, if_pos held, byteOffsetOf, if_neg (not_lt.mpr above)]

-- What is written from the cut on lands where the old record was.
theorem byteOffsetOf_splice (above : log.firstIndex ≤ k) (held : k ≤ log.lastIndex) (count : log.offsets.length = log.entries.length)
    (contiguous : log.Contiguous) (some_ : new ≠ []) :
    ((log.truncateFrom k).appendAll new).byteOffsetOf k = log.byteOffsetOf k := by
  have size := contiguous.lastIndex_eq
  obtain ⟨e, rest, rfl⟩ := List.exists_cons_of_ne_nil some_
  have first : ((log.truncateFrom k).appendAll (e :: rest)).firstIndex = log.firstIndex := by
    rw [firstIndex, snapshotIndex_appendAll, snapshotIndex_truncateFrom, firstIndex]
  have place : (log.offsets.take (k - log.firstIndex)).length = k - log.firstIndex := by
    rw [List.length_take, count]
    rw [firstIndex] at above ⊢
    omega
  rw [byteOffsetOf, first, if_neg (not_lt.mpr above), offsets_appendAll, truncateFrom_inside above held,
    List.getElem?_append_right place.le, place, Nat.sub_self]
  rfl

end RaftLog

/-- The node held `log` and has put `new` where its entries from `k` on were: an append whose first entry conflicts. -/
structure Node.Replaced (n : Node) (log : RaftLog) (k : Nat) (new : List Entry) : Prop where
  above : log.firstIndex ≤ k
  held : k ≤ log.lastIndex
  valid : ∀ e ∈ new, e.Valid
  conflict : ∃ e ∈ new.head?, log.termAt k ≠ some e.term
  -- The assertions of `append` hold.
  sound : (log.truncateFrom k).AppendsOk new
  log : n.log = (log.truncateFrom k).appendAll new

def Node.overwrite (n : Node) (batch k : Nat) (d : Disk) : SimFile :=
  (d.performAll (fun _ => true) ((n.writeLogFrom batch k true).effects.drop n.effects.length)).wal

def Unspliced (was : List Entry) (k : Nat) (new : List Entry) (image : Bytes) : Prop :=
  (recoverLogAnyStart (image.drop logRegion)).entries <+: was ∨
    (recoverLogAnyStart (image.drop logRegion)).entries <+: was.filter (fun e => e.index < k) ++ new

/-- Whatever power loss makes of the two operations, as long as a torn record fails its checksum. -/
def Node.AlwaysUnspliced (n : Node) (d : Disk) (log : RaftLog) (old new : List Entry) (batch k : Nat) : Prop :=
  ∀ image, (n.overwrite batch k d).CrashesTo image →
    ChecksumsHold (d.wal.durable.drop (logRegion + log.byteOffsetOf k))
      (image.drop (logRegion + log.byteOffsetOf k)) new →
    Unspliced (old ++ log.entries) k new image

section Conflict

variable {n : Node} {d : Disk} {log : RaftLog} {old new : List Entry} {stale : Bytes} {batch k : Nat}

-- The new entries go on where the log is cut.
theorem Node.Replaced.follows (replaced : n.Replaced log k new) (contiguous : log.Contiguous) :
    Follows k (log.truncateFrom k).lastTerm new := by
  have above : log.snapshotIndex < k := replaced.above
  have held := replaced.held
  have last := contiguous.lastIndex_truncateFrom above
  have follows := replaced.sound.follows
  rwa [last, show min log.lastIndex (k - 1) + 1 = k by omega] at follows

-- What is written are the new entries, and nothing else.
theorem Node.Replaced.written (replaced : n.Replaced log k new) (file : log.OnFile (d.wal.durable.drop logRegion) old stale) :
    n.log.entries.filter (fun e => k ≤ e.index) = new := by
  have entries : n.log.entries = log.entries.take (k - log.firstIndex) ++ new := by
    rw [replaced.log, RaftLog.entries_appendAll, file.contiguous.entries_truncateFrom replaced.above]
  have stay := file.follows.right.filter_lt (k := k)
  have first : log.firstIndex - old.length + old.length = log.firstIndex := by
    have := file.compacted
    rw [RaftLog.firstIndex]
    omega
  rw [first] at stay
  rw [entries, List.filter_append, ← stay, List.filter_filter, List.filter_eq_nil_iff.mpr, List.nil_append,
    List.filter_eq_self]
  · intro e member
    exact decide_eq_true ((replaced.follows file.contiguous).first_le e member)
  · intro e member
    simp

theorem Node.Replaced.pending (batch : Nat) (replaced : n.Replaced log k new)
    (file : log.OnFile (d.wal.durable.drop logRegion) old stale) (idle : d.wal.pending = []) :
    (n.overwrite batch k d).pending = [.setLen (logRegion + log.byteOffsetOf k),
        .data (logRegion + log.byteOffsetOf k) (records new)] ∧
      (n.overwrite batch k d).durable = d.wal.durable := by
  obtain ⟨e, first, -⟩ := replaced.conflict
  have some_ : new ≠ [] := by
    rintro rfl
    cases first
  have count : log.offsets.length = log.entries.length := by
    rw [file.offsets, recordStarts_length]
  have place : n.log.byteOffsetOf k = log.byteOffsetOf k := by
    rw [replaced.log]
    exact RaftLog.byteOffsetOf_splice replaced.above replaced.held count file.contiguous some_
  have bytes : (n.log.entries.filter fun e => k ≤ e.index).flatMap Entry.toRecord = records new := by
    rw [replaced.written file, records]
  have full : records new ≠ [] := by
    obtain ⟨r, rest, rfl⟩ := List.exists_cons_of_ne_nil some_
    rw [records_cons, ← List.length_pos_iff, List.length_append, r.toRecord_length]
    omega
  have effects : (n.writeLogFrom batch k true).effects =
      n.effects ++ [.setLen n.nextOp .wal (logRegion + log.byteOffsetOf k),
        .writeAt (n.nextOp + 1) .wal (logRegion + log.byteOffsetOf k) (records new)] := by
    have still : (((n.setLen .wal (logRegion + n.log.byteOffsetOf k)).noteWrite batch n.nextOp).log.entries.filter
        fun e => k ≤ e.index).flatMap Entry.toRecord = records new := bytes
    simp only [Node.writeLogFrom, if_true, still, if_neg full]
    simp [Node.writeAt, Node.setLen, Node.noteWrite, place]
  rw [Node.overwrite, effects, List.drop_left]
  constructor
  · simp [Disk.performAll, Disk.perform, Disk.setFile, Disk.file, SimFile.issue, idle]
  · rfl

theorem floorAfter_append (floor : Nat) (front back : List Entry) :
    floorAfter floor (front ++ back) = floorAfter (floorAfter floor front) back := by
  induction front generalizing floor with
  | nil => rfl
  | cons e rest ih => rw [List.cons_append, floorAfter_cons, floorAfter_cons, ih]

theorem floorAfter_mono {floor floor' : Nat} (less : floor ≤ floor') (es : List Entry) :
    floorAfter floor es ≤ floorAfter floor' es := by
  rw [floorAfter, floorAfter]
  cases es.getLast? with
  | none => exact less
  | some e => exact le_rfl

-- Behind at least one new record, what came before them does not matter.
theorem ResumesBehind.anyFloor {before : Bytes} {expected floor : Nat} {front : List Entry} (some_ : front ≠ [])
    (resumes : ResumesBehind before expected floor new front) (other : Nat) :
    ResumesBehind before expected other new front := by
  obtain ⟨back, e, size, split, intact, read, place, reaches, differs⟩ := resumes
  refine ⟨back, e, size, split, intact, read, place, ?_, differs⟩
  obtain ⟨first, rest, rfl⟩ := List.exists_cons_of_ne_nil some_
  rw [floorAfter_cons] at reaches ⊢
  exact reaches

-- The last of the old terms is no obstacle to the new entries.
theorem RaftLog.OnFile.floor_le (file : log.OnFile (d.wal.durable.drop logRegion) old stale) (above : log.firstIndex ≤ k) :
    floorAfter 0 (old ++ log.entries.take (k - log.firstIndex)) ≤ (log.truncateFrom k).lastTerm := by
  have base : floorAfter 0 old ≤ log.snapshotTerm := by
    rw [floorAfter]
    cases last : old.getLast? with
    | none => exact Nat.zero_le _
    | some e => exact (file.boundary e last).le
  rw [floorAfter_append, RaftLog.lastTerm, file.contiguous.entries_truncateFrom above,
    RaftLog.snapshotTerm_truncateFrom]
  exact floorAfter_mono base _

-- Where the file is cut, the records before stay and the others begin.
theorem RaftLog.OnFile.geometry (file : log.OnFile (d.wal.durable.drop logRegion) old stale)
    (room : logRegion ≤ d.wal.durable.length) (above : log.firstIndex ≤ k) (held : k ≤ log.lastIndex) :
    logRegion + log.byteOffsetOf k ≤ d.wal.durable.length ∧
      d.wal.durable.drop (logRegion + log.byteOffsetOf k) =
        records (log.entries.drop (k - log.firstIndex)) ++ stale ∧
      (d.wal.durable.take (logRegion + log.byteOffsetOf k)).length = logRegion + log.byteOffsetOf k ∧
      (d.wal.durable.take (logRegion + log.byteOffsetOf k)).drop logRegion =
        records (old ++ log.entries.take (k - log.firstIndex)) := by
  have shape : d.wal.durable.drop logRegion = records (old ++ log.entries.take (k - log.firstIndex)) ++
      (records (log.entries.drop (k - log.firstIndex)) ++ stale) := by
    rw [file.region, ← List.append_assoc, ← records_append, List.append_assoc old, List.take_append_drop]
  have size := congrArg List.length shape
  rw [List.length_drop, List.length_append] at size
  have offset := file.byteOffsetOf above held
  have inside : logRegion + log.byteOffsetOf k ≤ d.wal.durable.length := by omega
  refine ⟨inside, ?_, ?_, ?_⟩
  · rw [← List.drop_drop, shape, offset, List.drop_left]
  · rw [List.length_take, min_eq_left inside]
  · rw [List.drop_take, Nat.add_sub_cancel_left, shape, offset, List.take_left]

-- What was there from the cut on is a longest run, and so is what comes behind the records before it.
theorem RaftLog.OnFile.runs (file : log.OnFile (d.wal.durable.drop logRegion) old stale)
    (room : logRegion ≤ d.wal.durable.length) (above : log.firstIndex ≤ k) (held : k ≤ log.lastIndex) :
    LongestRun k (floorAfter 0 (old ++ log.entries.take (k - log.firstIndex)))
        (d.wal.durable.drop (logRegion + log.byteOffsetOf k)) (log.entries.drop (k - log.firstIndex)) ∧
      ∀ bytes es, LongestRun k (floorAfter 0 (old ++ log.entries.take (k - log.firstIndex))) bytes es →
        (∀ e size, readRecord bytes = some (e, size) → e.index = k) →
        (recoverLogAnyStart (records (old ++ log.entries.take (k - log.firstIndex)) ++ bytes)).entries =
          old ++ log.entries.take (k - log.firstIndex) ++ es := by
  have whole : old ++ log.entries = old ++ log.entries.take (k - log.firstIndex) ++
      log.entries.drop (k - log.firstIndex) := by
    rw [List.append_assoc, List.take_append_drop]
  have size := file.contiguous.lastIndex_eq
  have compacted := file.compacted
  have follows := file.follows
  have intact := file.intact
  have stops := file.stops
  have behind := (file.geometry room above held).2.1
  rw [whole] at follows intact stops
  have length : (old ++ log.entries.take (k - log.firstIndex)).length = old.length + (k - log.firstIndex) := by
    rw [List.length_append, List.length_take, RaftLog.firstIndex]
    rw [RaftLog.firstIndex] at above
    omega
  have place : log.firstIndex - old.length + (old ++ log.entries.take (k - log.firstIndex)).length = k := by
    rw [length]
    rw [RaftLog.firstIndex] at above ⊢
    omega
  constructor
  · refine ⟨stale, behind, fun e member => intact e (List.mem_append_right _ member), ?_, ?_⟩
    · have later := follows.right
      rwa [place] at later
    · rw [← floorAfter_append]
      have last : k + (log.entries.drop (k - log.firstIndex)).length = log.lastIndex + 1 := by
        rw [List.length_drop, size]
        rw [RaftLog.firstIndex] at above ⊢
        omega
      rw [last]
      exact stops
  · intro bytes es run first
    have here : LongestRun (log.firstIndex - old.length + (old ++ log.entries.take (k - log.firstIndex)).length)
        (floorAfter 0 (old ++ log.entries.take (k - log.firstIndex))) bytes es := by
      rw [place]
      exact run
    refine (LongestRun.behind (fun e member => intact e (List.mem_append_left _ member)) follows.left here).recovered ?_ ?_
    · rw [RaftLog.firstIndex]
      omega
    · intro e size read
      cases front : old ++ log.entries.take (k - log.firstIndex) with
      | nil =>
        rw [front] at read place
        rw [first e size read]
        exact place.symm
      | cons head rest =>
        rw [front, records_cons, List.append_assoc,
          readRecord_append (intact head (by simp [front]))] at read
        cases read
        rw [front] at follows
        exact follows.1

/-- Whatever a crash makes of a conflicting append, recovery finds a front of the log as it was or as it is to be,
exactly if behind none of the new records the old bytes go on with a record that can come next. -/
theorem conflict_recovered_iff (idle : d.wal.pending = []) (room : logRegion ≤ d.wal.durable.length)
    (file : log.OnFile (d.wal.durable.drop logRegion) old stale) (replaced : n.Replaced log k new) :
    n.AlwaysUnspliced d log old new batch k ↔
      ∀ front, front ≠ [] →
        ¬ ResumesBehind (d.wal.durable.drop (logRegion + log.byteOffsetOf k)) k 0 new front := by
  have above := replaced.above
  have held := replaced.held
  obtain ⟨pending, durable⟩ := replaced.pending batch file idle
  obtain ⟨inside, behind, size, before⟩ := file.geometry room above held
  obtain ⟨was, finds⟩ := file.runs room above held
  obtain ⟨r, more, split, term⟩ := file.split above held
  have follows := (replaced.follows file.contiguous).mono (file.floor_le above)
  have cut := file.cut above
  have whole : old ++ log.entries = old ++ log.entries.take (k - log.firstIndex) ++ (r :: more) := by
    rw [List.append_assoc, ← split, List.take_append_drop]
  obtain ⟨e, first, conflict⟩ := replaced.conflict
  obtain ⟨rest, rfl⟩ : ∃ rest, new = e :: rest := by
    cases new with
    | nil => cases first
    | cons head rest =>
      cases first
      exact ⟨rest, rfl⟩
  have other : r.term ≠ e.term := by
    intro same
    exact conflict (same ▸ term)
  rw [split] at was
  have region : ∀ bytes, ((d.wal.durable.take (logRegion + log.byteOffsetOf k)) ++ bytes).drop logRegion =
      records (old ++ log.entries.take (k - log.firstIndex)) ++ bytes := by
    intro bytes
    rw [List.drop_append_of_le_length (by omega), before]
  constructor
  · intro unspliced front some_ resumes
    obtain ⟨checksums, back, e', es, shape, differs, run⟩ := resumes_overlay follows (resumes.anyFloor some_ _)
    obtain ⟨f, front, rfl⟩ := List.exists_cons_of_ne_nil some_
    rw [List.cons_append] at shape
    obtain ⟨rfl, rfl⟩ := List.cons.inj shape
    -- the cut is lost, and of the write these records land
    have landing : (n.overwrite batch k d).CrashesTo (d.wal.durable.take (logRegion + log.byteOffsetOf k) ++
        ((records (e :: (front ++ back))).take (records (e :: front)).length ++
          (d.wal.durable.drop (logRegion + log.byteOffsetOf k)).drop (records (e :: front)).length)) := by
      refine ⟨[(.setLen (logRegion + log.byteOffsetOf k), .lost),
        (.data (logRegion + log.byteOffsetOf k) (records (e :: (front ++ back))), .torn (records (e :: front)).length)],
        ?_, ?_⟩
      · rw [pending]
        exact List.Perm.refl _
      · have some_ : (records (e :: front)).length ≠ 0 := by
          rw [records_cons, List.length_append, e.toRecord_length]
          omega
        have few : ((records (e :: (front ++ back))).take (records (e :: front)).length).length =
            (records (e :: front)).length := by
          rw [← List.cons_append, records_append, List.take_left]
        rw [durable, crashImage, List.foldl_cons, List.foldl_cons, List.foldl_nil]
        simp only [WriteKind.resolve, if_neg some_]
        rw [WriteKind.apply_data inside, few, List.drop_drop]
    have clean := unspliced _ landing (by rw [List.drop_left' size]; exact checksums)
    have found := finds _ _ run fun r' size read => overlay_first follows checksums was read
    rw [Unspliced, region, found, cut, whole, List.prefix_append_right_inj, List.prefix_append_right_inj] at clean
    rcases clean with old | fresh
    · rw [List.cons_append, List.cons_prefix_cons] at old
      exact other (congrArg Entry.term old.1).symm
    · rw [← List.cons_append, List.prefix_append_right_inj] at fresh
      obtain ⟨others, shape⟩ := fresh
      apply differs
      rw [← shape]
      rfl
  · intro never image crash checksums
    rw [← durable] at inside
    obtain ⟨keep, few, tail, kept, rfl⟩ := SimFile.overwrite_crash pending inside crash
    rw [durable] at kept checksums ⊢
    rw [List.drop_left' size] at checksums
    rw [← List.drop_drop] at kept
    have shape : d.wal.durable.drop (logRegion + log.byteOffsetOf k) = r.toRecord ++ (records more ++ stale) := by
      rw [behind, split, records_cons, List.append_assoc]
    have intact : r.Intact := by
      refine file.intact r ?_
      rw [whole]
      exact List.mem_append_right _ List.mem_cons_self
    obtain ⟨es, run, outcome⟩ := overlay_recovered follows (replaced.valid e List.mem_cons_self) few kept checksums
      (fun front some_ resumes => never front some_ (resumes.anyFloor some_ 0)) shape intact other was
    have found := finds _ es run fun r' size read => overlay_first follows checksums was read
    rw [Unspliced, region, found, cut, whole]
    rcases outcome with fresh | rfl
    · exact .inr ((List.prefix_append_right_inj _).mpr fresh)
    · exact .inl List.prefix_rfl

end Conflict

def termed (term index : Nat) : Entry := { usualEntry index with term }

def grown (es : List Entry) : RaftLog := RaftLog.appendAll {} es

def synced (es : List Entry) : Disk := { wal := .ofImage (List.replicate logRegion 0 ++ records es) }

def replacing (es : List Entry) (k : Nat) (new : List Entry) : Node :=
  { Raft.recover [] [] [] 1 [1, 2, 3] {} {} with log := ((grown es).truncateFrom k).appendAll new }

theorem grown_onFile {es : List Entry} (intact : ∀ e ∈ es, e.Intact) (follows : Follows 1 0 es) :
    (grown es).OnFile ((synced es).wal.durable.drop logRegion) [] [] where
  region := by
    rw [List.append_nil, List.nil_append, grown, RaftLog.entries_appendAll]
    exact List.drop_left' (by rw [List.length_replicate])
  intact := by
    rw [grown, RaftLog.entries_appendAll]
    exact intact
  compacted := Nat.zero_le _
  follows := by
    rw [grown, RaftLog.entries_appendAll, RaftLog.firstIndex, RaftLog.snapshotIndex_appendAll]
    exact follows
  boundary := nofun
  offsets := by
    rw [grown, RaftLog.entries_appendAll, RaftLog.offsets_appendAll]
    rfl
  finish := by
    rw [grown, RaftLog.entries_appendAll, RaftLog.finish_appendAll]
    exact Nat.zero_add _
  stops := .of_unread readRecord_nil _ _

theorem termed_intact : (termed 1 1).Intact ∧ (termed 2 1).Intact ∧ (termed 3 2).Intact := by decide +kernel

def twoTerms : List Entry := [termed 1 1, termed 3 2]

theorem twoTerms_onFile : (grown twoTerms).OnFile ((synced twoTerms).wal.durable.drop logRegion) [] [] := by
  obtain ⟨one, -, three⟩ := termed_intact
  apply grown_onFile
  · exact List.forall_mem_cons.mpr ⟨one, List.forall_mem_singleton.mpr three⟩
  · exact ⟨rfl, Nat.zero_le _, rfl, by decide, trivial⟩

theorem twoTerms_replaced : (replacing twoTerms 1 [termed 2 1]).Replaced (grown twoTerms) 1 [termed 2 1] where
  above := by decide
  held := by decide
  valid := List.forall_mem_singleton.mpr termed_intact.2.1.valid.1
  conflict := ⟨termed 2 1, rfl, by decide⟩
  sound := ⟨by decide, trivial⟩
  log := rfl

/-- The cut is lost and the write is not: behind the new entry of term two comes the old one of term three. -/
theorem conflict_spliced :
    (synced twoTerms).wal.pending = [] ∧ logRegion ≤ (synced twoTerms).wal.durable.length ∧
    (grown twoTerms).OnFile ((synced twoTerms).wal.durable.drop logRegion) [] [] ∧
    (replacing twoTerms 1 [termed 2 1]).Replaced (grown twoTerms) 1 [termed 2 1] ∧
    ¬ (replacing twoTerms 1 [termed 2 1]).AlwaysUnspliced (synced twoTerms) (grown twoTerms) [] [termed 2 1] 1 1 := by
  refine ⟨rfl, by decide +kernel, twoTerms_onFile, twoTerms_replaced, fun unspliced => ?_⟩
  obtain ⟨pending, durable⟩ := twoTerms_replaced.pending 1 twoTerms_onFile rfl
  have clean := unspliced (List.replicate logRegion 0 ++ records [termed 2 1, termed 3 2]) ?_ ?_
  · revert clean
    unfold Unspliced
    decide +kernel
  · refine ⟨[(.setLen (logRegion + (grown twoTerms).byteOffsetOf 1), .lost),
      (.data (logRegion + (grown twoTerms).byteOffsetOf 1) (records [termed 2 1]), .whole)], ?_, ?_⟩
    · rw [pending]
      exact List.Perm.refl _
    · rw [durable]
      decide +kernel
  · intro front e back split
    cases front with
    | nil =>
      obtain ⟨rfl, -⟩ := List.cons.inj split
      exact .inr (.inl (by decide +kernel))
    | cons head rest => simp at split

def oneTerm : List Entry := [termed 1 1, termed 1 2]

theorem conflict_recovered_lower :
    (replacing oneTerm 1 [termed 2 1]).AlwaysUnspliced (synced oneTerm) (grown oneTerm) [] [termed 2 1] 1 1 := by
  have intact : ∀ e ∈ oneTerm, e.Intact := by decide +kernel
  have file : (grown oneTerm).OnFile ((synced oneTerm).wal.durable.drop logRegion) [] [] :=
    grown_onFile intact ⟨rfl, Nat.zero_le _, rfl, le_rfl, trivial⟩
  have replaced : (replacing oneTerm 1 [termed 2 1]).Replaced (grown oneTerm) 1 [termed 2 1] := by
    refine ⟨by decide, by decide, ?_, ⟨termed 2 1, rfl, by decide⟩, ⟨by decide, trivial⟩, rfl⟩
    exact List.forall_mem_singleton.mpr termed_intact.2.1.valid.1
  refine (conflict_recovered_iff rfl (by decide +kernel) file replaced).mpr fun front some_ resumes => ?_
  obtain ⟨back, e, size, split, -, read, -, reaches, -⟩ := resumes
  obtain ⟨f, rest, rfl⟩ := List.exists_cons_of_ne_nil some_
  obtain ⟨rfl, empty⟩ := List.cons.inj split
  obtain ⟨rfl, -⟩ := List.append_eq_nil_iff.mp empty.symm
  have next : readRecord (((synced oneTerm).wal.durable.drop (logRegion + (grown oneTerm).byteOffsetOf 1)).drop
      (records [termed 2 1]).length) = some (termed 1 2, (termed 1 2).toRecord.length) := by decide +kernel
  rw [next] at read
  cases read
  exact absurd reaches (by decide)

end SimKv
