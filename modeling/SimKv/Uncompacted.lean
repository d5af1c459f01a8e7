import Mathlib.Order.Bounds.Basic
import SimKv.Lib.Ascending
import SimKv.Lib.Layout
import SimKv.Raft.Contiguous

set_option autoImplicit false

/-!
# The log without compaction

A log as it would be had nothing ever been compacted, laid out in its file. Appends and cuts act on
it as on the log itself; a compaction only moves the boundary below which the log no longer answers.
-/

namespace SimKv

/-- What a node does to its log. -/
inductive LogCall where
  | append (e : Entry)
  | truncateFrom (index : Nat)
  | compactTo (index term : Nat)
  deriving DecidableEq, Repr

namespace RaftLog

def call (log : RaftLog) : LogCall → RaftLog
  | .append e => log.append e
  | .truncateFrom index => log.truncateFrom index
  | .compactTo index term => log.compactTo index term

def calls (log : RaftLog) (list : List LogCall) : RaftLog := list.foldl call log

def CallOk (log : RaftLog) : LogCall → Prop
  | .append e => log.AppendOk e
  | .truncateFrom _ => True
  | .compactTo index term => log.snapshotIndex < index → index ≤ log.lastIndex → log.termAt index = some term

def CallsOk : RaftLog → List LogCall → Prop
  | _, [] => True
  | log, call :: rest => log.CallOk call ∧ CallsOk (log.call call) rest

def terms (log : RaftLog) : List Nat := log.snapshotTerm :: log.entries.map Entry.term

def recordLengths (log : RaftLog) : List Nat := log.entries.map fun e => e.toRecord.length

/-- Entries are contiguous above the snapshot, terms never decrease, and the offsets are consecutive record
positions up to the end. -/
structure LaidOut (log : RaftLog) : Prop where
  contiguous : log.Contiguous
  ordered : log.terms.Pairwise (· ≤ ·)
  count : log.offsets.length = log.recordLengths.length
  consecutive : ∀ k offset n, log.offsets[k]? = some offset → log.recordLengths[k]? = some n →
    log.offsets[k + 1]?.getD log.finish = offset + n

end RaftLog

theorem terms_getLast (base : Nat) (entries : List Entry) :
    (base :: entries.map Entry.term)[entries.length]? = some ((entries.getLast?.map Entry.term).getD base) := by
  cases entries using List.reverseRecOn with
  | nil => rfl
  | append_singleton rest e => simp

structure FullLog where
  base : Nat
  baseTerm : Nat
  -- Where the first record starts.
  origin : Nat
  entries : List Entry
  boundary : Nat
  numbered : ∀ k e, entries[k]? = some e → e.index = base + 1 + k
  ordered : (baseTerm :: entries.map Entry.term).Pairwise (· ≤ ·)
  held : base ≤ boundary
  reached : boundary ≤ base + entries.length

namespace FullLog

variable (full : FullLog)

def terms : List Nat := full.baseTerm :: full.entries.map Entry.term

def lastIndex : Nat := full.base + full.entries.length

def lastTerm : Nat := (full.entries.getLast?.map Entry.term).getD full.baseTerm

def get (index : Nat) : Option Entry := if index ≤ full.base then none else full.entries[index - full.base - 1]?

def termAt (index : Nat) : Option Nat :=
  if index = noIndex then some 0 else if index < full.base then none else full.terms[index - full.base]?

def sliceFrom (index max : Nat) : List Entry := (full.entries.drop (index - full.base - 1)).take max

def recordLengths : List Nat := full.entries.map fun e => e.toRecord.length

def position (index : Nat) : Nat := Layout.position full.origin full.recordLengths (index - full.base - 1)

theorem length_terms : full.terms.length = full.entries.length + 1 := by
  rw [terms, List.length_cons, List.length_map]

theorem terms_last : full.terms[full.entries.length]? = some full.lastTerm :=
  terms_getLast full.baseTerm full.entries

theorem le_lastTerm {s : Nat} (member : s ∈ full.terms) : s ≤ full.lastTerm := by
  obtain ⟨i, inside, here⟩ := List.getElem_of_mem member
  have size := full.length_terms
  exact Ascending.le_of_getElem? full.ordered (by omega) (List.getElem?_eq_some_iff.mpr ⟨inside, here⟩)
    full.terms_last

def AppendOk (e : Entry) : Prop := e.index = full.lastIndex + 1 ∧ full.lastTerm ≤ e.term

instance (e : Entry) : Decidable (full.AppendOk e) := inferInstanceAs (Decidable (_ ∧ _))

def append (e : Entry) (sound : full.AppendOk e) : FullLog where
  base := full.base
  baseTerm := full.baseTerm
  origin := full.origin
  entries := full.entries ++ [e]
  boundary := full.boundary
  numbered := by
    intro k e' found
    by_cases old : k < full.entries.length
    · rw [List.getElem?_append_left old] at found
      exact full.numbered k e' found
    · obtain ⟨inside, _⟩ := List.getElem?_eq_some_iff.mp found
      have newest : k = full.entries.length := by
        simp at inside
        omega
      rw [newest, List.getElem?_concat_length] at found
      cases found
      rw [sound.1, lastIndex, newest]
      omega
  ordered := by
    have step : (full.terms ++ [e.term]).Pairwise (· ≤ ·) := by
      refine List.pairwise_append.mpr ⟨full.ordered, List.pairwise_singleton _ _, fun s earlier t new => ?_⟩
      rw [List.mem_singleton.mp new]
      exact le_trans (full.le_lastTerm earlier) sound.2
    simpa [terms] using step
  held := full.held
  reached := by
    have reached := full.reached
    simp only [List.length_append]
    omega

def truncateFrom (index : Nat) : FullLog where
  base := full.base
  baseTerm := full.baseTerm
  origin := full.origin
  entries := full.entries.take (max index (full.boundary + 1) - full.base - 1)
  boundary := full.boundary
  numbered := by
    intro k e found
    rw [List.getElem?_take] at found
    split at found
    · exact full.numbered k e found
    · cases found
  ordered := by
    refine full.ordered.sublist (List.Sublist.cons_cons _ ?_)
    exact (List.take_sublist _ _).map _
  held := full.held
  reached := by
    have held := full.held
    have reached := full.reached
    rw [List.length_take]
    omega

theorem entries_truncateFrom (index : Nat) : (full.truncateFrom index).entries =
    full.entries.take (max index (full.boundary + 1) - full.base - 1) := rfl

theorem terms_truncateFrom (index : Nat) : (full.truncateFrom index).terms =
    full.terms.take (max index (full.boundary + 1) - full.base - 1 + 1) := by
  rw [terms, entries_truncateFrom, List.map_take]
  rfl

theorem recordLengths_truncateFrom (index : Nat) : (full.truncateFrom index).recordLengths =
    full.recordLengths.take (max index (full.boundary + 1) - full.base - 1) := by
  rw [recordLengths, entries_truncateFrom, List.map_take]
  rfl

def compactTo (index : Nat) : FullLog where
  base := full.base
  baseTerm := full.baseTerm
  origin := full.origin
  entries := full.entries
  boundary := if index ≤ full.boundary ∨ full.lastIndex < index then full.boundary else index
  numbered := full.numbered
  ordered := full.ordered
  held := by
    have held := full.held
    split <;> omega
  reached := by
    have reached := full.reached
    rw [lastIndex]
    split <;> omega

def call : LogCall → FullLog
  | .append e => if sound : full.AppendOk e then full.append e sound else full
  | .truncateFrom index => full.truncateFrom index
  | .compactTo index _ => full.compactTo index

def calls (list : List LogCall) : FullLog := list.foldl call full

end FullLog

structure RaftLog.Refines (log : RaftLog) (full : FullLog) : Prop where
  boundary : log.snapshotIndex = full.boundary
  terms : log.terms = full.terms.drop (full.boundary - full.base)
  entries : log.entries = full.entries.drop (full.boundary - full.base)
  layout : Layout.Lays (full.position (full.boundary + 1)) log.recordLengths log.offsets log.finish

namespace RaftLog.Refines

variable {log : RaftLog} {full : FullLog}

theorem getElem?_entries (refines : log.Refines full) (k : Nat) :
    log.entries[k]? = full.entries[full.boundary - full.base + k]? := by
  rw [refines.entries, List.getElem?_drop]

theorem getElem?_terms (refines : log.Refines full) (k : Nat) :
    log.terms[k]? = full.terms[full.boundary - full.base + k]? := by
  rw [refines.terms, List.getElem?_drop]

theorem contiguous (refines : log.Refines full) : log.Contiguous := by
  intro k e found
  rw [refines.getElem?_entries] at found
  have held := full.held
  rw [full.numbered _ e found, firstIndex, refines.boundary]
  omega

theorem ordered (refines : log.Refines full) : log.terms.Pairwise (· ≤ ·) := by
  rw [refines.terms]
  exact full.ordered.drop

theorem length_entries (refines : log.Refines full) :
    log.entries.length = full.base + full.entries.length - full.boundary := by
  have held := full.held
  rw [refines.entries, List.length_drop]
  omega

theorem lastIndex (refines : log.Refines full) : log.lastIndex = full.lastIndex := by
  have reached := full.reached
  rw [refines.contiguous.lastIndex_eq, refines.length_entries, refines.boundary, FullLog.lastIndex]
  omega

theorem get (refines : log.Refines full) (index : Nat) :
    log.get index = if index ≤ full.boundary then none else full.get index := by
  have held := full.held
  split
  · next below =>
    rw [RaftLog.get, if_pos]
    rw [firstIndex, refines.boundary]
    omega
  · next above =>
    rw [refines.contiguous.get_eq (by rw [refines.boundary]; omega), refines.getElem?_entries, FullLog.get,
      if_neg (by omega), firstIndex, refines.boundary]
    congr 1
    omega

theorem sliceFrom (refines : log.Refines full) (index max : Nat) :
    log.sliceFrom index max = if index ≤ full.boundary then [] else full.sliceFrom index max := by
  have held := full.held
  rw [RaftLog.sliceFrom, firstIndex, refines.boundary, refines.lastIndex]
  by_cases below : index ≤ full.boundary
  · rw [if_pos (by omega), if_pos below]
  · rw [if_neg below, FullLog.sliceFrom]
    by_cases beyond : full.lastIndex < index
    · rw [if_pos (by omega), List.drop_eq_nil_of_le, List.take_nil]
      rw [FullLog.lastIndex] at beyond
      omega
    · rw [if_neg (by omega), refines.entries, List.drop_drop]
      congr 2
      omega

-- Above its boundary, and on it, the log knows the terms of the full one.
theorem termAt (refines : log.Refines full) (index : Nat) :
    log.termAt index =
      if index = noIndex then some 0 else if index < full.boundary then none else full.termAt index := by
  have held := full.held
  rw [RaftLog.termAt]
  split
  · rfl
  · next positive =>
    rw [FullLog.termAt, if_neg positive, refines.boundary]
    by_cases edge : index = full.boundary
    · rw [if_pos edge, edge, if_neg (lt_irrefl _), if_neg (by omega)]
      have first := refines.getElem?_terms 0
      rwa [Nat.add_zero, RaftLog.terms, List.getElem?_cons_zero] at first
    · rw [if_neg edge, refines.get]
      by_cases below : index < full.boundary
      · rw [if_pos below, if_pos below.le, Option.map_none]
      · rw [if_neg below, if_neg (by omega), if_neg (by omega), FullLog.get, if_neg (by omega), FullLog.terms,
          ← List.getElem?_map]
        -- the first term belongs to the base
        obtain ⟨k, rfl⟩ : ∃ k, index = full.base + 1 + k := ⟨index - full.base - 1, by omega⟩
        rw [show full.base + 1 + k - full.base = k + 1 by omega, List.getElem?_cons_succ]
        congr 1

theorem lastTerm (refines : log.Refines full) : log.lastTerm = full.lastTerm := by
  have own : log.terms[log.entries.length]? = some log.lastTerm :=
    terms_getLast log.snapshotTerm log.entries
  have held := full.held
  have reached := full.reached
  rw [refines.getElem?_terms, refines.length_entries,
    show full.boundary - full.base + (full.base + full.entries.length - full.boundary) = full.entries.length by omega,
    full.terms_last] at own
  exact (Option.some.inj own).symm

theorem recordLengths (refines : log.Refines full) :
    log.recordLengths = full.recordLengths.drop (full.boundary - full.base) := by
  rw [RaftLog.recordLengths, refines.entries, List.map_drop]
  rfl

theorem byteOffsetOf (refines : log.Refines full) (index : Nat) :
    log.byteOffsetOf index = if index ≤ full.boundary then 0 else full.position index := by
  have held := full.held
  rw [RaftLog.byteOffsetOf, firstIndex, refines.boundary]
  by_cases below : index ≤ full.boundary
  · rw [if_pos (by omega), if_pos below]
  · have start : full.boundary + 1 - full.base - 1 = full.boundary - full.base := by omega
    rw [if_neg (by omega), if_neg below, refines.layout.place, refines.recordLengths, FullLog.position, start,
      Layout.position_drop, FullLog.position]
    congr 1
    omega

-- The partition point is the greatest index whose term is no later.
theorem lastIndexWithTermAtMost (refines : log.Refines full) {term : Nat} (known : log.snapshotTerm ≤ term) :
    IsGreatest {index | ∃ s, full.termAt index = some s ∧ s ≤ term} (log.lastIndexWithTermAtMost term) := by
  have held := full.held
  have size : log.lastIndexWithTermAtMost term + 1 =
      full.boundary + (log.terms.takeWhile (· ≤ term)).length := by
    rw [RaftLog.lastIndexWithTermAtMost, RaftLog.terms, List.takeWhile_cons_of_pos (by simpa using known),
      List.takeWhile_map, List.length_cons, List.length_map, refines.boundary]
    rfl
  have partition := fun i => @Ascending.lt_length_takeWhile_iff _ _ _ refines.ordered term i
  have first := (partition 0).mpr ⟨_, rfl, known⟩
  constructor
  · obtain ⟨s, found, small⟩ := (partition (log.lastIndexWithTermAtMost term - full.boundary)).mp (by omega)
    rw [refines.getElem?_terms] at found
    rw [Set.mem_ofPred_eq, FullLog.termAt]
    split
    · exact ⟨0, rfl, term.zero_le⟩
    · rw [if_neg (by omega)]
      refine ⟨s, ?_, small⟩
      rw [← found]
      congr 1
      omega
  · rintro index ⟨s, found, small⟩
    rw [FullLog.termAt] at found
    split at found
    · next origin => exact origin.trans_le (Nat.zero_le _)
    · split at found
      · cases found
      · by_cases below : index < full.boundary
        · omega
        · have inside := (partition (index - full.boundary)).mpr ⟨s, ?_, small⟩
          · omega
          · rw [refines.getElem?_terms, ← found]
            congr 1
            omega

theorem append (refines : log.Refines full) {e : Entry} (sound : full.AppendOk e) :
    (log.append e).Refines (full.append e sound) := by
  have held := full.held
  have reached := full.reached
  refine ⟨refines.boundary, ?_, ?_, ?_⟩
  · have grown : (log.append e).terms = log.terms ++ [e.term] := by simp [RaftLog.terms, RaftLog.append]
    have whole : (full.append e sound).terms = full.terms ++ [e.term] := by simp [FullLog.terms, FullLog.append]
    rw [grown, whole, refines.terms]
    refine (List.drop_append_of_le_length ?_).symm
    rw [full.length_terms]
    omega
  · simp only [RaftLog.append, FullLog.append, refines.entries]
    exact (List.drop_append_of_le_length (by omega)).symm
  · have grown : (log.append e).recordLengths = log.recordLengths ++ [e.toRecord.length] := by
      simp [RaftLog.recordLengths, RaftLog.append]
    have place : (full.append e sound).position (full.boundary + 1) = full.position (full.boundary + 1) := by
      have whole : (full.append e sound).recordLengths = full.recordLengths ++ [e.toRecord.length] := by
        simp [FullLog.recordLengths, FullLog.append]
      rw [FullLog.position, whole, Layout.position_append]
      · rfl
      · rw [FullLog.recordLengths, List.length_map]
        change full.boundary + 1 - full.base - 1 ≤ _
        omega
    rw [grown]
    exact place.symm ▸ refines.layout.append _

-- A cut beyond the end takes everything, so it is no special case.
theorem truncateFrom_eq (refines : log.Refines full) (index : Nat) :
    log.truncateFrom index =
      { log with
        entries := log.entries.take (max index (full.boundary + 1) - (full.boundary + 1))
        offsets := log.offsets.take (max index (full.boundary + 1) - (full.boundary + 1))
        finish := log.offsets[max index (full.boundary + 1) - (full.boundary + 1)]?.getD log.finish } := by
  have held := full.held
  have reached := full.reached
  have count : log.offsets.length = log.entries.length :=
    refines.layout.count.trans (List.length_map _)
  have size := refines.length_entries
  simp only [RaftLog.truncateFrom, firstIndex, refines.boundary]
  split
  · rfl
  · next beyond =>
    rw [refines.lastIndex, FullLog.lastIndex] at beyond
    rw [List.take_of_length_le (by omega), List.take_of_length_le (by omega), List.getElem?_eq_none (by omega),
      Option.getD_none, ← refines.boundary]

theorem truncateFrom (refines : log.Refines full) (index : Nat) :
    (log.truncateFrom index).Refines (full.truncateFrom index) := by
  have held := full.held
  have shift : max index (full.boundary + 1) - full.base - 1 =
      full.boundary - full.base + (max index (full.boundary + 1) - (full.boundary + 1)) := by omega
  rw [refines.truncateFrom_eq]
  generalize max index (full.boundary + 1) - (full.boundary + 1) = kept at shift ⊢
  have entries : log.entries.take kept =
      (full.truncateFrom index).entries.drop (full.boundary - full.base) := by
    rw [FullLog.entries_truncateFrom, List.drop_take, ← refines.entries, shift, Nat.add_sub_cancel_left]
  refine ⟨refines.boundary, ?_, entries, ?_⟩
  · have own : (log.snapshotTerm :: (log.entries.take kept).map Entry.term) = log.terms.take (kept + 1) := by
      rw [RaftLog.terms, List.take_succ_cons, List.map_take]
    rw [FullLog.terms_truncateFrom, shift, RaftLog.terms, own, refines.terms, List.take_drop, Nat.add_assoc]
    rfl
  · have own : ((log.entries.take kept).map fun e => e.toRecord.length) = log.recordLengths.take kept :=
      List.map_take
    have place : (full.truncateFrom index).position (full.boundary + 1) = full.position (full.boundary + 1) := by
      rw [FullLog.position, FullLog.recordLengths_truncateFrom, shift]
      refine Layout.position_take ?_
      change full.boundary + 1 - full.base - 1 ≤ _
      omega
    rw [RaftLog.recordLengths, own]
    exact place.symm ▸ refines.layout.take kept

theorem compactTo (refines : log.Refines full) {index term : Nat}
    (covered : log.snapshotIndex < index → index ≤ log.lastIndex → log.termAt index = some term) :
    (log.compactTo index term).Refines (full.compactTo index) := by
  have held := full.held
  rw [RaftLog.compactTo]
  rw [refines.boundary, refines.lastIndex] at covered ⊢
  split
  · next outside =>
    have stays : (full.compactTo index).boundary = full.boundary := if_pos outside
    refine ⟨?_, ?_, ?_, ?_⟩ <;> rw [stays]
    · exact refines.boundary
    · exact refines.terms
    · exact refines.entries
    · exact refines.layout
  · next inside =>
    have moves : (full.compactTo index).boundary = index := if_neg inside
    have known := covered (by omega) (by omega)
    have shift : full.boundary - full.base + (index - full.boundary) = index - full.base := by omega
    refine ⟨moves.symm, ?_, ?_, ?_⟩ <;> rw [moves]
    · -- the term told is that of the last entry dropped
      have first : log.terms[index - full.boundary]? = some term := by
        rw [refines.termAt, FullLog.termAt] at known
        split at known
        · next origin => exact absurd (origin.trans_le (Nat.zero_le full.boundary)) (by omega)
        · rw [if_neg (by omega), if_neg (by omega)] at known
          rw [refines.getElem?_terms, shift, known]
      obtain ⟨within, here⟩ := List.getElem?_eq_some_iff.mp first
      have rest : log.terms.drop (index - full.boundary + 1) =
          (log.entries.drop (index - full.boundary)).map Entry.term := by
        rw [RaftLog.terms, List.drop_succ_cons, List.map_drop]
      have own : log.terms.drop (index - full.boundary) =
          term :: (log.entries.drop (index - full.boundary)).map Entry.term := by
        rw [List.drop_eq_getElem_cons within, here, rest]
      rw [RaftLog.terms, ← own, refines.terms, List.drop_drop, shift]
      rfl
    · change log.entries.drop (index - full.boundary) = full.entries.drop (index - full.base)
      rw [refines.entries, List.drop_drop, shift]
    · have own : ((log.entries.drop (index - full.boundary)).map fun e => e.toRecord.length) =
          log.recordLengths.drop (index - full.boundary) := List.map_drop
      have place : (full.compactTo index).position (index + 1) = Layout.position (full.position (full.boundary + 1))
          log.recordLengths (index - full.boundary) := by
        rw [refines.recordLengths, FullLog.position, FullLog.position,
          show full.boundary + 1 - full.base - 1 = full.boundary - full.base by omega, Layout.position_drop, shift]
        have base : (full.compactTo index).base = full.base := rfl
        rw [base, show index + 1 - full.base - 1 = index - full.base by omega]
        rfl
      rw [RaftLog.recordLengths, own]
      exact place.symm ▸ refines.layout.drop _

theorem call (refines : log.Refines full) {call : LogCall} (allowed : log.CallOk call) :
    (log.call call).Refines (full.call call) := by
  cases call with
  | append e =>
    have sound : full.AppendOk e := by
      rw [FullLog.AppendOk, ← refines.lastIndex, ← refines.lastTerm]
      exact allowed
    rw [FullLog.call, dif_pos sound]
    exact refines.append sound
  | truncateFrom index => exact refines.truncateFrom index
  | compactTo index term => exact refines.compactTo allowed

theorem calls (refines : log.Refines full) {list : List LogCall} (allowed : log.CallsOk list) :
    (log.calls list).Refines (full.calls list) := by
  induction list generalizing log full with
  | nil => exact refines
  | cons call rest ih => exact ih (refines.call allowed.1) allowed.2

end RaftLog.Refines

namespace RaftLog

variable {log : RaftLog}

def LaidOut.full (laid : log.LaidOut) : FullLog where
  base := log.snapshotIndex
  baseTerm := log.snapshotTerm
  origin := log.offsets[0]?.getD log.finish
  entries := log.entries
  boundary := log.snapshotIndex
  numbered := laid.contiguous
  ordered := laid.ordered
  held := le_rfl
  reached := Nat.le_add_right _ _

theorem LaidOut.refines (laid : log.LaidOut) : log.Refines laid.full where
  boundary := rfl
  terms := by
    change log.terms = log.terms.drop (log.snapshotIndex - log.snapshotIndex)
    rw [Nat.sub_self, List.drop_zero]
  entries := by
    change log.entries = log.entries.drop (log.snapshotIndex - log.snapshotIndex)
    rw [Nat.sub_self, List.drop_zero]
  layout := by
    have lays := Layout.lays_of_consecutive laid.count laid.consecutive
    have place : laid.full.position (log.snapshotIndex + 1) = log.offsets[0]?.getD log.finish := by
      change Layout.position _ _ (log.snapshotIndex + 1 - log.snapshotIndex - 1) = _
      rw [Nat.add_sub_cancel_left, Nat.sub_self, Layout.position, List.take_zero, List.sum_nil, Nat.add_zero]
      rfl
    exact place.symm ▸ lays

-- A log that refines a full one is laid out as it should be.
theorem Refines.laidOut {full : FullLog} (refines : log.Refines full) : log.LaidOut where
  contiguous := refines.contiguous
  ordered := refines.ordered
  count := refines.layout.count
  consecutive := by
    intro k offset n here size
    have start := refines.layout.place k
    rw [here, Option.getD_some] at start
    rw [refines.layout.place, Layout.position_succ size, start]

theorem laidOut_empty (index term : Nat) : LaidOut { snapshotIndex := index, snapshotTerm := term } where
  contiguous := by
    intro k e found
    cases found
  ordered := List.pairwise_singleton _ _
  count := rfl
  consecutive := by
    intro k offset n found
    cases found

theorem LaidOut.calls (laid : log.LaidOut) {list : List LogCall} (allowed : log.CallsOk list) :
    (log.calls list).LaidOut := (laid.refines.calls allowed).laidOut

theorem fromSnapshot_laidOut {index term : Nat} {entries : List Entry}
    (sound : AppendsOk { snapshotIndex := index, snapshotTerm := term } entries) :
    (RaftLog.fromSnapshot index term entries).LaidOut := by
  have appends : ∀ (entries : List Entry) (log : RaftLog), log.AppendsOk entries →
      log.CallsOk (entries.map .append) ∧ log.calls (entries.map .append) = log.appendAll entries := by
    intro entries
    induction entries with
    | nil => exact fun log _ => ⟨trivial, rfl⟩
    | cons e rest ih => exact fun log sound => ⟨⟨sound.1, (ih _ sound.2).1⟩, (ih _ sound.2).2⟩
  obtain ⟨allowed, same⟩ := appends entries { snapshotIndex := index, snapshotTerm := term } sound
  rw [RaftLog.fromSnapshot, ← same]
  exact (laidOut_empty index term).calls allowed

/-- The two ways to open a log. The second one takes the parts of a file as they are. -/
inductive Opened : RaftLog → Prop where
  | fromSnapshot (index term : Nat) (entries : List Entry)
      (sound : AppendsOk { snapshotIndex := index, snapshotTerm := term } entries) :
      Opened (RaftLog.fromSnapshot index term entries)
  | fromParts (log : RaftLog) (laid : log.LaidOut) : Opened log

theorem Opened.laidOut (opened : log.Opened) : log.LaidOut := by
  cases opened with
  | fromSnapshot index term entries sound => exact fromSnapshot_laidOut sound
  | fromParts log laid => exact laid

/-- Everything a log says agrees with the full one, as far as the log still says it. -/
structure Answers (log : RaftLog) (full : FullLog) : Prop where
  boundary : log.snapshotIndex = full.boundary
  get : ∀ index, log.get index = if index ≤ full.boundary then none else full.get index
  sliceFrom : ∀ index max, log.sliceFrom index max =
    if index ≤ full.boundary then [] else full.sliceFrom index max
  termAt : ∀ index, log.termAt index =
    if index = noIndex then some 0 else if index < full.boundary then none else full.termAt index
  lastIndex : log.lastIndex = full.lastIndex
  lastTerm : log.lastTerm = full.lastTerm
  atMost : ∀ term, log.snapshotTerm ≤ term →
    IsGreatest {index | ∃ s, full.termAt index = some s ∧ s ≤ term} (log.lastIndexWithTermAtMost term)
  laidOut : log.LaidOut
  byteOffsetOf : ∀ index, log.byteOffsetOf index = if index ≤ full.boundary then 0 else full.position index
  byteLen : log.finish = full.position (full.lastIndex + 1)
  -- The assertions of `append` hold of both or of neither.
  append : ∀ e, log.AppendOk e ↔ full.AppendOk e

theorem Refines.answers {full : FullLog} (refines : log.Refines full) : log.Answers full where
  boundary := refines.boundary
  get := refines.get
  sliceFrom := refines.sliceFrom
  termAt := refines.termAt
  lastIndex := refines.lastIndex
  lastTerm := refines.lastTerm
  atMost := fun _ known => refines.lastIndexWithTermAtMost known
  laidOut := refines.laidOut
  byteOffsetOf := refines.byteOffsetOf
  byteLen := by
    have reached := full.reached
    have finish := refines.byteOffsetOf (full.lastIndex + 1)
    rw [if_neg (by rw [FullLog.lastIndex]; omega)] at finish
    have count := refines.laidOut.count
    have size := refines.length_entries
    rw [RaftLog.recordLengths, List.length_map] at count
    rw [← finish, RaftLog.byteOffsetOf, firstIndex, refines.boundary, FullLog.lastIndex, if_neg (by omega),
      List.getElem?_eq_none (by omega), Option.getD_none]
  append := fun e => by rw [AppendOk, FullLog.AppendOk, refines.lastIndex, refines.lastTerm]

/-- Whatever is appended, cut off and compacted, the log goes on as the full one does. Indices are those of a log whose
last one has another behind it: `first_index` and `last_index + 1` overflow at the end of the `u64`s. -/
theorem calls_answer (opened : log.Opened) {list : List LogCall} (allowed : log.CallsOk list) :
    (log.calls list).Answers (opened.laidOut.full.calls list) :=
  (opened.laidOut.refines.calls allowed).answers

instance (log : RaftLog) : (call : LogCall) → Decidable (log.CallOk call)
  | .append e => inferInstanceAs (Decidable (log.AppendOk e))
  | .truncateFrom _ => isTrue trivial
  | .compactTo index term => inferInstanceAs (Decidable (_ < index → index ≤ _ → log.termAt index = some term))

instance : (log : RaftLog) → (list : List LogCall) → Decidable (log.CallsOk list)
  | _, [] => isTrue trivial
  | log, call :: rest => @instDecidableAnd _ _ _ (instDecidableCallsOk (log.call call) rest)

def mixedCalls : List LogCall :=
  [.append { term := 1, index := 3, cmd := .noop }, .append { term := 1, index := 4, cmd := .noop },
    .truncateFrom 4, .append { term := 2, index := 4, cmd := .noop }, .compactTo 4 2, .truncateFrom 1,
    .append { term := 5, index := 5, cmd := .noop }]

theorem calls_answer_mixed :
    ((RaftLog.fromSnapshot 2 1 []).calls mixedCalls).byteOffsetOf 5 = 74 ∧
      ((RaftLog.fromSnapshot 2 1 []).calls mixedCalls).get 4 = none := by
  have answers := @calls_answer _ (.fromSnapshot 2 1 [] trivial) mixedCalls (by decide)
  exact ⟨(answers.byteOffsetOf 5).trans (by decide), answers.get 4⟩

end RaftLog

end SimKv
