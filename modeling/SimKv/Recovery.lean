import SimKv.Journal
import SimKv.Lib.Crc

set_option autoImplicit false

/-!
# Log recovery on arbitrary bytes

Whatever the file holds, recovery returns the longest run of records at its front. Entries have one encoding
only, so the bytes of the run are the records of the entries; and a checksum that notices any one changed byte
keeps a damaged record out.
-/

namespace SimKv

open Codec

namespace Codec.Dec

-- `item.Reads used` relates the bytes that `item` takes off its input to the value they stand for.

def Reads {α : Type} (item : Dec α) (used : Bytes → α → Prop) : Prop :=
  ∀ input value rest, item input = .ok (value, rest) → ∃ front, input = front ++ rest ∧ used front value

abbrev Canonical {α : Type} (item : Dec α) (encode : α → Bytes) : Prop :=
  item.Reads fun front value => front = encode value

namespace Reads

variable {α β : Type} {item : Dec α} {used : Bytes → α → Prop} {encode : α → Bytes}

theorem bind {next : α → Dec β} {fine : Bytes → β → Prop} (first : item.Reads used)
    (second : ∀ front value, used front value → (next value).Reads fun more result => fine (front ++ more) result) :
    (item >>= next).Reads fine := by
  intro input result rest run
  obtain ⟨value, middle, read, after⟩ := run_bind_inv run
  obtain ⟨front, shape, good⟩ := first input value middle read
  obtain ⟨more, rfl, better⟩ := second front value good middle result rest after
  exact ⟨front ++ more, by rw [shape, List.append_assoc], better⟩

theorem pure {value : α} (holds : used [] value) : (Pure.pure value : Dec α).Reads used := by
  intro input got rest run
  cases run
  exact ⟨[], rfl, holds⟩

theorem throw {e : DecodeError} : (MonadExcept.throw e : Dec α).Reads used := by
  intro input value rest run
  cases run

theorem mono {better : Bytes → α → Prop} (reads : item.Reads used)
    (weaker : ∀ front value, used front value → better front value) : item.Reads better := by
  intro input value rest run
  obtain ⟨front, shape, good⟩ := reads input value rest run
  exact ⟨front, shape, weaker front value good⟩

theorem many {count : Nat} (each : item.Canonical encode) :
    (Dec.many item count).Reads fun front values => values.length = count ∧ front = values.flatMap encode := by
  induction count with
  | zero => exact pure ⟨rfl, rfl⟩
  | succ count ih =>
    refine each.bind fun front head here => ih.bind fun more tail rest => pure ⟨?_, ?_⟩
    · rw [List.length_cons, rest.1]
    · rw [List.flatMap_cons, here, rest.2, List.append_nil]

end Reads

theorem take_reads (count : Nat) : (take count).Reads fun front raw => front = raw ∧ raw.length = count := by
  intro input raw rest run
  unfold take at run
  split at run
  · cases run
  · next enough =>
    cases run
    exact ⟨_, (List.take_append_drop count input).symm, rfl, by
      rw [List.length_take, min_eq_left (not_lt.mp enough)]⟩

theorem u8_canonical : u8.Canonical Enc.u8 := by
  refine (take_reads 1).bind fun front raw taken => .pure ?_
  rw [List.append_nil, taken.1, Enc.u8, ← taken.2, LittleEndian.encode_decode]

theorem u32_canonical : u32.Canonical Enc.u32 := by
  refine (take_reads 4).bind fun front raw taken => .pure ?_
  rw [List.append_nil, taken.1, Enc.u32, ← taken.2, LittleEndian.encode_decode]

theorem u64_canonical : u64.Canonical Enc.u64 := by
  refine (take_reads 8).bind fun front raw taken => .pure ?_
  rw [List.append_nil, taken.1, Enc.u64, ← taken.2, LittleEndian.encode_decode]

theorem node_canonical : node.Canonical Enc.node := by
  intro input id rest run
  obtain ⟨value, middle, read, run⟩ := run_bind_inv run
  obtain ⟨front, shape, here⟩ := u32_canonical input value middle read
  have small := u32_yields input value middle read
  cases run
  refine ⟨front, shape, ?_⟩
  rw [here]
  exact congrArg Enc.u32 (UInt32.toNat_ofNat_of_lt' small).symm

theorem bytes_canonical : bytes.Canonical Enc.bytes := by
  refine u32_canonical.bind fun front count here => ?_
  split
  · exact .throw
  · refine (take_reads count).mono fun more raw taken => ?_
    rw [here, Enc.bytes, taken.1, taken.2]

theorem string_canonical : string.Canonical Enc.str := by
  refine bytes_canonical.bind fun front raw here => ?_
  split
  · next text read =>
    refine .pure ?_
    unfold String.fromUTF8? at read
    split at read
    · cases read
      rw [List.append_nil, here]
      rfl
    · cases read
  · exact .throw

theorem optString_canonical : optString.Canonical Enc.optStr := by
  refine u8_canonical.bind fun front tag here => ?_
  subst here
  split
  · exact .pure rfl
  · refine string_canonical.bind fun more text there => .pure ?_
    rw [there, List.append_nil]
    rfl
  · exact .throw

end Codec.Dec

theorem Op.decode_canonical : Op.decode.Canonical Op.encode := by
  refine Dec.u8_canonical.bind fun front tag here => ?_
  subst here
  split
  · exact .pure rfl
  · refine Dec.string_canonical.bind fun _ key here => .pure ?_
    rw [here, List.append_nil]
    rfl
  · refine Dec.string_canonical.bind fun _ key first => Dec.string_canonical.bind fun _ value second => .pure ?_
    rw [first, second, List.append_nil]
    rfl
  · refine Dec.string_canonical.bind fun _ key here => .pure ?_
    rw [here, List.append_nil]
    rfl
  · refine Dec.string_canonical.bind fun _ key first => Dec.optString_canonical.bind fun _ expect second =>
      Dec.string_canonical.bind fun _ value third => .pure ?_
    rw [first, second, third, List.append_nil]
    rfl
  · refine Dec.u32_canonical.bind fun _ count first => ?_
    split
    · exact .throw
    · refine (Dec.Reads.many Dec.node_canonical).bind fun _ members second => .pure ?_
      rw [first, second.2, ← second.1, List.append_nil]
      rfl
  · exact .throw

theorem Command.decode_canonical : Command.decode.Canonical Command.encode := by
  refine Dec.u32_canonical.bind fun _ client first => Dec.u64_canonical.bind fun _ seq second =>
    Op.decode_canonical.bind fun _ op third => .pure ?_
  rw [first, second, third, List.append_nil]
  rfl

theorem Entry.decode_canonical : Entry.decode.Canonical Entry.encode := by
  refine Dec.u64_canonical.bind fun _ term first => Dec.u64_canonical.bind fun _ index second =>
    Command.decode_canonical.bind fun _ cmd third => .pure ?_
  rw [first, second, third, List.append_nil]
  rfl

-- A record starts with the encoding of its length and its checksum.
theorem split_frame {bytes : Bytes} (long : 8 ≤ bytes.length) :
    bytes = Enc.u32 (LittleEndian.decode (bytes.take 4)) ++
      (Enc.u32 (LittleEndian.decode ((bytes.drop 4).take 4)) ++ bytes.drop 8) := by
  have first : (bytes.take 4).length = 4 := by rw [List.length_take]; omega
  have second : ((bytes.drop 4).take 4).length = 4 := by rw [List.length_take, List.length_drop]; omega
  have len := LittleEndian.encode_decode (bytes.take 4)
  have crc := LittleEndian.encode_decode ((bytes.drop 4).take 4)
  rw [first] at len
  rw [second] at crc
  have rest : bytes.drop 8 = (bytes.drop 4).drop 4 := by rw [List.drop_drop]
  rw [Enc.u32, Enc.u32, len, crc, rest, List.take_append_drop, List.take_append_drop]

-- Whatever is read as a record is the record of the entry that was read.
theorem readRecord_inv {bytes : Bytes} {e : Entry} {size : Nat} (read : readRecord bytes = some (e, size)) :
    e.Intact ∧ size = e.toRecord.length ∧ ∃ rest, bytes = e.toRecord ++ rest := by
  unfold readRecord at read
  split at read
  · cases read
  · next long =>
    have shape := split_frame (not_lt.mp long)
    simp only at read
    generalize LittleEndian.decode (bytes.take 4) = len at read shape
    generalize LittleEndian.decode ((bytes.drop 4).take 4) = crc at read shape
    split at read
    · cases read
    · next fits =>
      push Not at fits
      obtain ⟨some_, small, enough⟩ := fits
      split at read
      · cases read
      · next checked =>
        split at read
        · next got left run =>
          obtain ⟨rfl, rfl⟩ := Prod.mk.inj (Option.some.inj read)
          obtain ⟨head, middle, first, run⟩ := Dec.run_bind_inv run
          obtain ⟨_, last, finished, run⟩ := Dec.run_bind_inv run
          cases run
          have none_left : middle = [] := by
            unfold Dec.finish at finished
            split at finished
            · next empty => exact List.isEmpty_iff.mp empty
            · cases finished
          obtain ⟨front, payload, rfl⟩ := Entry.decode_canonical _ _ _ first
          have valid := Entry.decode_yields _ _ _ first
          rw [none_left, List.append_nil] at payload
          have size : len = got.encode.length := by
            rw [← payload, List.length_take, List.length_drop]
            omega
          have record : bytes = got.toRecord ++ (bytes.drop 8).drop len := by
            conv_lhs => rw [shape, ← List.take_append_drop len (bytes.drop 8), payload]
            rw [Entry.toRecord, crcBytes, ← payload, not_not.mp checked, payload, size]
            simp only [List.append_assoc]
          refine ⟨Entry.intact_of_length_le valid (size ▸ small), ?_, _, record⟩
          rw [Entry.toRecord_length, size]
        · cases read

-- Any bytes are a run of records and a rest that does not continue it.
theorem exists_run (bytes : Bytes) (expected floor : Nat) :
    ∃ es tail, bytes = records es ++ tail ∧ (∀ e ∈ es, e.Intact) ∧ Follows expected floor es ∧
      Stops (expected + es.length) (floorAfter floor es) tail := by
  induction size : bytes.length using Nat.strong_induction_on generalizing bytes expected floor with
  | h n ih =>
    by_cases stops : Stops expected floor bytes
    · exact ⟨[], bytes, rfl, nofun, trivial, stops⟩
    · simp only [Stops, not_forall, not_not] at stops
      obtain ⟨e, used, read, index, term⟩ := stops
      obtain ⟨intact, -, rest, rfl⟩ := readRecord_inv read
      have shorter : rest.length < n := by
        rw [← size, List.length_append, e.toRecord_length]
        omega
      obtain ⟨es, tail, rfl, others, follows, stops⟩ := ih rest.length shorter rest (expected + 1) e.term rfl
      refine ⟨e :: es, tail, ?_, ?_, ⟨index, term, follows⟩, ?_⟩
      · rw [records_cons, List.append_assoc]
      · intro r member
        obtain rfl | member := List.mem_cons.mp member
        · exact intact
        · exact others r member
      · rw [List.length_cons, floorAfter_cons, ← Nat.add_assoc, Nat.add_right_comm]
        exact stops

theorem follows_append_singleton {expected floor : Nat} {es : List Entry} {e : Entry} :
    Follows expected floor (es ++ [e]) ↔
      Follows expected floor es ∧ e.index = expected + es.length ∧ floorAfter floor es ≤ e.term := by
  induction es generalizing expected floor with
  | nil => exact ⟨fun h => ⟨trivial, h.1, h.2.1⟩, fun h => ⟨h.2.1, h.2.2, trivial⟩⟩
  | cons head rest ih =>
    rw [List.cons_append, Follows, Follows, ih, floorAfter_cons, List.length_cons, Nat.add_right_comm,
      Nat.add_assoc expected]
    tauto

-- Two intact records at the front of the same bytes are one.
theorem Entry.Intact.unique {e other : Entry} (intact : e.Intact) (also : other.Intact) {rest left : Bytes}
    (same : e.toRecord ++ rest = other.toRecord ++ left) : e = other ∧ rest = left := by
  have read := readRecord_append intact rest
  rw [same, readRecord_append also left] at read
  obtain ⟨rfl, -⟩ := Prod.mk.inj (Option.some.inj read)
  exact ⟨rfl, List.append_cancel_left same⟩

-- A run of records at the front of some bytes is part of the longest one.
theorem leads_longest {es found : List Entry} {expected floor : Nat} (intact : ∀ e ∈ es, e.Intact)
    (follows : Follows expected floor es) (foundIntact : ∀ e ∈ found, e.Intact) {rest tail : Bytes}
    (same : records es ++ rest = records found ++ tail)
    (stops : Stops (expected + found.length) (floorAfter floor found) tail) : es <+: found := by
  induction es generalizing expected floor found with
  | nil => exact List.nil_prefix
  | cons e es ih =>
    obtain ⟨index, term, later⟩ := follows
    have here := intact e List.mem_cons_self
    rw [records_cons, List.append_assoc] at same
    cases found with
    | nil =>
      have read := readRecord_append here (records es ++ rest)
      rw [same] at read
      exact absurd ⟨index, term⟩ (stops e _ read)
    | cons other found =>
      rw [records_cons, List.append_assoc] at same
      obtain ⟨rfl, behind⟩ := here.unique (foundIntact other List.mem_cons_self) same
      rw [List.length_cons, floorAfter_cons, ← Nat.add_assoc, Nat.add_right_comm] at stops
      have more := ih (fun r member => intact r (List.mem_cons_of_mem _ member)) later
        (fun r member => foundIntact r (List.mem_cons_of_mem _ member)) behind stops
      exact (List.prefix_cons_inj e).mpr more

-- A file whose first record is intact begins where its first entry says.
theorem firstIndexOf_records {e : Entry} {rest : List Entry} {first floor : Nat} (intact : e.Intact)
    (follows : Follows first floor (e :: rest)) (starts : 1 ≤ first) (tail : Bytes) :
    firstIndexOf (records (e :: rest) ++ tail) = first := by
  rw [records_cons, List.append_assoc, firstIndexOf_record intact.valid.1, follows.1]
  exact max_eq_left starts

/-- On any bytes, recovery returns the longest run of records at the front whose indices follow each other from
`first` and whose terms never decrease, and says whether anything is left behind it. If there is a run at all,
its beginning need not be known. -/
theorem recoverLogFrom_longest (bytes : Bytes) (first : Nat) :
    let r := recoverLogFrom bytes first
    r.validBytes ≤ bytes.length ∧ bytes.take r.validBytes = records r.entries ∧
      r.offsets = recordStarts 0 r.entries ∧ Follows first 0 r.entries ∧
      (r.damaged = true ↔ r.validBytes < bytes.length) ∧
      (∀ e size, readRecord (bytes.drop r.validBytes) = some (e, size) → ¬ Follows first 0 (r.entries ++ [e])) ∧
      (∀ es rest, (∀ e ∈ es, e.Intact) → Follows first 0 es → bytes = records es ++ rest → es <+: r.entries) ∧
      (1 ≤ first → r.entries ≠ [] → recoverLogAnyStart bytes = r) := by
  obtain ⟨es, tail, rfl, intact, follows, stops⟩ := exists_run bytes first 0
  have run := recoverLogFrom_run intact follows stops
  simp only [run, List.length_append, List.take_left, List.drop_left]
  refine ⟨Nat.le_add_right _ _, trivial, trivial, follows, ?_, ?_, ?_, ?_⟩
  · cases tail <;> simp
  · intro e size read more
    exact stops e size read (follows_append_singleton.mp more).2
  · intro others rest fine also same
    exact leads_longest fine also intact same.symm stops
  · intro starts some_
    cases es with
    | nil => exact absurd rfl some_
    | cons e rest =>
      rw [recoverLogAnyStart, firstIndexOf_records (intact e List.mem_cons_self) follows starts, run]

def recoverLog (bytes : Bytes) : RecoveredLog := recoverLogFrom bytes 1

theorem mask_toBitVec (crc : UInt32) :
    (0 - (crc &&& 1)).toBitVec = if crc.toBitVec.getLsbD 0 then BitVec.allOnes 32 else 0 := by
  have one : crc.toBitVec &&& 1#32 = if crc.toBitVec.getLsbD 0 then 1#32 else 0#32 := by
    refine BitVec.eq_of_getLsbD_eq fun i _ => ?_
    rw [BitVec.getLsbD_and, BitVec.getLsbD_one]
    cases i with
    | zero => cases crc.toBitVec.getLsbD 0 <;> simp
    | succ i => cases crc.toBitVec.getLsbD 0 <;> simp
  have whole : (0 - (crc &&& 1)).toBitVec = 0#32 - (crc.toBitVec &&& 1#32) := rfl
  rw [whole, one]
  cases crc.toBitVec.getLsbD 0 <;> rfl

theorem crc32Bit_toBitVec (crc : UInt32) : (crc32Bit crc).toBitVec = Crc.shift 0xEDB88320#32 crc.toBitVec := by
  have whole : (crc32Bit crc).toBitVec = (crc.toBitVec >>> 1) ^^^ (0xEDB88320#32 &&& (0 - (crc &&& 1)).toBitVec) :=
    rfl
  rw [whole, mask_toBitVec, Crc.shift]
  cases crc.toBitVec.getLsbD 0
  · simp
  · simp

theorem crc32Bit_injective : Function.Injective crc32Bit := by
  intro a b same
  refine UInt32.toBitVec_inj.mp (Crc.shift_injective (by decide : (0xEDB88320#32).getLsbD (32 - 1) = true) ?_)
  rw [← crc32Bit_toBitVec, ← crc32Bit_toBitVec, same]

theorem repeat_injective {α : Type} {f : α → α} (injective : Function.Injective f) (count : Nat) :
    Function.Injective (Nat.repeat f count) := by
  induction count with
  | zero => exact fun _ _ same => same
  | succ count ih => exact fun _ _ same => ih (injective same)

theorem crc32Byte_injective (byte : UInt8) : Function.Injective fun crc => crc32Byte crc byte := by
  intro a b same
  exact (UInt32.xor_left_inj _).mp (repeat_injective crc32Bit_injective 8 same)

theorem crc32Byte_byte_injective (crc : UInt32) : Function.Injective (crc32Byte crc) := by
  intro a b same
  have wide := (UInt32.xor_right_inj _).mp (repeat_injective crc32Bit_injective 8 same)
  exact UInt8.toUInt32_inj.mp wide

-- The checksum notices any one changed byte, wherever it is and however long the data.
theorem crc32_set_ne {data : Bytes} {i : Nat} (inside : i < data.length) {value : UInt8} (changed : data[i] ≠ value) :
    crc32 (data.set i value) ≠ crc32 data := by
  intro same
  exact Crc.foldl_set_ne crc32Byte_injective crc32Byte_byte_injective inside changed _
    (UInt32.not_inj.mp same)

def Entry.header (e : Entry) : Bytes := Enc.u32 e.encode.length ++ crcBytes e.encode

theorem Entry.header_length (e : Entry) : e.header.length = 8 := by
  simp [header, crcBytes, Enc.u32]

theorem Entry.toRecord_eq (e : Entry) : e.toRecord = e.header ++ e.encode := (List.append_assoc ..).symm

-- No entry's encoding begins with another's.
theorem Entry.Valid.encode_unique {e other : Entry} (valid : e.Valid) (also : other.Valid) {rest left : Bytes}
    (same : e.encode ++ rest = other.encode ++ left) : e = other := by
  have read := Entry.decode_encode valid rest
  rw [same, Entry.decode_encode also left] at read
  cases read
  rfl

-- Entries with the same header have encodings of one length and one checksum.
theorem Entry.Valid.header_inj {e other : Entry} (valid : e.Valid) (also : other.Valid)
    (same : e.header = other.header) : e.encode.length = other.encode.length ∧ crc32 e.encode = crc32 other.encode := by
  obtain ⟨len, crc⟩ := List.append_inj same (by simp [Enc.u32])
  refine ⟨?_, ?_⟩
  · exact LittleEndian.encode_injective (Entry.encode_length_lt valid) (Entry.encode_length_lt also) len
  · exact UInt32.toNat_inj.mp (LittleEndian.encode_injective (crc32 _).toNat_lt (crc32 _).toNat_lt crc)

-- With any one byte changed, a record is not read: a length or a checksum would need another entry with the
-- same encoding in front, and another entry would need the same checksum.
theorem readRecord_set {e : Entry} (valid : e.Valid) {i : Nat} (inside : i < e.toRecord.length) {value : UInt8}
    (changed : e.toRecord[i] ≠ value) (rest : Bytes) : readRecord (e.toRecord.set i value ++ rest) = none := by
  cases read : readRecord (e.toRecord.set i value ++ rest) with
  | none => rfl
  | some pair =>
    obtain ⟨intact, -, left, same⟩ := readRecord_inv read
    have other := intact.valid.1
    simp only [Entry.toRecord_eq] at same inside changed
    rcases Nat.lt_or_ge i 8 with inHeader | inPayload
    · have here : i < e.header.length := by rw [e.header_length]; exact inHeader
      rw [List.set_append_left _ _ here, List.append_assoc, List.append_assoc] at same
      obtain ⟨header, payload⟩ := List.append_inj same (by rw [List.length_set, e.header_length, pair.1.header_length])
      rw [← valid.encode_unique other payload] at header
      have place : i < (e.header.set i value).length := by rwa [List.length_set]
      have back := List.getElem_of_eq header place
      rw [List.getElem_set_self] at back
      rw [List.getElem_append_left here] at changed
      exact absurd back.symm changed
    · have behind : e.header.length ≤ i := by rw [e.header_length]; exact inPayload
      rw [List.set_append_right _ _ behind, List.append_assoc, List.append_assoc] at same
      obtain ⟨header, payload⟩ := List.append_inj same (by rw [e.header_length, pair.1.header_length])
      obtain ⟨size, checksum⟩ := valid.header_inj other header
      obtain ⟨encoding, -⟩ := List.append_inj payload (by rw [List.length_set, size])
      rw [List.getElem_append_right behind] at changed
      rw [List.length_append] at inside
      exact absurd (encoding ▸ checksum.symm) (crc32_set_ne (by omega) changed)

theorem readRecord_zeros {size : Nat} (long : 8 ≤ size) (rest : Bytes) :
    readRecord (List.replicate size 0 ++ rest) = none := by
  have len : (List.replicate size 0 ++ rest).take 4 = List.replicate 4 (0 : UInt8) := by
    rw [List.take_append_of_le_length (by rw [List.length_replicate]; omega), List.take_replicate,
      min_eq_left (by omega)]
  unfold readRecord
  split
  · rfl
  · rw [len]
    exact if_pos (.inl rfl)

-- A cut record is not read.
theorem readRecord_take {e : Entry} (intact : e.Intact) {cut : Nat} (short : cut < e.toRecord.length) :
    readRecord (e.toRecord.take cut) = none := by
  cases read : readRecord (e.toRecord.take cut) with
  | none => rfl
  | some pair =>
    obtain ⟨also, -, left, same⟩ := readRecord_inv read
    have whole : e.toRecord ++ [] = pair.1.toRecord ++ (left ++ e.toRecord.drop cut) := by
      rw [← List.append_assoc, ← same, List.take_append_drop, List.append_nil]
    obtain ⟨rfl, -⟩ := intact.unique also whole
    have sizes := congrArg List.length same
    rw [List.length_take, List.length_append] at sizes
    omega

-- Every byte of a file is in one of its records.
theorem exists_record {es : List Entry} {i : Nat} (inside : i < (records es).length) :
    ∃ before e after j, es = before ++ e :: after ∧ j < e.toRecord.length ∧ i = (records before).length + j := by
  induction es generalizing i with
  | nil => exact absurd inside (Nat.not_lt_zero i)
  | cons e rest ih =>
    rcases Nat.lt_or_ge i e.toRecord.length with here | behind
    · exact ⟨[], e, rest, i, rfl, here, (Nat.zero_add i).symm⟩
    · rw [records_cons, List.length_append] at inside
      obtain ⟨before, r, after, j, rfl, small, place⟩ := ih (i := i - e.toRecord.length) (by omega)
      refine ⟨e :: before, r, after, j, rfl, small, ?_⟩
      rw [records_cons, List.length_append]
      omega

def damagedAfter (before : List Entry) : RecoveredLog :=
  ⟨before, recordStarts 0 before, (records before).length, true⟩

theorem recoverLog_damaged {before after : List Entry} (intact : ∀ r ∈ before ++ after, r.Intact)
    (follows : Follows 1 0 (before ++ after)) {tail : Bytes} (some_ : tail ≠ []) (unread : readRecord tail = none) :
    recoverLog (records before ++ tail) = damagedAfter before := by
  rw [recoverLog, recoverLogFrom_run (fun r member => intact r (List.mem_append_left _ member)) follows.left
    (Stops.of_unread unread _ _), List.isEmpty_eq_false_iff.mpr some_]
  rfl

theorem recoverLog_whole {before after : List Entry} (intact : ∀ r ∈ before ++ after, r.Intact)
    (follows : Follows 1 0 (before ++ after)) :
    recoverLog (records before) = ⟨before, recordStarts 0 before, (records before).length, false⟩ := by
  have run := recoverLogFrom_run (fun r member => intact r (List.mem_append_left _ member)) follows.left
    (Stops.of_unread readRecord_nil _ _)
  rw [List.append_nil] at run
  exact run

def Boundary (es : List Entry) (place : Nat) : Prop := ∃ front, front <+: es ∧ place = (records front).length

theorem not_boundary {before after : List Entry} {e : Entry} {j : Nat} (some_ : 0 < j) (short : j < e.toRecord.length) :
    ¬ Boundary (before ++ e :: after) ((records before).length + j) := by
  rintro ⟨front, ⟨back, split⟩, place⟩
  obtain ⟨gap, shape, -⟩ | ⟨gap, shape, rest⟩ := List.append_eq_append_iff.mp split
  · rw [shape, records_append, List.length_append] at place
    omega
  · rw [shape, records_append, List.length_append] at place
    cases gap with
    | nil =>
      have empty : (records []).length = 0 := rfl
      omega
    | cons head gap =>
      obtain ⟨rfl, -⟩ := List.cons.inj rest
      rw [records_cons, List.length_append] at place
      omega

/-- From the file of any entries that follow each other, each short enough for a record: cut anywhere, the
entries whose whole record survives are returned, and the cut shows unless it is at a boundary; with any one
byte changed, and with any one record overwritten by zeros, whatever is left behind it, the entries before that
record are returned and the damage shows. -/
theorem damaged_log_recovered {es : List Entry} (fine : ∀ e ∈ es, e.Valid ∧ e.encode.length ≤ maxRecord)
    (follows : Follows 1 0 es) :
    (∀ cut ≤ (records es).length, ∃ before after, es = before ++ after ∧ (records before).length ≤ cut ∧
      (∀ e rest, after = e :: rest → cut < (records (before ++ [e])).length) ∧
      ∃ damaged, recoverLog ((records es).take cut) =
          ⟨before, recordStarts 0 before, (records before).length, damaged⟩ ∧
        (damaged = true ↔ ¬ Boundary es cut)) ∧
    (∀ i (inside : i < (records es).length) value, (records es)[i] ≠ value →
      ∃ before e after, es = before ++ e :: after ∧ (records before).length ≤ i ∧
        i < (records (before ++ [e])).length ∧ recoverLog ((records es).set i value) = damagedAfter before) ∧
    ∀ before e after tail, es = before ++ e :: after → tail <+: records after →
      recoverLog (records before ++ (List.replicate e.toRecord.length 0 ++ tail)) = damagedAfter before := by
  have intact : ∀ e ∈ es, e.Intact := fun e member => Entry.intact_of_length_le (fine e member).1 (fine e member).2
  refine ⟨fun cut inside => ?_, fun i inside value changed => ?_, ?_⟩
  · obtain rfl | inside := eq_or_lt_of_le inside
    · have shape : es = es ++ [] := (List.append_nil es).symm
      refine ⟨es, [], shape, le_rfl, nofun, false, ?_, ?_⟩
      · rw [List.take_length]
        exact recoverLog_whole (shape ▸ intact) (shape ▸ follows)
      · simpa using ⟨es, List.prefix_rfl, rfl⟩
    · obtain ⟨before, e, after, j, rfl, short, rfl⟩ := exists_record inside
      have cutting : (records (before ++ e :: after)).take ((records before).length + j) =
          records before ++ e.toRecord.take j := by
        rw [records_append, records_cons, List.take_length_add_append, List.take_append_of_le_length short.le]
      refine ⟨before, e :: after, rfl, Nat.le_add_right _ _, ?_, ?_⟩
      · rintro _ _ ⟨⟩
        rw [records_append, List.length_append, records_cons, List.length_append]
        omega
      · obtain rfl | some_ := Nat.eq_zero_or_pos j
        · refine ⟨false, ?_, ?_⟩
          · rw [cutting, List.take_zero, List.append_nil]
            exact recoverLog_whole intact follows
          · simpa using ⟨before, List.prefix_append .., rfl⟩
        · refine ⟨true, ?_, iff_of_true rfl (not_boundary some_ short)⟩
          rw [cutting]
          refine recoverLog_damaged intact follows ?_
            (readRecord_take (intact e (List.mem_append_right _ List.mem_cons_self)) short)
          rw [← List.length_pos_iff, List.length_take]
          omega
  · obtain ⟨before, e, after, j, rfl, short, rfl⟩ := exists_record inside
    refine ⟨before, e, after, rfl, Nat.le_add_right _ _, ?_, ?_⟩
    · rw [records_append, List.length_append, records_cons, List.length_append]
      omega
    · have setting : (records (before ++ e :: after)).set ((records before).length + j) value =
          records before ++ (e.toRecord.set j value ++ records after) := by
        rw [records_append, records_cons, List.set_append_right _ _ (Nat.le_add_right _ _), Nat.add_sub_cancel_left,
          List.set_append_left _ _ short]
      have here : (records (before ++ e :: after))[(records before).length + j] = e.toRecord[j] := by
        simp only [records_append, records_cons]
        rw [List.getElem_append_right (Nat.le_add_right _ _), List.getElem_append_left (by omega)]
        simp only [Nat.add_sub_cancel_left]
      rw [setting]
      refine recoverLog_damaged intact follows ?_ ?_
      · rw [← List.length_pos_iff, List.length_append, List.length_set]
        omega
      · exact readRecord_set (fine e (List.mem_append_right _ List.mem_cons_self)).1 short (here ▸ changed) _
  · rintro before e after tail rfl -
    have long : 8 ≤ e.toRecord.length := by rw [e.toRecord_length]; omega
    refine recoverLog_damaged intact follows ?_ (readRecord_zeros long tail)
    rw [← List.length_pos_iff, List.length_append, List.length_replicate]
    omega

theorem damaged_log_recovered_usual :
    ∃ before e after, [usualEntry 1, usualEntry 2] = before ++ e :: after ∧ (records before).length ≤ 52 ∧
      52 < (records (before ++ [e])).length ∧
      recoverLog ((records [usualEntry 1, usualEntry 2]).set 52 0) = damagedAfter before := by
  have fine : ∀ e ∈ [usualEntry 1, usualEntry 2], e.Valid ∧ e.encode.length ≤ maxRecord := by
    have one : (usualEntry 1).Intact := by decide +kernel
    have two : (usualEntry 2).Intact := by decide +kernel
    simpa using ⟨one.valid, two.valid⟩
  have follows : Follows 1 0 [usualEntry 1, usualEntry 2] := ⟨rfl, Nat.zero_le _, rfl, le_rfl, trivial⟩
  exact (damaged_log_recovered fine follows).2.1 52 (by decide +kernel) 0 (by decide +kernel)

end SimKv
