import Mathlib.Data.List.Basic
import SimKv.Lib.LittleEndian

set_option autoImplicit false

/-!
# The wire codec

`kvstore::codec`. An encoder is the bytes it appends; a decoder consumes a suffix
of its input, so `Dec.pos` of the source is what has already been taken off.
-/

namespace SimKv

abbrev Bytes := List UInt8

namespace Codec

def maxField : Nat := 1 <<< 20

inductive DecodeError where
  | truncated
  | badTag (tag : Nat)
  | badUtf8
  | badChecksum
  | tooLong
  | trailingBytes
  deriving DecidableEq, Repr

namespace Enc

def u8 (value : Nat) : Bytes := LittleEndian.encode 1 value
def u32 (value : Nat) : Bytes := LittleEndian.encode 4 value
def u64 (value : Nat) : Bytes := LittleEndian.encode 8 value

def bytes (data : Bytes) : Bytes := u32 data.length ++ data

def utf8 (text : String) : Bytes := text.toByteArray.data.toList

def str (text : String) : Bytes := bytes (utf8 text)

def optStr : Option String → Bytes
  | none => u8 0
  | some text => u8 1 ++ str text

end Enc

abbrev Dec := StateT Bytes (Except DecodeError)

namespace Dec

def take (count : Nat) : Dec Bytes := fun input =>
  if input.length < count then .error .truncated
  else .ok (input.take count, input.drop count)

def u8 : Dec Nat := do return LittleEndian.decode (← take 1)
def u32 : Dec Nat := do return LittleEndian.decode (← take 4)
def u64 : Dec Nat := do return LittleEndian.decode (← take 8)

def bytes : Dec Bytes := do
  let count ← u32
  if maxField < count then throw .tooLong
  take count

def string : Dec String := do
  let raw ← bytes
  match String.fromUTF8? ⟨raw.toArray⟩ with
  | some text => return text
  | none => throw .badUtf8

def optString : Dec (Option String) := do
  match ← u8 with
  | 0 => return none
  | 1 => return some (← string)
  | tag => throw (.badTag tag)

def finish : Dec Unit := fun input =>
  if input.isEmpty then .ok ((), input) else .error .trailingBytes

def many {α : Type} (item : Dec α) : Nat → Dec (List α)
  | 0 => return []
  | count + 1 => do
    let head ← item
    let tail ← many item count
    return head :: tail

end Dec

def crc32Bit (crc : UInt32) : UInt32 :=
  let mask := 0 - (crc &&& 1)
  (crc >>> 1) ^^^ (0xEDB88320 &&& mask)

def crc32Byte (crc : UInt32) (byte : UInt8) : UInt32 :=
  Nat.repeat crc32Bit 8 (crc ^^^ byte.toUInt32)

def crc32 (data : Bytes) : UInt32 := ~~~ (data.foldl crc32Byte 0xFFFFFFFF)

def crcBytes (data : Bytes) : Bytes := Enc.u32 (crc32 data).toNat

-- Each lemma reads one field off the front and hands on the rest of the input.

namespace Dec

theorem run_bind_ok {α β : Type} {item : Dec α} {next : α → Dec β} {input rest : Bytes}
    {value : α} (first : item input = .ok (value, rest)) :
    (item >>= next) input = next value rest := by
  change (item input >>= fun pair => next pair.1 pair.2) = _
  rw [first]
  rfl

theorem run_bind_inv {α β : Type} {item : Dec α} {next : α → Dec β} {input : Bytes}
    {result : β × Bytes} (run : (item >>= next) input = .ok result) :
    ∃ value rest, item input = .ok (value, rest) ∧ next value rest = .ok result := by
  change (item input >>= fun pair => next pair.1 pair.2) = _ at run
  cases first : item input with
  | error e =>
    rw [first] at run
    cases run
  | ok pair =>
    rw [first] at run
    exact ⟨pair.1, pair.2, rfl, run⟩

@[simp] theorem run_pure {α : Type} (value : α) (input : Bytes) :
    (pure value : Dec α) input = .ok (value, input) := rfl

theorem take_append {head rest : Bytes} {count : Nat} (size : head.length = count) :
    take count (head ++ rest) = .ok (head, rest) := by
  subst size
  simp [take]

theorem u8_encode {value : Nat} (bound : value < 256) (rest : Bytes) :
    u8 (Enc.u8 value ++ rest) = .ok (value, rest) := by
  rw [u8, run_bind_ok (take_append (by simp [Enc.u8]))]
  simp [Enc.u8, LittleEndian.decode_encode_of_lt 1 (by simpa using bound)]

theorem u32_encode_mod (value : Nat) (rest : Bytes) :
    u32 (Enc.u32 value ++ rest) = .ok (value % 2 ^ 32, rest) := by
  rw [u32, run_bind_ok (take_append (by simp [Enc.u32]))]
  simp [Enc.u32, LittleEndian.decode_encode]

theorem u32_encode {value : Nat} (bound : value < 2 ^ 32) (rest : Bytes) :
    u32 (Enc.u32 value ++ rest) = .ok (value, rest) := by
  rw [u32_encode_mod, Nat.mod_eq_of_lt bound]

theorem u64_encode {value : Nat} (bound : value < 2 ^ 64) (rest : Bytes) :
    u64 (Enc.u64 value ++ rest) = .ok (value, rest) := by
  rw [u64, run_bind_ok (take_append (by simp [Enc.u64]))]
  simp [Enc.u64, LittleEndian.decode_encode_of_lt 8 (by simpa using bound)]

theorem u64_inv {input rest : Bytes} {value : Nat} (read : u64 input = .ok (value, rest)) :
    8 ≤ input.length ∧ value = LittleEndian.decode (input.take 8) ∧ rest = input.drop 8 := by
  obtain ⟨raw, tail, taken, done⟩ := run_bind_inv read
  unfold take at taken
  split at taken
  · cases taken
  · next enough =>
    cases taken
    cases done
    exact ⟨not_lt.mp enough, rfl, rfl⟩

theorem bytes_encode {data : Bytes} (bound : data.length ≤ maxField) (rest : Bytes) :
    bytes (Enc.bytes data ++ rest) = .ok (data, rest) := by
  have small : data.length < 2 ^ 32 := lt_of_le_of_lt bound (by decide)
  rw [bytes, Enc.bytes, List.append_assoc, run_bind_ok (u32_encode small _)]
  simp only [Nat.not_lt.mpr bound, if_false]
  exact take_append rfl

theorem fromUTF8_utf8 (text : String) :
    String.fromUTF8? ⟨(Enc.utf8 text).toArray⟩ = some text := by
  have same : (⟨(Enc.utf8 text).toArray⟩ : ByteArray) = text.toByteArray := by
    simp [Enc.utf8]
  rw [same, String.fromUTF8?, dif_pos text.isValidUTF8]
  rfl

theorem string_encode {text : String} (bound : (Enc.utf8 text).length ≤ maxField) (rest : Bytes) :
    string (Enc.str text ++ rest) = .ok (text, rest) := by
  rw [string, Enc.str, run_bind_ok (bytes_encode bound rest)]
  simp [fromUTF8_utf8]

theorem optString_encode {text : Option String}
    (bound : ∀ t, text = some t → (Enc.utf8 t).length ≤ maxField) (rest : Bytes) :
    optString (Enc.optStr text ++ rest) = .ok (text, rest) := by
  cases text with
  | none =>
    rw [optString, Enc.optStr, run_bind_ok (u8_encode (by decide) rest)]
    rfl
  | some t =>
    rw [optString, Enc.optStr, List.append_assoc, run_bind_ok (u8_encode (by decide) _)]
    change (string >>= fun text => pure (some text)) _ = _
    rw [run_bind_ok (string_encode (bound t rfl) rest)]
    rfl

theorem many_encode {α : Type} {item : Dec α} {encode : α → Bytes} (values : List α)
    (each : ∀ v ∈ values, ∀ rest, item (encode v ++ rest) = .ok (v, rest)) (rest : Bytes) :
    many item values.length (values.flatMap encode ++ rest) = .ok (values, rest) := by
  induction values with
  | nil => rfl
  | cons head tail ih =>
    have tailRun := ih (fun v member => each v (List.mem_cons_of_mem _ member))
    rw [List.length_cons, many, List.flatMap_cons, List.append_assoc,
      run_bind_ok (each head (List.mem_cons_self) _), run_bind_ok tailRun]
    rfl

-- `Yields item good` says that whatever the input, a value that `item` reads off it is `good`.

def Yields {α : Type} (item : Dec α) (good : α → Prop) : Prop :=
  ∀ input value rest, item input = .ok (value, rest) → good value

namespace Yields

variable {α β : Type} {item : Dec α} {good better : α → Prop}

theorem bind {next : α → Dec β} {fine : β → Prop} (first : item.Yields good)
    (second : ∀ value, good value → (next value).Yields fine) : (item >>= next).Yields fine := by
  intro input value rest run
  obtain ⟨head, middle, read, run⟩ := run_bind_inv run
  exact second head (first input head middle read) middle value rest run

theorem any (item : Dec α) : item.Yields fun _ => True := fun _ _ _ _ => trivial

theorem pure {value : α} (holds : good value) : (Pure.pure value : Dec α).Yields good := by
  intro input got rest run
  cases run
  exact holds

theorem throw {e : DecodeError} : (MonadExcept.throw e : Dec α).Yields good := by
  intro input value rest run
  cases run

theorem many {count : Nat} (each : item.Yields good) :
    (Dec.many item count).Yields fun values => values.length = count ∧ ∀ value ∈ values, good value := by
  induction count with
  | zero => exact pure ⟨rfl, nofun⟩
  | succ count ih =>
    refine each.bind fun head holds => ih.bind fun tail rest => pure ⟨?_, ?_⟩
    · rw [List.length_cons, rest.1]
    · intro value member
      rcases List.mem_cons.mp member with rfl | later
      · exact holds
      · exact rest.2 value later

end Yields

theorem take_yields (count : Nat) : (take count).Yields fun raw => raw.length = count := by
  intro input raw rest run
  unfold take at run
  split at run
  · cases run
  · next enough =>
    cases run
    rw [List.length_take, min_eq_left (not_lt.mp enough)]

theorem u8_yields : u8.Yields fun value => value < 2 ^ 8 :=
  (take_yields 1).bind fun raw size => .pure (lt_of_lt_of_eq (LittleEndian.decode_lt raw) (by rw [size]; rfl))

theorem u32_yields : u32.Yields fun value => value < 2 ^ 32 :=
  (take_yields 4).bind fun raw size => .pure (lt_of_lt_of_eq (LittleEndian.decode_lt raw) (by rw [size]; rfl))

theorem u64_yields : u64.Yields fun value => value < 2 ^ 64 :=
  (take_yields 8).bind fun raw size => .pure (lt_of_lt_of_eq (LittleEndian.decode_lt raw) (by rw [size]; rfl))

theorem bytes_yields : bytes.Yields fun data => data.length ≤ maxField := by
  refine u32_yields.bind fun count _ => ?_
  split
  · exact .throw
  · next small =>
    intro input data rest run
    exact (take_yields count input data rest run).trans_le (not_lt.mp small)

-- A string is no longer than the bytes it was read from.
theorem string_yields : string.Yields fun text => (Enc.utf8 text).length ≤ maxField := by
  refine bytes_yields.bind fun raw small => ?_
  split
  · next text read =>
    refine .pure ?_
    unfold String.fromUTF8? at read
    split at read
    · cases read
      exact small
    · cases read
  · exact .throw

theorem optString_yields :
    optString.Yields fun text => ∀ t ∈ text, (Enc.utf8 t).length ≤ maxField := by
  refine u8_yields.bind fun tag _ => ?_
  split
  · exact .pure nofun
  · refine string_yields.bind fun text small => .pure ?_
    rintro t ⟨⟩
    exact small
  · exact .throw

end Dec

end Codec

end SimKv
