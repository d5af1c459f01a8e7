import SimKv.Log

set_option autoImplicit false

/-!
# On-disk formats and what recovery reads from them

Log records, the two hard-state slots and the snapshot files of `kvstore::log`,
and the snapshot envelope of `kvstore::raft`. Everything here is a function of
bytes; nothing knows where the bytes came from.
-/

namespace SimKv

open Codec

def maxRecord : Nat := 1 <<< 20

structure RecoveredLog where
  entries : List Entry
  offsets : List Nat
  validBytes : Nat
  damaged : Bool
  deriving DecidableEq, Repr

/-- The record at the start of `bytes` and its size, if it is intact: the checks the
recovery loop makes before it looks at the index and the term. -/
def readRecord (bytes : Bytes) : Option (Entry × Nat) :=
  if bytes.length < 8 then none
  else
    let len := LittleEndian.decode (bytes.take 4)
    let crc := LittleEndian.decode ((bytes.drop 4).take 4)
    if len = 0 ∨ maxRecord < len ∨ bytes.length < 8 + len then none
    else
      let payload := (bytes.drop 8).take len
      if (crc32 payload).toNat ≠ crc then none
      else
        match (do let e ← Entry.decode; Dec.finish; return e : Dec Entry) payload with
        | .ok (e, _) => some (e, 8 + len)
        | .error _ => none

/-- The recovery loop. `expected` and `floor` are the index the next record must carry
and the least term it may carry; `fuel` bounds the iterations and never runs out when
it is the number of bytes left. -/
def recoverLogGo : Nat → Bytes → Nat → Nat → Nat → RecoveredLog
  | 0, rest, pos, _, _ => ⟨[], [], pos, !rest.isEmpty⟩
  | fuel + 1, rest, pos, expected, floor =>
    if rest.isEmpty then ⟨[], [], pos, false⟩
    else
      match readRecord rest with
      | none => ⟨[], [], pos, true⟩
      | some (e, size) =>
        -- an intact record that is not the next one must not be spliced in
        if e.index ≠ expected ∨ e.term < floor then ⟨[], [], pos, true⟩
        else
          let r := recoverLogGo fuel (rest.drop size) (pos + size) (e.index + 1) e.term
          { r with entries := e :: r.entries, offsets := pos :: r.offsets }

def recoverLogFrom (bytes : Bytes) (firstIndex : Nat) : RecoveredLog :=
  recoverLogGo bytes.length bytes 0 firstIndex 0

def firstIndexOf (bytes : Bytes) : Nat :=
  if bytes.length < 8 then 1
  else
    let len := LittleEndian.decode (bytes.take 4)
    -- the index sits after the term in the payload: len, crc, then term, index
    if 16 ≤ len ∧ 8 + 16 ≤ bytes.length then
      max (LittleEndian.decode ((bytes.drop 16).take 8)) 1
    else 1

def recoverLogAnyStart (bytes : Bytes) : RecoveredLog :=
  recoverLogFrom bytes (firstIndexOf bytes)

def maxSnapshot : Nat := 64 <<< 20

structure Snapshot where
  -- Monotonic write counter, the tie-break between the two files.
  seq : Nat
  index : Nat
  term : Nat
  data : Bytes
  deriving DecidableEq, Repr

namespace Snapshot

def payload (s : Snapshot) : Bytes :=
  Enc.u64 s.seq ++ (Enc.u64 s.index ++ (Enc.u64 s.term ++ Enc.bytes s.data))

def encode (s : Snapshot) : Bytes :=
  Enc.u32 s.payload.length ++ (crcBytes s.payload ++ s.payload)

def decodePayload : Dec Snapshot := do
  return { seq := ← Dec.u64, index := ← Dec.u64, term := ← Dec.u64, data := ← Dec.bytes }

def decode (bytes : Bytes) : Option Snapshot :=
  if bytes.length < 8 then none
  else
    let len := LittleEndian.decode (bytes.take 4)
    let crc := LittleEndian.decode ((bytes.drop 4).take 4)
    if len = 0 ∨ maxSnapshot < len ∨ bytes.length < 8 + len then none
    else
      let payload := (bytes.drop 8).take len
      if (crc32 payload).toNat ≠ crc then none
      else (decodePayload payload).toOption.map Prod.fst

def newerOrSame (x y : Snapshot) : Prop :=
  y.index < x.index ∨ x.index = y.index ∧ y.seq ≤ x.seq

instance (x y : Snapshot) : Decidable (newerOrSame x y) := inferInstanceAs (Decidable (_ ∨ _))

end Snapshot

/-- The better of the two snapshot files that is intact, and which input held it. -/
def pickSnapshotWithSource (a b : Bytes) : Option (Snapshot × Nat) :=
  match Snapshot.decode a, Snapshot.decode b with
  | some x, some y => some (if x.newerOrSame y then (x, 0) else (y, 1))
  | some x, none => some (x, 0)
  | none, some y => some (y, 1)
  | none, none => none

def encodeSnapshotPayload (members : List NodeId) (app : Bytes) : Bytes :=
  Enc.u32 members.length ++ ((members.flatMap fun m => Enc.u32 m.toNat) ++ Enc.bytes app)

def decodeSnapshotPayload (bytes : Bytes) : Option (List NodeId × Bytes) :=
  let read : Dec (List NodeId × Bytes) := do
    let count ← Dec.u32
    if 256 < count then throw .tooLong
    let members ← Dec.many (do return UInt32.ofNat (← Dec.u32)) count
    return (members, ← Dec.bytes)
  (read bytes).toOption.map Prod.fst

def slotSize : Nat := 64
def stateFileSize : Nat := slotSize * 2
def noVote : Nat := 2 ^ 32 - 1

structure HardState where
  term : Nat := 0
  votedFor : Option NodeId := none
  -- Monotonic write counter, used to pick the newer of the two slots.
  seq : Nat := 0
  deriving DecidableEq, Repr

namespace HardState

def body (hs : HardState) : Bytes :=
  Enc.u64 hs.seq ++ (Enc.u64 hs.term ++ Enc.u32 ((hs.votedFor.map UInt32.toNat).getD noVote))

def toSlot (hs : HardState) : Bytes :=
  hs.body ++ (crcBytes hs.body ++ List.replicate (slotSize - 24) 0)

def decodeBody : Dec HardState := do
  let seq ← Dec.u64
  let term ← Dec.u64
  let vote ← Dec.u32
  return { term, votedFor := if vote = noVote then none else some (UInt32.ofNat vote), seq }

def fromSlot (slot : Bytes) : Option HardState :=
  if slot.length < slotSize then none
  else
    let body := slot.take 20
    let crc := LittleEndian.decode ((slot.drop 20).take 4)
    if (crc32 body).toNat ≠ crc then none
    else (decodeBody body).toOption.map Prod.fst

def slotOffset (seq : Nat) : Nat := seq % 2 * slotSize

end HardState

def preferSlot (bytes : Bytes) (best : HardState) (i : Nat) : HardState :=
  let start := i * slotSize
  if bytes.length < start + slotSize then best
  else
    match HardState.fromSlot ((bytes.drop start).take slotSize) with
    | some hs => if best.seq ≤ hs.seq then hs else best
    | none => best

def recoverHardState (bytes : Bytes) : HardState :=
  preferSlot bytes (preferSlot bytes {} 0) 1

-- A frame is a length, a checksum and a payload. The readers of records and of snapshot files look at
-- it the same way, so both go through one lemma.

theorem frame_split (payload rest : Bytes) (small : payload.length < 2 ^ 32) :
    let bytes := Enc.u32 payload.length ++ (crcBytes payload ++ payload) ++ rest
    LittleEndian.decode (bytes.take 4) = payload.length ∧
      LittleEndian.decode ((bytes.drop 4).take 4) = (crc32 payload).toNat ∧
      (bytes.drop 8).take payload.length = payload ∧ bytes.length = 8 + payload.length + rest.length := by
  have len : (Enc.u32 payload.length).length = 4 := by simp [Enc.u32]
  have crc : (crcBytes payload).length = 4 := by simp [crcBytes, Enc.u32]
  have header : (Enc.u32 payload.length ++ crcBytes payload).length = 8 := by simp [len, crc]
  simp only [List.append_assoc]
  refine ⟨?_, ?_, ?_, ?_⟩
  · rw [List.take_left' len, Enc.u32, LittleEndian.decode_encode_of_lt 4 small]
  · rw [List.drop_left' len, List.take_left' crc, crcBytes, Enc.u32,
      LittleEndian.decode_encode_of_lt 4 (crc32 payload).toNat_lt]
  · rw [← List.append_assoc, List.drop_left' header, List.take_left' rfl]
  · simp only [List.length_append, len, crc]
    omega

-- The index of a snapshot file is the one that was written, as far as a `u64` holds it.
theorem Snapshot.index_of_decode_encode {s got : Snapshot} (read : decode s.encode = some got) :
    got.index = s.index % 2 ^ 64 := by
  have header : (Enc.u32 s.payload.length ++ crcBytes s.payload).length = 8 := by
    simp [Enc.u32, crcBytes]
  have tail : s.encode.drop 8 = s.payload := by
    rw [encode, ← List.append_assoc, List.drop_left' header]
  simp only [decode, tail] at read
  split at read
  · cases read
  · split at read
    · cases read
    · split at read
      · cases read
      · generalize LittleEndian.decode (s.encode.take 4) = len at read
        obtain ⟨⟨snap, rest⟩, ran, rfl⟩ := Option.map_eq_some_iff.mp read
        cases run : decodePayload (s.payload.take len) with
        | error e =>
          rw [run] at ran
          cases ran
        | ok pair =>
          rw [run] at ran
          cases ran
          obtain ⟨seq, afterSeq, first, run⟩ := Dec.run_bind_inv run
          obtain ⟨index, afterIndex, second, run⟩ := Dec.run_bind_inv run
          obtain ⟨term, afterTerm, _, run⟩ := Dec.run_bind_inv run
          obtain ⟨data, afterData, _, run⟩ := Dec.run_bind_inv run
          cases run
          obtain ⟨_, _, rfl⟩ := Dec.u64_inv first
          obtain ⟨enough, rfl, _⟩ := Dec.u64_inv second
          -- the index sits behind the sequence number, and the payload is long enough to hold it
          have long : 16 ≤ len := by
            simp only [List.length_drop, List.length_take] at enough
            omega
          have front : (s.payload.drop 8).take 8 = Enc.u64 s.index := by
            rw [payload, List.drop_left' (by simp [Enc.u64]), List.take_left' (by simp [Enc.u64])]
          have same : ((s.payload.take len).drop 8).take 8 = (s.payload.drop 8).take 8 := by
            rw [List.drop_take, List.take_take, min_eq_left (by omega)]
          show LittleEndian.decode (((s.payload.take len).drop 8).take 8) = _
          rw [same, front, Enc.u64, LittleEndian.decode_encode]
          norm_num

theorem HardState.body_length (hs : HardState) : hs.body.length = 20 := by
  simp [body, Enc.u64, Enc.u32]

theorem HardState.toSlot_length (hs : HardState) : hs.toSlot.length = slotSize := by
  simp [toSlot, body_length, crcBytes, Enc.u32, slotSize]

structure HardState.Storable (hs : HardState) : Prop where
  term : hs.term < 2 ^ 64
  seq : hs.seq < 2 ^ 64
  vote : ∀ id ∈ hs.votedFor, id.toNat ≠ noVote

theorem HardState.fromSlot_toSlot {hs : HardState} (storable : hs.Storable) :
    fromSlot hs.toSlot = some hs := by
  have size : (crcBytes hs.body).length = 4 := by simp [crcBytes, Enc.u32]
  have body : hs.toSlot.take 20 = hs.body := List.take_left' hs.body_length
  have crc : LittleEndian.decode ((hs.toSlot.drop 20).take 4) = (crc32 hs.body).toNat := by
    rw [toSlot, List.drop_left' hs.body_length, List.take_left' size, crcBytes, Enc.u32,
      LittleEndian.decode_encode_of_lt 4 (crc32 hs.body).toNat_lt]
  have vote : (hs.votedFor.map UInt32.toNat).getD noVote < 2 ^ 32 := by
    cases hs.votedFor with
    | none => decide
    | some id => exact id.toNat_lt
  have read : decodeBody (hs.body ++ []) = .ok (hs, []) := by
    simp only [decodeBody, HardState.body, List.append_assoc]
    rw [Dec.run_bind_ok (Dec.u64_encode storable.seq _), Dec.run_bind_ok (Dec.u64_encode storable.term _),
      Dec.run_bind_ok (Dec.u32_encode vote _)]
    obtain ⟨term, votedFor, seq⟩ := hs
    cases votedFor with
    | none => rfl
    | some id =>
      have named : id.toNat ≠ noVote := storable.vote id rfl
      simp [named]
  rw [List.append_nil] at read
  rw [fromSlot, if_neg (by simp [toSlot_length]), body, crc, if_neg (by simp), read]
  rfl

end SimKv
