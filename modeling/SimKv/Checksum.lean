import SimKv.Recovery
import SimKv.RoundTrip

set_option autoImplicit false

/-!
# Corruption on the wire

The network may flip one bit of a packet. The checksum notices every change within four bytes in a row, so the
frame of a message that was damaged is never opened.
-/

namespace SimKv

open Codec

namespace Codec

theorem repeat_toBitVec (count : Nat) (crc : UInt32) :
    (Nat.repeat crc32Bit count crc).toBitVec = Crc.shifts 0xEDB88320#32 count crc.toBitVec := by
  induction count with
  | zero => rfl
  | succ count ih => exact (crc32Bit_toBitVec _).trans (congrArg (Crc.shift _) ih)

theorem crc32Byte_toBitVec (crc : UInt32) (byte : UInt8) :
    (crc32Byte crc byte).toBitVec = Crc.feed 0xEDB88320#32 crc.toBitVec byte.toBitVec :=
  repeat_toBitVec 8 _

theorem foldl_toBitVec (data : Bytes) (crc : UInt32) :
    (data.foldl crc32Byte crc).toBitVec =
      (data.map UInt8.toBitVec).foldl (Crc.feed 0xEDB88320#32) crc.toBitVec := by
  induction data generalizing crc with
  | nil => rfl
  | cons byte rest ih =>
    rw [List.foldl_cons, ih, crc32Byte_toBitVec]
    rfl

-- Up to four bytes read into the same register are told apart by what they leave in it.
theorem eq_of_crc32Byte {window other : Bytes} (alike : window.length = other.length) (short : window.length ≤ 4)
    {crc : UInt32} (same : window.foldl crc32Byte crc = other.foldl crc32Byte crc) : window = other := by
  have top : (0xEDB88320#32).getLsbD (32 - 1) = true := by decide
  have meet : (window.map UInt8.toBitVec).foldl (Crc.feed 0xEDB88320#32) crc.toBitVec =
      (other.map UInt8.toBitVec).foldl (Crc.feed 0xEDB88320#32) crc.toBitVec := by
    rw [← foldl_toBitVec, ← foldl_toBitVec, same]
  have bits := Crc.eq_of_meet top (by simpa using alike) (by rw [List.length_map]; omega) meet
  exact List.map_injective_iff.mpr (fun _ _ => UInt8.toBitVec_inj.mp) bits

theorem eq_of_crc32 {before window other after : Bytes} (alike : window.length = other.length)
    (short : window.length ≤ 4) (same : crc32 (before ++ window ++ after) = crc32 (before ++ other ++ after)) :
    window = other := by
  have registers := UInt32.not_inj.mp same
  simp only [List.foldl_append] at registers
  apply eq_of_crc32Byte alike short
  exact Crc.foldl_injective crc32Byte_injective after registers

theorem crc32_burst {p p' : Bytes} {start : Nat} (alike : p.length = p'.length) (differ : p ≠ p')
    (window : ∀ i, i < start ∨ start + 4 ≤ i → p[i]? = p'[i]?) : crc32 p ≠ crc32 p' := by
  intro same
  have before : p.take start = p'.take start := by
    apply List.ext_getElem?
    intro i
    by_cases early : i < start
    · simp [early, window i (Or.inl early)]
    · simp [early]
  have after : p.drop (start + 4) = p'.drop (start + 4) := by
    apply List.ext_getElem?
    intro i
    simp [window (start + 4 + i) (Or.inr (by omega))]
  have parts (q : Bytes) : q = q.take start ++ (q.drop start).take 4 ++ q.drop (start + 4) := by
    rw [List.append_assoc, ← List.drop_drop, List.take_append_drop, List.take_append_drop]
  have pasted : crc32 (p.take start ++ (p.drop start).take 4 ++ p.drop (start + 4)) =
      crc32 (p.take start ++ (p'.drop start).take 4 ++ p.drop (start + 4)) :=
    calc crc32 (p.take start ++ (p.drop start).take 4 ++ p.drop (start + 4))
      _ = crc32 p := by rw [← parts p]
      _ = crc32 p' := same
      _ = crc32 (p'.take start ++ (p'.drop start).take 4 ++ p'.drop (start + 4)) := by rw [← parts p']
      _ = crc32 (p.take start ++ (p'.drop start).take 4 ++ p.drop (start + 4)) := by rw [before, after]
  have inside : (p.drop start).take 4 = (p'.drop start).take 4 :=
    eq_of_crc32 (by simp [alike]) (by simp) pasted
  exact differ (by rw [parts p, parts p', before, inside, after])

theorem crcBytes_length (payload : Bytes) : (crcBytes payload).length = 4 := LittleEndian.length_encode 4 _

theorem unframe_tampered {payload bytes : Bytes} (alike : bytes.length = (frame payload).length)
    (differ : bytes ≠ frame payload) {start : Nat}
    (window : ∀ i, i < start ∨ start + 1 ≤ i → bytes[i]? = (frame payload)[i]?) :
    unframe bytes = .error .badChecksum := by
  have long : (frame payload).length = 4 + payload.length := by rw [frame, List.length_append, crcBytes_length]
  have head : (frame payload).take 4 = crcBytes payload := List.take_left' (crcBytes_length payload)
  have tail : (frame payload).drop 4 = payload := List.drop_left' (crcBytes_length payload)
  have stored : LittleEndian.decode (crcBytes payload) = (crc32 payload).toNat :=
    LittleEndian.decode_encode_of_lt 4 (crc32 payload).toNat_lt
  have mismatch : (crc32 (bytes.drop 4)).toNat ≠ LittleEndian.decode (bytes.take 4) := by
    by_cases early : start < 4
    · -- the payload is intact, the stored checksum is not
      have intact : bytes.drop 4 = payload := by
        rw [← tail]
        apply List.ext_getElem?
        intro i
        simpa using window (4 + i) (Or.inr (by omega))
      rw [intact, ← stored]
      intro same
      have whole := LittleEndian.decode_injective (by simp [crcBytes_length, alike, long]) same
      apply differ
      rw [← List.take_append_drop 4 bytes, ← whole, intact]
      rfl
    · -- the stored checksum is intact, the payload is not
      have intact : bytes.take 4 = crcBytes payload := by
        rw [← head]
        apply List.ext_getElem?
        intro i
        by_cases inside : i < 4
        · simpa [inside] using window i (Or.inl (by omega))
        · simp [inside]
      rw [intact, stored]
      intro same
      have damaged : bytes.drop 4 ≠ payload := by
        intro whole
        apply differ
        rw [← List.take_append_drop 4 bytes, intact, whole]
        rfl
      have outside : ∀ i, i < start - 4 ∨ start - 4 + 4 ≤ i → (bytes.drop 4)[i]? = payload[i]? := by
        intro i apart
        conv_rhs => rw [← tail]
        simpa using window (4 + i) (by omega)
      exact crc32_burst (by simp [alike, long]) damaged outside (UInt32.toNat_inj.mp same)
  have enough : ¬ bytes.length < 4 := by omega
  rw [unframe, if_neg enough]
  exact if_pos mismatch

end Codec

/-- What the network does to a packet it corrupts: one bit of one byte is flipped. -/
def Network.corrupt (bytes : Bytes) (i bit : Nat) : Bytes :=
  bytes.modify i fun byte => byte ^^^ (1 <<< UInt8.ofNat bit)

theorem flipped_ne {bit : Nat} (within : bit < 8) (byte : UInt8) : byte ^^^ (1 <<< UInt8.ofNat bit) ≠ byte := by
  have some_ : ∀ b < 8, (1 : UInt8) <<< UInt8.ofNat b ≠ 0 := by decide
  intro same
  exact some_ bit within ((UInt8.xor_right_inj byte).mp (same.trans UInt8.xor_zero.symm))

theorem Network.corrupt_ne {bytes : Bytes} {i bit : Nat} (inside : i < bytes.length) (within : bit < 8) :
    corrupt bytes i bit ≠ bytes := by
  intro same
  have byte := congrArg (fun all => all[i]?) same
  simp only [corrupt, List.getElem?_modify_eq, List.getElem?_eq_getElem inside, Option.map_eq_map,
    Option.map_some, Option.some.injEq] at byte
  exact flipped_ne within bytes[i] byte

theorem Message.decode_corrupted (m : Message) {i bit : Nat} (inside : i < m.encode.length) (within : bit < 8) :
    Message.decode (Network.corrupt m.encode i bit) = .error .badChecksum := by
  obtain ⟨payload, framed⟩ : ∃ payload, m.encode = frame payload := by
    cases m with
    | raft msg => exact ⟨_, rfl⟩
    | client msg => exact ⟨_, rfl⟩
  have closed : unframe (Network.corrupt m.encode i bit) = .error .badChecksum := by
    have differ := Network.corrupt_ne inside within
    have elsewhere : ∀ k, k < i ∨ i + 1 ≤ k → (Network.corrupt m.encode i bit)[k]? = m.encode[k]? := by
      intro k apart
      have differs : i ≠ k := by omega
      simp [Network.corrupt, differs]
    rw [framed] at differ elsewhere ⊢
    exact unframe_tampered (List.length_modify ..) differ elsewhere
  simp only [Message.decode, closed, bind, Except.bind]

/-- Changes within four bytes in a row change the checksum; and no single flipped bit of an encoded message,
not in the checksum itself either, gets past it. -/
theorem checksum_catches_bursts :
    (∀ (p p' : Bytes) (start : Nat), p.length = p'.length → p ≠ p' →
      (∀ i, i < start ∨ start + 4 ≤ i → p[i]? = p'[i]?) → crc32 p ≠ crc32 p') ∧
    ∀ (m : Message) (i bit : Nat), i < m.encode.length → bit < 8 →
      Message.decode (Network.corrupt m.encode i bit) = .error .badChecksum := by
  constructor
  · intro p p' start alike differ window
    exact crc32_burst alike differ window
  · intro m i bit inside within
    exact m.decode_corrupted inside within

theorem checksum_catches_bursts_ballot :
    crc32 [1, 2, 3, 4, 5, 6] ≠ crc32 [1, 9, 9, 9, 9, 6] ∧
      Message.decode (Network.corrupt (Message.encode (.raft (.requestVote 3 1 9 2))) 2 7) = .error .badChecksum := by
  constructor
  · apply checksum_catches_bursts.1 [1, 2, 3, 4, 5, 6] [1, 9, 9, 9, 9, 6] 1 rfl (by decide)
    intro i apart
    rcases apart with first | rest
    · obtain rfl : i = 0 := by omega
      rfl
    · obtain ⟨k, rfl⟩ := Nat.exists_eq_add_of_le' rest
      rfl
  · exact checksum_catches_bursts.2 _ 2 7 (by decide) (by decide)

end SimKv
