import Mathlib.Data.List.Basic
import Mathlib.Tactic.Ring

set_option autoImplicit false

/-!
# Little-endian byte strings

Fixed-width encodings of natural numbers. Encoding wraps modulo the width, as a
machine word does, so only the round trip needs a bound.
-/

namespace LittleEndian

def encode : Nat → Nat → List UInt8
  | 0, _ => []
  | width + 1, value => UInt8.ofNat value :: encode width (value / 256)

def decode : List UInt8 → Nat
  | [] => 0
  | byte :: rest => byte.toNat + 256 * decode rest

@[simp] theorem length_encode (width value : Nat) : (encode width value).length = width := by
  induction width generalizing value with
  | zero => rfl
  | succ width ih => simp [encode, ih]

theorem decode_encode (width value : Nat) : decode (encode width value) = value % 256 ^ width := by
  induction width generalizing value with
  | zero => simp [encode, decode, Nat.mod_one]
  | succ width ih =>
    have low : (UInt8.ofNat value).toNat = value % 256 := by simp
    rw [encode, decode, ih, low, pow_succ']
    exact (Nat.mod_mul).symm

theorem decode_encode_of_lt (width : Nat) {value : Nat} (bound : value < 256 ^ width) :
    decode (encode width value) = value := by
  rw [decode_encode, Nat.mod_eq_of_lt bound]

theorem decode_lt (bytes : List UInt8) : decode bytes < 256 ^ bytes.length := by
  induction bytes with
  | nil => simp [decode]
  | cons byte rest ih =>
    have small := byte.toNat_lt
    rw [decode, List.length_cons, pow_succ']
    omega

theorem encode_decode (bytes : List UInt8) : encode bytes.length (decode bytes) = bytes := by
  induction bytes with
  | nil => rfl
  | cons byte rest ih =>
    have small := byte.toNat_lt
    have high : (byte.toNat + 256 * decode rest) / 256 = decode rest := by omega
    have low : UInt8.ofNat (byte.toNat + 256 * decode rest) = byte := by
      apply UInt8.toNat_inj.mp
      simp only [UInt8.toNat_ofNat']
      omega
    rw [List.length_cons, decode, encode, high, low, ih]

theorem encode_injective {width left right : Nat} (leftBound : left < 256 ^ width)
    (rightBound : right < 256 ^ width) (same : encode width left = encode width right) :
    left = right := by
  rw [← decode_encode_of_lt _ leftBound, ← decode_encode_of_lt _ rightBound, same]

theorem decode_injective {bytes other : List UInt8} (alike : bytes.length = other.length)
    (same : decode bytes = decode other) : bytes = other := by
  rw [← encode_decode bytes, ← encode_decode other, alike, same]

end LittleEndian
