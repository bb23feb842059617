import Mathlib

/-!
# Little-endian byte encodings

Fixed-width little-endian bytes of natural numbers and two's complement integers, as
`to_le_bytes` and `from_le_bytes` of the machine integer types give them.

* `ofBytes_toBytes`: reading back `w` bytes gives the number modulo `256 ^ w`;
* `ofBytesSigned_toBytesSigned`: every integer of the signed `w`-byte range reads back as itself.
-/

set_option autoImplicit false

namespace LittleEndian

/-- The `w` low bytes of `n`, least significant first. -/
def toBytes : Nat → Nat → List UInt8
  | 0, _ => []
  | w + 1, n => UInt8.ofNat n :: toBytes w (n / 256)

/-- The number whose little-endian bytes these are. -/
def ofBytes : List UInt8 → Nat
  | [] => 0
  | b :: bs => b.toNat + 256 * ofBytes bs

@[simp] theorem length_toBytes (w n : Nat) : (toBytes w n).length = w := by
  induction w generalizing n with
  | zero => rfl
  | succ w ih => simp [toBytes, ih]

theorem ofBytes_toBytes (w n : Nat) : ofBytes (toBytes w n) = n % 256 ^ w := by
  induction w generalizing n with
  | zero => simp [toBytes, ofBytes, Nat.mod_one]
  | succ w ih =>
    have hb : (UInt8.ofNat n).toNat = n % 256 := by simp
    simp only [toBytes, ofBytes, ih, hb]
    rw [pow_succ, mul_comm (256 ^ w), Nat.mod_mul]

/-- The `w` bytes of `x` in two's complement. -/
def toBytesSigned (w : Nat) (x : Int) : List UInt8 :=
  toBytes w (x % 2 ^ (8 * w)).toNat

/-- The two's complement number whose little-endian bytes these are. -/
def ofBytesSigned (l : List UInt8) : Int :=
  if ofBytes l < 2 ^ (8 * l.length - 1) then ofBytes l else ofBytes l - 2 ^ (8 * l.length)

@[simp] theorem length_toBytesSigned (w : Nat) (x : Int) : (toBytesSigned w x).length = w := by
  simp [toBytesSigned]

theorem ofBytesSigned_toBytesSigned {w : Nat} {x : Int} (hw : 0 < w)
    (hlo : -2 ^ (8 * w - 1) ≤ x) (hhi : x < 2 ^ (8 * w - 1)) :
    ofBytesSigned (toBytesSigned w x) = x := by
  obtain ⟨H, hH⟩ : ∃ H : Nat, 2 ^ (8 * w - 1) = H := ⟨_, rfl⟩
  have hM : 256 ^ w = 2 * H := by
    rw [← hH, ← pow_succ', show 8 * w - 1 + 1 = 8 * w by omega, pow_mul]; norm_num
  have hMi : (2 : Int) ^ (8 * w) = 2 * H := by
    rw [pow_mul]; exact_mod_cast hM
  have hHi : (2 : Int) ^ (8 * w - 1) = H := by exact_mod_cast hH
  rw [hHi] at hlo hhi
  -- the stored number is `x` itself or, for a negative `x`, `x + 2 ^ (8 * w)`
  have hval : ((x % 2 ^ (8 * w)).toNat : Int) = if 0 ≤ x then x else x + 2 * H := by
    rw [hMi]
    split
    · rw [Int.emod_eq_of_lt (by assumption) (by omega)]; omega
    · rw [← Int.add_emod_right, Int.emod_eq_of_lt (by omega) (by omega)]; omega
  have hlt : (x % 2 ^ (8 * w)).toNat < 2 * H := by split at hval <;> omega
  simp only [ofBytesSigned, toBytesSigned, length_toBytes, ofBytes_toBytes, hM, hH,
    Nat.mod_eq_of_lt hlt]
  split <;> split at hval <;> omega

end LittleEndian
