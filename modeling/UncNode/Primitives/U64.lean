import Mathlib

/-!
# `u64` and `u128` arithmetic with overflow checks

`checked_add`, `checked_mul` and `checked_sub` of `u64`, and `checked_add` and `checked_mul` of
`Balance` (`u128`). The workspace builds both of its profiles with `overflow-checks = true`, so
the plain `+`, `*` and `-` are the same operations followed by a panic: `none` is the overflow,
which a caller maps to its own error (`ok_or(HostError::IntegerOverflow)`) or reads as the panic.
-/

set_option autoImplicit false

namespace Unc

/-- `a + b` on `u64`. -/
def addU64 (a b : Nat) : Option Nat :=
  if a + b < 2 ^ 64 then some (a + b) else none

/-- `a * b` on `u64`. -/
def mulU64 (a b : Nat) : Option Nat :=
  if a * b < 2 ^ 64 then some (a * b) else none

/-- `a - b` on `u64`. -/
def subU64 (a b : Nat) : Option Nat :=
  if b ≤ a then some (a - b) else none

variable {a b c : Nat}

theorem addU64_eq_some : addU64 a b = some c ↔ a + b < 2 ^ 64 ∧ a + b = c := by
  unfold addU64
  split_ifs with h
  · exact ⟨fun h' => ⟨h, Option.some.inj h'⟩, (congrArg some ·.2)⟩
  · exact ⟨(nomatch ·), (absurd ·.1 h)⟩

theorem subU64_eq_some : subU64 a b = some c ↔ b ≤ a ∧ a - b = c := by
  unfold subU64
  split_ifs with h
  · exact ⟨fun h' => ⟨h, Option.some.inj h'⟩, (congrArg some ·.2)⟩
  · exact ⟨(nomatch ·), (absurd ·.1 h)⟩

theorem addU64_of_lt (h : a + b < 2 ^ 64) : addU64 a b = some (a + b) := by
  rw [addU64, if_pos h]

theorem addU64_eq_none : addU64 a b = none ↔ 2 ^ 64 ≤ a + b := by
  unfold addU64
  split_ifs with h
  · exact ⟨(nomatch ·), (absurd h <| Nat.not_lt.mpr ·)⟩
  · exact ⟨fun _ => Nat.not_lt.mp h, fun _ => rfl⟩

/-! ## `Balance` (`u128`) -/

/-- `a + b` on `Balance` (`u128`). -/
def addBalance (a b : Nat) : Option Nat :=
  if a + b < 2 ^ 128 then some (a + b) else none

/-- `a * b` on `Balance` (`u128`). -/
def mulBalance (a b : Nat) : Option Nat :=
  if a * b < 2 ^ 128 then some (a * b) else none

theorem addBalance_of_lt (h : a + b < 2 ^ 128) : addBalance a b = some (a + b) := by
  rw [addBalance, if_pos h]

end Unc
