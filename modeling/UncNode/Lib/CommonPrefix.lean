import Mathlib

/-!
# The common prefix of two lists

`commonPrefix xs ys` is the number of leading elements on which `xs` and `ys` agree, as a
radix tree compares a key with the label of an edge. It splits both lists at the same place:
their first `commonPrefix xs ys` elements are equal and what follows starts differently.

* `commonPrefix_comm`, `commonPrefix_le_length_left`, `commonPrefix_le_length_right`;
* `take_commonPrefix`, `commonPrefix_drop_eq_zero`: the split at the common prefix;
* `commonPrefix_eq_length_right_iff`: the second list is the common prefix exactly when it is a
  prefix of the first;
* `exists_split_of_commonPrefix_lt`: short of both lengths, the lists differ right after it;
* `head?_eq_of_isPrefix`, `prefix_of_prefix_append`: prefixes of keys that start differently.
-/

set_option autoImplicit false

namespace ListPrefix

variable {α : Type}

section DecidableEq

variable [DecidableEq α]

/-- The length of the longest common prefix. -/
def commonPrefix : List α → List α → Nat
  | a :: xs, b :: ys => if a = b then commonPrefix xs ys + 1 else 0
  | _, _ => 0

@[simp] theorem commonPrefix_nil_left (ys : List α) : commonPrefix [] ys = 0 := rfl

@[simp] theorem commonPrefix_nil_right (xs : List α) : commonPrefix xs [] = 0 := by
  cases xs <;> rfl

theorem commonPrefix_cons_cons (a b : α) (xs ys : List α) :
    commonPrefix (a :: xs) (b :: ys) = if a = b then commonPrefix xs ys + 1 else 0 := rfl

@[simp] theorem commonPrefix_cons_self (a : α) (xs ys : List α) :
    commonPrefix (a :: xs) (a :: ys) = commonPrefix xs ys + 1 := by
  simp [commonPrefix_cons_cons]

theorem commonPrefix_cons_of_ne {a b : α} (h : a ≠ b) (xs ys : List α) :
    commonPrefix (a :: xs) (b :: ys) = 0 := by
  simp [commonPrefix_cons_cons, h]

theorem commonPrefix_comm : ∀ xs ys : List α, commonPrefix xs ys = commonPrefix ys xs
  | [], ys => by simp
  | _ :: _, [] => rfl
  | a :: xs, b :: ys => by
    by_cases h : a = b
    · subst h
      simp [commonPrefix_comm xs ys]
    · rw [commonPrefix_cons_of_ne h, commonPrefix_cons_of_ne (Ne.symm h)]

theorem commonPrefix_le_length_left : ∀ xs ys : List α, commonPrefix xs ys ≤ xs.length
  | [], _ => Nat.zero_le _
  | _ :: _, [] => Nat.zero_le _
  | a :: xs, b :: ys => by
    have ih := commonPrefix_le_length_left xs ys
    rw [commonPrefix_cons_cons]
    split <;> simp only [List.length_cons] <;> omega

theorem commonPrefix_le_length_right (xs ys : List α) : commonPrefix xs ys ≤ ys.length :=
  commonPrefix_comm xs ys ▸ commonPrefix_le_length_left ys xs

/-- Both lists agree on their first `commonPrefix xs ys` elements. -/
theorem take_commonPrefix : ∀ xs ys : List α,
    xs.take (commonPrefix xs ys) = ys.take (commonPrefix xs ys)
  | [], _ => by simp
  | _ :: _, [] => by simp
  | a :: xs, b :: ys => by
    by_cases h : a = b
    · subst h
      simp [take_commonPrefix xs ys]
    · simp [commonPrefix_cons_of_ne h]

/-- After the common prefix, the two lists start differently. -/
theorem commonPrefix_drop_eq_zero : ∀ xs ys : List α,
    commonPrefix (xs.drop (commonPrefix xs ys)) (ys.drop (commonPrefix xs ys)) = 0
  | [], _ => by simp
  | _ :: _, [] => by simp
  | a :: xs, b :: ys => by
    by_cases h : a = b
    · subst h
      simpa using commonPrefix_drop_eq_zero xs ys
    · simp [commonPrefix_cons_of_ne h]

theorem commonPrefix_eq_length_right_iff : ∀ xs ys : List α,
    commonPrefix xs ys = ys.length ↔ ys <+: xs
  | [], [] => by simp
  | [], _ :: _ => by simp
  | _ :: _, [] => by simp
  | a :: xs, b :: ys => by
    by_cases h : a = b
    · subst h
      simp [commonPrefix_eq_length_right_iff xs ys]
    · simp [commonPrefix_cons_of_ne h, Ne.symm h]

theorem commonPrefix_eq_length_left_iff (xs ys : List α) :
    commonPrefix xs ys = xs.length ↔ xs <+: ys := by
  rw [commonPrefix_comm]
  exact commonPrefix_eq_length_right_iff ys xs

theorem eq_of_commonPrefix_eq_length {xs ys : List α} (hx : commonPrefix xs ys = xs.length)
    (hy : commonPrefix xs ys = ys.length) : xs = ys :=
  ((commonPrefix_eq_length_left_iff xs ys).mp hx).eq_of_length (hx.symm.trans hy)

/-- A list is the common prefix, taken from the other list, followed by its own rest. -/
theorem take_append_drop_commonPrefix (xs ys : List α) :
    xs.take (commonPrefix xs ys) ++ ys.drop (commonPrefix xs ys) = ys := by
  rw [take_commonPrefix, List.take_append_drop]

/-- Short of both lengths, the common prefix stops where the lists differ. -/
theorem exists_split_of_commonPrefix_lt :
    ∀ {xs ys : List α}, commonPrefix xs ys < xs.length → commonPrefix xs ys < ys.length →
      ∃ pre a b xs' ys', xs = pre ++ a :: xs' ∧ ys = pre ++ b :: ys' ∧
        pre.length = commonPrefix xs ys ∧ a ≠ b
  | [], _, hx, _ => absurd hx (Nat.not_lt_zero _)
  | _ :: _, [], _, hy => by simp at hy
  | a :: xs, b :: ys, hx, hy => by
    by_cases hab : a = b
    · subst hab
      simp only [commonPrefix_cons_self, List.length_cons, Nat.add_lt_add_iff_right] at hx hy
      obtain ⟨pre, a', b', xs', ys', rfl, rfl, hlen, hne⟩ := exists_split_of_commonPrefix_lt hx hy
      exact ⟨a :: pre, a', b', xs', ys', rfl, rfl, by simp [hlen], hne⟩
    · exact ⟨[], a, b, xs, ys, rfl, rfl, by simp [commonPrefix_cons_of_ne hab], hab⟩

end DecidableEq

/-! ## Prefixes of keys that start differently -/

theorem head?_eq_of_isPrefix {d k₁ k₂ : List α} (hd : d ≠ []) (h₁ : d <+: k₁) (h₂ : d <+: k₂) :
    k₁.head? = k₂.head? := by
  obtain ⟨a, d, rfl⟩ := List.exists_cons_of_ne_nil hd
  obtain ⟨s₁, rfl⟩ := h₁
  obtain ⟨s₂, rfl⟩ := h₂
  rfl

/-- A list that is a prefix of `e ++ k₁` and of `e ++ k₂`, where `k₁` and `k₂` start
differently, is a prefix of `e`. -/
theorem prefix_of_prefix_append {d e k₁ k₂ : List α} (hk : k₁.head? ≠ k₂.head?)
    (h₁ : d <+: e ++ k₁) (h₂ : d <+: e ++ k₂) : d <+: e := by
  by_cases hlen : d.length ≤ e.length
  · exact List.prefix_of_prefix_length_le h₁ (List.prefix_append e k₁) hlen
  · have he : e <+: d := List.prefix_of_prefix_length_le (List.prefix_append e k₁) h₁ (by omega)
    obtain ⟨r, rfl⟩ := he
    have hr : r ≠ [] := by
      rintro rfl
      simp at hlen
    exact absurd (head?_eq_of_isPrefix hr ((List.prefix_append_right_inj e).mp h₁)
      ((List.prefix_append_right_inj e).mp h₂)) hk

end ListPrefix
