import Mathlib

/-!
# Bitmap-indexed arrays

A sparse array of `n` slots kept as a bitmap of its occupied slots and the occupants packed in
slot order. Slot `i` is occupied when bit `i` is set, and its occupant sits at the rank of `i`:
the number of set bits below it.

* `testBit_ofPred`: the bitmap built slot by slot has exactly the bits of the occupied slots;
* `countOnes_ofPred`, `ofPred_mod`: the bits below `i` count the occupied slots below `i`;
* `getElem?_filterMap_rank`: the packed occupants, read at the rank of an occupied slot, give
  its occupant;
* `take_drop_flatMap`: packed encodings of one width, read at `i` widths, give the `i`-th;
* `mapM_range_eq_some`: reading the slots `0..n` one by one reads the first `n` entries.
-/

set_option autoImplicit false

namespace Bitmap

/-- `count_ones` of a `w`-bit word. -/
def countOnes : Nat → Nat → Nat
  | 0, _ => 0
  | w + 1, x => x % 2 + countOnes w (x / 2)

/-- The bitmap of the slots below `n` where `p` holds, built as the loop
`for i in 0..n { if p(i) { mask |= 1 << i } }` builds it. -/
def ofPred (p : Nat → Bool) (n : Nat) : Nat :=
  (List.range n).foldl (fun mask i => if p i then mask ||| 1 <<< i else mask) 0

variable (p : Nat → Bool)

theorem ofPred_succ (n : Nat) :
    ofPred p (n + 1) = if p n then ofPred p n ||| 1 <<< n else ofPred p n := by
  simp only [ofPred, List.range_succ, List.foldl_append, List.foldl_cons, List.foldl_nil]

theorem testBit_ofPred (n i : Nat) : (ofPred p n).testBit i = (decide (i < n) && p i) := by
  induction n with
  | zero => simp [ofPred]
  | succ n ih =>
    rw [ofPred_succ]
    by_cases hn : p n
    · rw [if_pos hn, Nat.testBit_or, ih, Nat.shiftLeft_eq, one_mul, Nat.testBit_two_pow]
      by_cases hi : i = n
      · subst hi; simp [hn]
      · have : i < n + 1 ↔ i < n := by omega
        simp [this, Ne.symm hi]
    · rw [if_neg hn, ih]
      by_cases hi : i = n
      · subst hi; simp [hn]
      · have : i < n + 1 ↔ i < n := by omega
        simp [this]

theorem ofPred_lt (n : Nat) : ofPred p n < 2 ^ n :=
  Nat.lt_pow_two_of_testBit _ fun i hi => by simp [testBit_ofPred]; omega

/-- The bits below `i` are the bitmap of the slots below `i`. -/
theorem ofPred_mod {i n : Nat} (h : i ≤ n) : ofPred p n % 2 ^ i = ofPred p i :=
  Nat.eq_of_testBit_eq fun j => by
    rw [Nat.testBit_mod_two_pow, testBit_ofPred, testBit_ofPred]
    by_cases hj : j < i
    · have : j < n := by omega
      simp [hj, this]
    · simp [hj]

theorem countOnes_eq_countP (w x : Nat) : countOnes w x = (List.range w).countP x.testBit := by
  induction w generalizing x with
  | zero => rfl
  | succ w ih =>
    rw [countOnes, ih, List.range_succ_eq_map, List.countP_cons, List.countP_map]
    have hshift : (x.testBit ∘ Nat.succ) = (x / 2).testBit := by
      funext j
      simp [Nat.testBit_div_two]
    rw [hshift, Nat.testBit_zero]
    rcases Nat.mod_two_eq_zero_or_one x with h | h <;> simp [h]; omega

/-- Counting the set bits of the bitmap counts the occupied slots. -/
theorem countOnes_ofPred {n w : Nat} (h : n ≤ w) :
    countOnes w (ofPred p n) = (List.range n).countP p := by
  obtain ⟨k, rfl⟩ := Nat.exists_eq_add_of_le h
  rw [countOnes_eq_countP, List.range_add, List.countP_append, List.countP_map]
  have hlow : (List.range n).countP (ofPred p n).testBit = (List.range n).countP p := by
    refine List.countP_congr fun i hi => ?_
    rw [List.mem_range] at hi
    simp [testBit_ofPred, hi]
  have hhigh : (List.range k).countP ((ofPred p n).testBit ∘ (n + ·)) = 0 := by
    refine List.countP_eq_zero.mpr fun i _ => ?_
    simp [testBit_ofPred]
  rw [hlow, hhigh, Nat.add_zero]

/-- `x & (1 << i) != 0` tests bit `i`. -/
theorem and_shiftLeft_ne_zero (x i : Nat) : x &&& 1 <<< i ≠ 0 ↔ x.testBit i = true := by
  rw [Nat.shiftLeft_eq, one_mul, Nat.and_two_pow]
  cases x.testBit i <;> simp

/-- `x & ((1 << i) - 1)` keeps the bits below `i`. -/
theorem and_shiftLeft_sub_one (x i : Nat) : x &&& (1 <<< i) - 1 = x % 2 ^ i := by
  rw [Nat.shiftLeft_eq, one_mul, Nat.and_two_pow_sub_one_eq_mod]

/-! ## Slots of a list of options -/

variable {α : Type} {l : List (Option α)}

/-- The occupied slots below `i`, counted slot by slot, are the occupants of `l.take i`. -/
theorem countP_range_getD {i : Nat} (h : i ≤ l.length) :
    (List.range i).countP (fun j => (l.getD j none).isSome) = (l.take i).countP Option.isSome := by
  induction i with
  | zero => simp
  | succ i ih =>
    rw [List.range_succ, List.countP_append, ih (by omega), List.take_add_one, List.countP_append,
      List.getElem?_eq_getElem (by omega)]
    simp [List.getD_eq_getElem?_getD, List.getElem?_eq_getElem (show i < l.length by omega)]

/-- The occupant of slot `i` sits at the rank of `i` among the packed occupants. -/
theorem getElem?_filterMap_rank {i : Nat} {a : α} (h : l[i]? = some (some a)) :
    (l.filterMap id)[(l.take i).countP Option.isSome]? = some a := by
  induction l generalizing i with
  | nil => simp at h
  | cons x l ih =>
    cases i with
    | zero =>
      obtain rfl : x = some a := by simpa using h
      simp
    | succ i =>
      have h' : l[i]? = some (some a) := by simpa using h
      cases x with
      | none => simpa using ih h'
      | some b => simpa using ih h'

/-! ## Packed encodings of one width -/

variable {β γ : Type} (f : β → List γ) {w : Nat}

theorem length_flatMap_of_width (hw : ∀ b, (f b).length = w) (bs : List β) :
    (bs.flatMap f).length = bs.length * w := by
  induction bs with
  | nil => simp
  | cons b bs ih => simp [List.flatMap_cons, hw, ih, Nat.succ_mul, Nat.add_comm]

/-- The `i`-th of the packed encodings starts `i` widths in. -/
theorem take_drop_flatMap (hw : ∀ b, (f b).length = w) {bs : List β} {i : Nat}
    (hi : i < bs.length) : ((bs.flatMap f).drop (i * w)).take w = f bs[i] := by
  induction bs generalizing i with
  | nil => simp at hi
  | cons b bs ih =>
    cases i with
    | zero => simp [List.flatMap_cons, ← hw b]
    | succ i =>
      have hdrop : (i + 1) * w = (f b).length + i * w := by rw [hw, Nat.succ_mul, Nat.add_comm]
      rw [List.flatMap_cons, hdrop, List.drop_append, List.drop_eq_nil_of_le (by omega),
        List.nil_append, Nat.add_sub_cancel_left]
      exact ih (by simpa using hi)

/-- Reading the slots `0..n` one by one, when slot `i` reads as `l[i]`, reads `l.take n`. -/
theorem mapM_range_eq_some {δ : Type} {F : Nat → Option δ} {l : List δ}
    (hF : ∀ i (hi : i < l.length), F i = some l[i]) {n : Nat} (hn : n ≤ l.length) :
    (List.range n).mapM F = some (l.take n) := by
  induction n with
  | zero => simp
  | succ n ih =>
    rw [List.range_succ, List.mapM_append, ih (by omega), List.take_add_one,
      List.getElem?_eq_getElem (by omega)]
    simp [hF n (by omega)]

end Bitmap
