import Mathlib

/-!
# Binary Merkle trees over a list of leaves

For a combining function `f` and leaves `xs`, `node f xs l i` is the root of the aligned subtree
of height `l` whose leaves are those at positions `i * 2 ^ l` up to `(i + 1) * 2 ^ l`; it is
`none` when no leaf is there, and a subtree whose right half is empty has the root of its left
half. The root of the whole tree is `node f xs L 0` for any `L` with `xs.length ≤ 2 ^ L`.

An append-only tree can keep only the roots of its complete subtrees, one per set bit of its
size from the highest to the lowest (`peaks`); folding them from the right gives the root.

* `node_isSome_iff`, `node_append`, `node_append_right`, `node_top`: where a subtree is, and
  that a complete subtree does not change when leaves are added before or after it;
* `node_succ_div`: a node from its two children, seen from either child;
* `peaksAt`, `peaks`, `peaksAt_append`, `peaks_getLast?`;
* **`rightFold_peaks`**: folding the peaks from the right gives the root.
-/

set_option autoImplicit false

namespace BinaryMerkle

variable {α : Type} (f : α → α → α)

/-- Combines two optional subtree roots: a missing right subtree leaves the left one, and a
missing left subtree leaves nothing. -/
def combineMaybe : Option α → Option α → Option α
  | some a, some b => some (f a b)
  | some a, none => some a
  | none, _ => none

@[simp] theorem combineMaybe_some_some (a b : α) :
    combineMaybe f (some a) (some b) = some (f a b) := rfl

@[simp] theorem combineMaybe_none_right (x : Option α) : combineMaybe f x none = x := by
  cases x <;> rfl

@[simp] theorem combineMaybe_none_left (y : Option α) : combineMaybe f none y = none := rfl

/-- The root of the aligned subtree at `level` and `index`. -/
def node (xs : List α) : Nat → Nat → Option α
  | 0, i => xs[i]?
  | l + 1, i => combineMaybe f (node xs l (2 * i)) (node xs l (2 * i + 1))

variable {f}

@[simp] theorem node_zero (xs : List α) (i : Nat) : node f xs 0 i = xs[i]? := rfl

theorem node_succ (xs : List α) (l i : Nat) :
    node f xs (l + 1) i = combineMaybe f (node f xs l (2 * i)) (node f xs l (2 * i + 1)) := rfl

/-! ## Where a subtree is -/

theorem node_eq_none {xs : List α} : ∀ {l i : Nat}, xs.length ≤ i * 2 ^ l → node f xs l i = none
  | 0, i, h => List.getElem?_eq_none (by simpa using h)
  | l + 1, i, h => by
    rw [node_succ, node_eq_none (by rw [Nat.pow_succ] at h; linarith)]
    rfl

theorem node_isSome {xs : List α} : ∀ {l i : Nat}, i * 2 ^ l < xs.length →
    (node f xs l i).isSome
  | 0, i, h => by simp [List.getElem?_eq_getElem (by simpa using h)]
  | l + 1, i, h => by
    have hl : (2 * i) * 2 ^ l < xs.length := by rw [Nat.pow_succ] at h; linarith
    obtain ⟨a, ha⟩ := Option.isSome_iff_exists.mp (node_isSome hl)
    rw [node_succ, ha]
    cases node f xs l (2 * i + 1) <;> rfl

/-- A complete subtree does not change when leaves are appended after it. -/
theorem node_append {xs : List α} (ys : List α) : ∀ {l i : Nat}, (i + 1) * 2 ^ l ≤ xs.length →
    node f (xs ++ ys) l i = node f xs l i
  | 0, i, h => List.getElem?_append_left (by simp at h; omega)
  | l + 1, i, h => by
    have h1 : (2 * i + 1 + 1) * 2 ^ l ≤ xs.length := by rw [Nat.pow_succ] at h; linarith
    have h0 : (2 * i + 1) * 2 ^ l ≤ xs.length := by nlinarith [Nat.one_le_two_pow (n := l)]
    rw [node_succ, node_succ, node_append ys h0, node_append ys h1]

/-- A subtree holds a leaf exactly when its first leaf is there. -/
theorem node_isSome_iff {xs : List α} {l i : Nat} :
    (node f xs l i).isSome ↔ i * 2 ^ l < xs.length := by
  refine ⟨fun h => ?_, node_isSome⟩
  by_contra hn
  rw [node_eq_none (by omega)] at h
  cases h

/-- Leaves prepended in `c` whole subtrees shift the later subtrees by `c`. -/
theorem node_append_right {ys : List α} (zs : List α) :
    ∀ {l c : Nat}, ys.length = c * 2 ^ l → ∀ i, node f (ys ++ zs) l (c + i) = node f zs l i
  | 0, c, h, i => by
    simp only [Nat.pow_zero, Nat.mul_one] at h
    simp [List.getElem?_append_right, h]
  | l + 1, c, h, i => by
    have h2 : ys.length = (2 * c) * 2 ^ l := by rw [h, Nat.pow_succ]; ring
    rw [node_succ, node_succ, show 2 * (c + i) = 2 * c + 2 * i by ring,
      show 2 * c + 2 * i + 1 = 2 * c + (2 * i + 1) by ring, node_append_right zs h2,
      node_append_right zs h2]

/-- Above the height of the tree, the leftmost node is the root. -/
theorem node_succ_zero {xs : List α} {l : Nat} (h : xs.length ≤ 2 ^ l) :
    node f xs (l + 1) 0 = node f xs l 0 := by
  rw [node_succ, Nat.mul_zero, Nat.zero_add, node_eq_none (l := l) (i := 1) (by simpa using h),
    combineMaybe_none_right]

theorem node_top_le {xs : List α} {l : Nat} (h : xs.length ≤ 2 ^ l) :
    ∀ k, node f xs (l + k) 0 = node f xs l 0
  | 0 => rfl
  | k + 1 => by
    have hk : xs.length ≤ 2 ^ (l + k) :=
      h.trans (Nat.pow_le_pow_right (by norm_num) (Nat.le_add_right l k))
    rw [← Nat.add_assoc, node_succ_zero hk, node_top_le h k]

/-- **The root does not depend on the height chosen**, once it covers every leaf. -/
theorem node_top {xs : List α} {l m : Nat} (hl : xs.length ≤ 2 ^ l) (hm : xs.length ≤ 2 ^ m) :
    node f xs l 0 = node f xs m 0 := by
  rcases Nat.le_total l m with h | h
  · obtain ⟨k, rfl⟩ := Nat.exists_eq_add_of_le h
    exact (node_top_le hl k).symm
  · obtain ⟨k, rfl⟩ := Nat.exists_eq_add_of_le h
    exact node_top_le hm k

/-- A node seen from one of its children `c`: the other child is `c + 1` or `c - 1`. -/
theorem node_succ_div (xs : List α) (l c : Nat) :
    node f xs (l + 1) (c / 2) =
      if c % 2 = 0 then combineMaybe f (node f xs l c) (node f xs l (c + 1))
      else combineMaybe f (node f xs l (c - 1)) (node f xs l c) := by
  rw [node_succ]
  split_ifs with h
  · rw [show 2 * (c / 2) = c by omega]
  · rw [show 2 * (c / 2) = c - 1 by omega, show c - 1 + 1 = c by omega]

/-! ## Peaks -/

variable (f)

/-- The roots of the complete subtrees at levels `l` and above, from the highest level down,
when `c` complete subtrees of height `l` stand before the incomplete rest. -/
def peaksAt (xs : List α) (l c : Nat) : List α :=
  if c = 0 then []
  else peaksAt xs (l + 1) (c / 2) ++ (if c % 2 = 1 then (node f xs l (c - 1)).toList else [])
termination_by c

/-- The roots of the complete subtrees of the tree of `xs`, one per set bit of its size. -/
def peaks (xs : List α) : List α := peaksAt f xs 0 xs.length

/-- Folds a list from the right with `f`; `none` for the empty list. -/
def rightFold : List α → Option α
  | [] => none
  | a :: rest => combineMaybe f (some a) (rightFold rest)

variable {f}

theorem peaksAt_zero (xs : List α) (l : Nat) : peaksAt f xs l 0 = [] := by
  rw [peaksAt, if_pos rfl]

theorem peaksAt_odd (xs : List α) (l c : Nat) (hc : c % 2 = 1) :
    peaksAt f xs l c = peaksAt f xs (l + 1) (c / 2) ++ (node f xs l (c - 1)).toList := by
  rw [peaksAt, if_neg (by omega), if_pos hc]

theorem peaksAt_even (xs : List α) (l c : Nat) (hc : c % 2 = 0) :
    peaksAt f xs l c = peaksAt f xs (l + 1) (c / 2) := by
  by_cases h0 : c = 0
  · rw [h0, peaksAt_zero, peaksAt_zero]
  · rw [peaksAt, if_neg h0, if_neg (by omega), List.append_nil]

/-- Appending leaves after the complete subtrees keeps their peaks. -/
theorem peaksAt_append {xs : List α} (ys : List α) (l c : Nat) (h : c * 2 ^ l ≤ xs.length) :
    peaksAt f (xs ++ ys) l c = peaksAt f xs l c := by
  induction c using Nat.strong_induction_on generalizing l with
  | _ c ih =>
    by_cases h0 : c = 0
    · rw [h0, peaksAt_zero, peaksAt_zero]
    have hrec : c / 2 * 2 ^ (l + 1) ≤ xs.length :=
      calc c / 2 * 2 ^ (l + 1) = (c / 2 * 2) * 2 ^ l := by rw [Nat.pow_succ]; ring
        _ ≤ c * 2 ^ l := Nat.mul_le_mul_right _ (Nat.div_mul_le_self c 2)
        _ ≤ xs.length := h
    rcases Nat.mod_two_eq_zero_or_one c with hc | hc
    · rw [peaksAt_even _ _ _ hc, peaksAt_even _ _ _ hc, ih (c / 2) (by omega) (l + 1) hrec]
    · rw [peaksAt_odd _ _ _ hc, peaksAt_odd _ _ _ hc, ih (c / 2) (by omega) (l + 1) hrec,
        node_append ys (by rw [show c - 1 + 1 = c by omega]; exact h)]

/-- Below the lowest set bit of the size nothing is kept. -/
theorem peaksAt_mul_two_pow (xs : List α) (c : Nat) :
    ∀ (k l : Nat), peaksAt f xs l (c * 2 ^ k) = peaksAt f xs (l + k) c
  | 0, l => by simp
  | k + 1, l => by
    have hpow : c * 2 ^ (k + 1) = c * 2 ^ k * 2 := by rw [Nat.pow_succ, Nat.mul_assoc]
    rw [peaksAt_even _ _ _ (by rw [hpow]; omega), show c * 2 ^ (k + 1) / 2 = c * 2 ^ k by omega,
      peaksAt_mul_two_pow xs c k (l + 1), show l + 1 + k = l + (k + 1) by omega]

/-- **The last peak of a tree whose size is `(i + 1) * 2 ^ l` with `i` even** is the subtree
at level `l` and index `i`. -/
theorem peaks_getLast? {xs : List α} {l i : Nat} (hi : i % 2 = 0)
    (hlen : xs.length = (i + 1) * 2 ^ l) : (peaks f xs).getLast? = node f xs l i := by
  have hsome : (node f xs l i).isSome := node_isSome (by
    rw [hlen]; exact Nat.mul_lt_mul_of_pos_right (Nat.lt_succ_self i) (Nat.two_pow_pos l))
  rw [peaks, hlen, peaksAt_mul_two_pow, Nat.zero_add, peaksAt_odd _ _ _ (by omega),
    Nat.add_sub_cancel, List.getLast?_append]
  obtain ⟨a, ha⟩ := Option.isSome_iff_exists.mp hsome
  simp [ha]

/-! ## The root from the peaks -/

theorem rightFold_append (P Q : List α) :
    rightFold f (P ++ Q) = rightFold f (P ++ (rightFold f Q).toList) := by
  induction P with
  | nil => cases h : rightFold f Q <;> simp [rightFold, h]
  | cons p P ih => simp only [List.cons_append, rightFold, ih]

/-- The peaks at levels `l` and above, followed by the partial subtree at level `l`, fold to
the root. The induction follows the recursion of `peaksAt`, one level at a time: at each level
the last complete subtree and the partial one merge into the partial one of the level above. -/
theorem rightFold_peaksAt {xs : List α} {M : Nat} (hM : xs.length ≤ 2 ^ M) (c : Nat) :
    ∀ l, c = xs.length / 2 ^ l →
      rightFold f (peaksAt f xs l c ++ (node f xs l c).toList) = node f xs M 0 := by
  induction c using Nat.strong_induction_on with
  | _ c ih =>
    intro l hc
    by_cases h0 : c = 0
    · -- no complete subtree is left: the partial one at this level is the whole tree
      have hlt : xs.length < 2 ^ l := by
        have := Nat.lt_mul_div_succ xs.length (Nat.two_pow_pos l); rw [← hc, h0] at this; omega
      rw [h0, peaksAt_zero, List.nil_append]
      cases h : node f xs l 0 with
      | none => rw [← node_top hlt.le hM, h]; rfl
      | some a => rw [← node_top hlt.le hM, h]; rfl
    have hc2 : c / 2 = xs.length / 2 ^ (l + 1) := by rw [hc, Nat.pow_succ, Nat.div_div_eq_div_mul]
    -- the partial subtree at level `l + 1` is made of the last complete one and the partial one
    have hup : rightFold f ((if c % 2 = 1 then (node f xs l (c - 1)).toList else []) ++
        (node f xs l c).toList) = node f xs (l + 1) (c / 2) := by
      rw [node_succ_div]
      split_ifs with h1 h2 h2
      · omega
      · have hle : c * 2 ^ l ≤ xs.length := by rw [hc]; exact Nat.div_mul_le_self _ _
        have hs : (node f xs l (c - 1)).isSome := node_isSome (calc
          (c - 1) * 2 ^ l < c * 2 ^ l := Nat.mul_lt_mul_of_pos_right (by omega) (Nat.two_pow_pos l)
          _ ≤ xs.length := hle)
        obtain ⟨a, ha⟩ := Option.isSome_iff_exists.mp hs
        rw [ha]
        cases node f xs l c <;> rfl
      · have hnone : node f xs l (c + 1) = none := node_eq_none (by
          have := Nat.lt_mul_div_succ xs.length (Nat.two_pow_pos l); rw [← hc] at this
          rw [Nat.mul_comm]; omega)
        rw [hnone, combineMaybe_none_right, List.nil_append]
        cases node f xs l c <;> rfl
      · omega
    rw [peaksAt, if_neg h0, List.append_assoc, rightFold_append, hup]
    exact ih (c / 2) (by omega) (l + 1) hc2

/-- **Folding the peaks from the right gives the root** of a non-empty tree. -/
theorem rightFold_peaks {xs : List α} {M : Nat} (hM : xs.length ≤ 2 ^ M) :
    rightFold f (peaks f xs) = node f xs M 0 := by
  have h := rightFold_peaksAt (f := f) hM xs.length 0 (by simp)
  rwa [node_zero, List.getElem?_eq_none (le_refl _), Option.toList_none, List.append_nil] at h

end BinaryMerkle
