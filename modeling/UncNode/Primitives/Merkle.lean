import Mathlib
import UncNode.Lib.MerkleTree

/-!
# Merkle paths and the partial Merkle tree of `core/primitives/src/merkle.rs`

`combine_hash` hashes a pair of hashes; it is SHA-256 of their Borsh encoding, which is code
outside this repository, so here it is any function `combineHash`. Nothing below needs it to be
collision free: the results say which hashes the code computes, not that they bind.

* `computeRootFromPath`: folds a path of siblings into a root;
* `PartialMerkleTree`, `PartialMerkleTree.insert`, `PartialMerkleTree.root`: the append-only
  tree that keeps one hash per set bit of its size;
* `PartialMerkleTree.ofLeaves`: the tree built by inserting a list of leaves in order;
* **`ofLeaves_eq`**: inserting never fails, and the path is the list of peaks of the leaves;
* **`root_ofLeaves`**: the root is the root of the binary Merkle tree of the leaves.
-/

set_option autoImplicit false

namespace Unc

/-- `Direction`: the side of the sibling in a Merkle path item. -/
inductive Direction where
  | left
  | right
  deriving DecidableEq, Repr

/-- `MerklePathItem`. -/
structure MerklePathItem (H : Type) where
  hash : H
  direction : Direction
  deriving DecidableEq, Repr

/-- `PartialMerkleTree`: the path for the next leaf and the number of leaves. -/
structure PartialMerkleTree (H : Type) where
  path : List H
  size : Nat
  deriving DecidableEq, Repr

variable {H : Type}

/-- `PartialMerkleTree::default`. -/
instance : Inhabited (PartialMerkleTree H) := ⟨{ path := [], size := 0 }⟩

section

variable (combineHash : H → H → H)

/-- `compute_root_from_path`: a sibling on the left is hashed before the running hash. -/
def computeRootFromPath (path : List (MerklePathItem H)) (itemHash : H) : H :=
  path.foldl
    (fun res item =>
      match item.direction with
      | .left => combineHash item.hash res
      | .right => combineHash res item.hash)
    itemHash

/-- `verify_hash`. -/
def verifyHash [DecidableEq H] (root : H) (path : List (MerklePathItem H)) (itemHash : H) : Bool :=
  decide (computeRootFromPath combineHash path itemHash = root)

namespace PartialMerkleTree

/-- `root`: `CryptoHash::default()` for an empty path, else the last element hashed with each
earlier one from the right. -/
def root [Inhabited H] (t : PartialMerkleTree H) : H :=
  match t.path.getLast? with
  | none => default
  | some last => t.path.dropLast.foldr combineHash last

/-- The carry loop of `insert`: while `s` is odd, pop the last path element and hash it before
`node`. `none` where `pop().unwrap()` finds the path empty. -/
def insertLoop (path : List H) (s : Nat) (node : H) : Option (List H) :=
  if s % 2 = 1 then
    match path.getLast? with
    | none => none
    | some last => insertLoop path.dropLast (s / 2) (combineHash last node)
  else some (path ++ [node])
termination_by s
decreasing_by omega

/-- `insert`. -/
def insert (t : PartialMerkleTree H) (elem : H) : Option (PartialMerkleTree H) :=
  (insertLoop combineHash t.path t.size elem).map fun p => { path := p, size := t.size + 1 }

/-- The tree obtained from the default tree by inserting `leaves` in order. -/
def ofLeaves (leaves : List H) : Option (PartialMerkleTree H) :=
  leaves.foldlM (fun t x => t.insert combineHash x) default

end PartialMerkleTree

end

@[simp] theorem computeRootFromPath_concat {f : H → H → H} (path : List (MerklePathItem H))
    (item : MerklePathItem H) (itemHash : H) :
    computeRootFromPath f (path ++ [item]) itemHash =
      match item.direction with
      | .left => f item.hash (computeRootFromPath f path itemHash)
      | .right => f (computeRootFromPath f path itemHash) item.hash := by
  simp [computeRootFromPath]

/-! ## The path is the list of peaks -/

namespace PartialMerkleTree

open BinaryMerkle

variable {f : H → H → H}

theorem root_eq_rightFold [Inhabited H] (t : PartialMerkleTree H) :
    t.root f = (rightFold f t.path).getD default := by
  -- the loop of `root` is the fold from the right, seeded with the last element
  have hfold : ∀ (P : List H) (a : H), rightFold f (P ++ [a]) = some (P.foldr f a) := by
    intro P a
    induction P with
    | nil => rfl
    | cons p P ih => simp [rightFold, ih]
  unfold root
  cases h : t.path.getLast? with
  | none => rw [List.getLast?_eq_none_iff.mp h]; rfl
  | some last =>
    obtain ⟨P, hP⟩ := List.getLast?_eq_some_iff.mp h
    rw [hP, List.dropLast_concat, hfold]
    rfl

/-- The loop invariant of `insert` on a tree of `n` leaves: after the carry has climbed to level
`l`, the path holds the peaks of the old leaves at levels `l` and above, the carried hash is the
new subtree at level `l`, and `n + 1` is `s + 1` subtrees of that level. -/
theorem insertLoop_peaks (xs : List H) (x : H) (s : Nat) :
    ∀ (l : Nat) (acc : H), xs.length + 1 = (s + 1) * 2 ^ l →
      node f (xs ++ [x]) l s = some acc →
      peaks f (xs ++ [x]) = peaksAt f (xs ++ [x]) l (s + 1) →
      insertLoop f (peaksAt f xs l s) s acc = some (peaks f (xs ++ [x])) := by
  induction s using Nat.strong_induction_on with
  | _ s ih =>
    intro l acc hlen hacc hpeaks
    have hp := Nat.one_le_two_pow (n := l)
    have hlen' : xs.length + 1 = s * 2 ^ l + 2 ^ l := by rw [hlen, Nat.succ_mul]
    rw [insertLoop]
    split_ifs with hs
    · -- the carry goes on: the last peak is the complete subtree just left of the new one
      have hprev : node f xs l (s - 1) = node f (xs ++ [x]) l (s - 1) :=
        (node_append [x] (by rw [show s - 1 + 1 = s by omega]; omega)).symm
      have hlt : (s - 1) * 2 ^ l < xs.length := by
        have : (s - 1) * 2 ^ l + 2 ^ l = s * 2 ^ l := by
          rw [← Nat.succ_mul, show (s - 1).succ = s by omega]
        omega
      obtain ⟨v, hv⟩ := Option.isSome_iff_exists.mp (node_isSome (f := f) hlt)
      rw [peaksAt_odd _ _ _ hs, hv, Option.toList_some, List.getLast?_concat, List.dropLast_concat]
      refine ih (s / 2) (by omega) (l + 1) (f v acc) ?_ ?_ ?_
      · rw [hlen, Nat.pow_succ]
        have : s + 1 = (s / 2 + 1) * 2 := by omega
        rw [this, Nat.mul_assoc, Nat.mul_comm 2 (2 ^ l)]
      · rw [node_succ_div, if_neg (by omega), ← hprev, hv, hacc]; rfl
      · rw [hpeaks, peaksAt_even _ _ _ (by omega), show (s + 1) / 2 = s / 2 + 1 by omega]
    · -- the carry stops: it becomes the lowest peak
      have hs0 : s % 2 = 0 := by omega
      have hhalf : s / 2 * 2 ^ (l + 1) = s * 2 ^ l := by
        rw [Nat.pow_succ, Nat.mul_comm (2 ^ l) 2, ← Nat.mul_assoc,
          Nat.div_mul_cancel (Nat.dvd_of_mod_eq_zero hs0)]
      have hkeep : peaksAt f (xs ++ [x]) (l + 1) (s / 2) = peaksAt f xs (l + 1) (s / 2) :=
        peaksAt_append [x] (l + 1) (s / 2) (by omega)
      rw [hpeaks, peaksAt_odd (xs ++ [x]) l (s + 1) (by omega), Nat.add_sub_cancel, hacc,
        show (s + 1) / 2 = s / 2 by omega, hkeep, peaksAt_even xs l s hs0]
      rfl

/-- Inserting into the tree of `xs` gives the tree of `xs ++ [x]`. -/
theorem insert_peaks (xs : List H) (x : H) :
    insert f { path := peaks f xs, size := xs.length } x =
      some { path := peaks f (xs ++ [x]), size := xs.length + 1 } := by
  have h := insertLoop_peaks (f := f) xs x xs.length 0 x (by simp)
    (by simp [node_zero]) (by simp [peaks])
  simp only [insert, peaks] at h ⊢
  rw [h]
  rfl

/-- **Inserting never fails**, and the path is the list of peaks of the leaves. -/
theorem ofLeaves_eq (xs : List H) :
    ofLeaves f xs = some { path := peaks f xs, size := xs.length } := by
  induction xs using List.reverseRec with
  | nil => rw [peaks, List.length_nil, peaksAt_zero]; rfl
  | append_singleton xs x ih =>
    rw [ofLeaves, List.foldlM_append, ← ofLeaves, ih]
    simp [insert_peaks]

/-- **The root of the tree of `xs`** is the root of the binary Merkle tree of `xs`, at any
height that covers the leaves (and the default hash for no leaves). -/
theorem root_ofLeaves [Inhabited H] (xs : List H) {M : Nat} (hM : xs.length ≤ 2 ^ M) :
    (ofLeaves f xs).map (root f) = some ((node f xs M 0).getD default) := by
  rw [ofLeaves_eq, Option.map_some, root_eq_rightFold]
  simp only
  rw [rightFold_peaks hM]

end PartialMerkleTree

end Unc
