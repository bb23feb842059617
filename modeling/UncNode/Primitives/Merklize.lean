import Mathlib
import UncNode.Primitives.Merkle

/-!
# `merklize` — `core/primitives/src/merkle.rs`

`merklize` hashes the items and then computes the binary Merkle tree level by level, in place in
one array of hashes, while it builds the path of every leaf: when a node of a level is computed,
its hash is pushed onto the path of every leaf below its sibling. A node without a right child
carries its left child up, so the tree is the one of `BinaryMerkle.node`. The tests compare it
with a recursive `compute_root` that splits at half the next power of two.

A leaf's path is one item per level below the root (`levelItem`): the root of the sibling of its
ancestor there, when that sibling holds a leaf. The loop is proved against that description one
round (`merklizeRound_spec`), one level (`merklizeLevel_spec`) and all levels
(`merklizeLevels_spec`) at a time.

* `computeRootFromPath_levelItems`: the first `k` items lead from a leaf to its ancestor at level
  `k`;
* `computeRoot_eq`: the reference root is the root of the tree;
* **`merklize_agrees_and_verifies`**: for a non-empty list, `merklize` returns one path per
  item, each path verifies, the root is that of the `PartialMerkleTree` of the item hashes and
  that of `compute_root`, and no path is longer than `⌈log₂ n⌉`.
-/

set_option autoImplicit false

namespace Unc

open BinaryMerkle

variable {T H : Type}

/-- `usize::next_power_of_two`: the least power of two not below `n`. -/
def nextPowerOfTwo (n : Nat) : Nat := 2 ^ Nat.clog 2 n

theorem le_nextPowerOfTwo (n : Nat) : n ≤ nextPowerOfTwo n := Nat.le_pow_clog (by norm_num) n

/-- Above one, half the next power of two is a power of two below `n`. -/
theorem half_nextPowerOfTwo {n : Nat} (hn : 1 < n) :
    nextPowerOfTwo n / 2 = 2 ^ (Nat.clog 2 n - 1) ∧ 2 ^ (Nat.clog 2 n - 1) < n := by
  have hc : 0 < Nat.clog 2 n := Nat.clog_pos (by norm_num) hn
  refine ⟨?_, Nat.pow_pred_clog_lt_self (by norm_num) hn⟩
  rw [nextPowerOfTwo, show Nat.clog 2 n = Nat.clog 2 n - 1 + 1 by omega, Nat.pow_succ,
    Nat.mul_div_cancel _ (by norm_num), Nat.add_sub_cancel]

section

variable (combineHash : H → H → H)

/-- The loop `for j in 0..counter` of `merklize`: `paths[start + j].push(item)` for every
`start + j` below `n`. -/
def pushPathItems (n start counter : Nat) (item : MerklePathItem H)
    (paths : List (List (MerklePathItem H))) : List (List (MerklePathItem H)) :=
  (List.range counter).foldl
    (fun paths j => if start + j < n then paths.modify (start + j) (· ++ [item]) else paths) paths

/-- The hash of node `i` from the `arrLen` hashes of the level below: `hashes[2 * i]` when it
has no right child, else `combine_hash(&hashes[2 * i], &hashes[2 * i + 1])`. -/
def nodeHash (arrLen : Nat) (hashes : List H) (i : Nat) : Option H :=
  if arrLen ≤ 2 * i + 1 then hashes[2 * i]?
  else do pure (combineHash (← hashes[2 * i]?) (← hashes[2 * i + 1]?))

/-- Round `i` of the loop `for i in 0..len` of `merklize`, over the `arrLen` hashes of the level
below; `none` where an index panics. -/
def merklizeRound (n arrLen len counter : Nat) (st : List H × List (List (MerklePathItem H)))
    (i : Nat) : Option (List H × List (List (MerklePathItem H))) :=
  if arrLen ≤ 2 * i then some st
  else do
    let hash ← nodeHash combineHash arrLen st.1 i
    let hashes ← if i < st.1.length then some (st.1.set i hash) else none
    let paths :=
      if 1 < len then
        if i % 2 = 0 then pushPathItems n ((i + 1) * counter) counter ⟨hash, .left⟩ st.2
        else pushPathItems n ((i - 1) * counter) counter ⟨hash, .right⟩ st.2
      else st.2
    pure (hashes, paths)

/-- The loop `while len > 1` of `merklize`: halve `len`, double `counter`, compute the next level
in place, and go on with `arr_len = (arr_len + 1) / 2` nodes; the root is `hashes[0]`. -/
def merklizeLevels (n : Nat) (len counter arrLen : Nat) (hashes : List H)
    (paths : List (List (MerklePathItem H))) : Option (H × List (List (MerklePathItem H))) :=
  if h : 1 < len then do
    let st ← (List.range (len / 2)).foldlM
      (merklizeRound combineHash n arrLen (len / 2) (counter * 2)) (hashes, paths)
    merklizeLevels n (len / 2) (counter * 2) ((arrLen + 1) / 2) st.1 st.2
  else (hashes[0]?).map fun root => (root, paths)
termination_by len
decreasing_by omega

/-- The path of leaf `i` before the loop: its sibling among the leaves. -/
def initialPath (hashes : List H) (arrLen i : Nat) : Option (List (MerklePathItem H)) :=
  if i % 2 = 0 then
    if i + 1 < arrLen then (hashes[i + 1]?).map fun h => [⟨h, .right⟩] else some []
  else (hashes[i - 1]?).map fun h => [⟨h, .left⟩]

variable [Inhabited H]

/-- `compute_root` of the tests: the root of a list of hashes, split at half the next power of
two. -/
def computeRoot (hashes : List H) : H :=
  if h0 : hashes.length = 0 then default
  else if h1 : hashes.length = 1 then hashes[0]
  else
    let subtreeLen := nextPowerOfTwo hashes.length / 2
    combineHash (computeRoot (hashes.take subtreeLen)) (computeRoot (hashes.drop subtreeLen))
termination_by hashes.length
decreasing_by
  all_goals
    have ⟨heq, hlt⟩ := half_nextPowerOfTwo (show 1 < hashes.length by omega)
    have hpos := Nat.one_le_two_pow (n := Nat.clog 2 hashes.length - 1)
    simp only [List.length_take, List.length_drop, heq]
    omega

variable (hashBorsh : T → H)

/-- `merklize`: the root and the path of every item, `(default, [])` for no items. -/
def merklize (arr : List T) : Option (H × List (List (MerklePathItem H))) :=
  if arr.isEmpty then some (default, [])
  else
    let len := nextPowerOfTwo arr.length
    let hashes := arr.map hashBorsh
    if len = 1 then (hashes[0]?).map fun h => (h, [[]])
    else do
      let paths ← (List.range arr.length).mapM (initialPath hashes arr.length)
      merklizeLevels combineHash arr.length len 1 arr.length hashes paths

/-- `verify_path`: the path leads from the hash of the item to the root. -/
def verifyPath [DecidableEq H] (root : H) (path : List (MerklePathItem H)) (item : T) : Bool :=
  verifyHash combineHash root path (hashBorsh item)

end

/-! ## The path of a leaf, level by level -/

/-- The other child of the parent of node `c`. -/
def sibling (c : Nat) : Nat := if c % 2 = 0 then c + 1 else c - 1

variable {f : H → H → H}

variable (f) in
/-- The item that level `l` adds to the path of leaf `m`: the root of the sibling of its ancestor
at that level, on the sibling's side; nothing when the sibling holds no leaf. -/
def levelItem (xs : List H) (l m : Nat) : List (MerklePathItem H) :=
  (node f xs l (sibling (m / 2 ^ l))).toList.map fun h =>
    ⟨h, if m / 2 ^ l % 2 = 0 then .right else .left⟩

theorem computeRootFromPath_append (p q : List (MerklePathItem H)) (x : H) :
    computeRootFromPath f (p ++ q) x = computeRootFromPath f q (computeRootFromPath f p x) := by
  simp [computeRootFromPath, List.foldl_append]

theorem length_levelItem_le (xs : List H) (l m : Nat) : (levelItem f xs l m).length ≤ 1 := by
  unfold levelItem
  cases node f xs l (sibling (m / 2 ^ l)) <;> simp

/-- At and above the height of the tree a leaf has no sibling. -/
theorem levelItem_eq_nil {xs : List H} {l m : Nat} (hl : xs.length ≤ 2 ^ l)
    (hm : m < xs.length) : levelItem f xs l m = [] := by
  have h0 : m / 2 ^ l = 0 := Nat.div_eq_of_lt (by omega)
  have hnone : node f xs l 1 = none := node_eq_none (by simpa using hl)
  simp [levelItem, h0, sibling, hnone]

/-- A left sibling is there whenever the node is. -/
theorem node_isSome_of_le {xs : List H} {l i j : Nat} (hij : i ≤ j)
    (hj : (node f xs l j).isSome) : (node f xs l i).isSome :=
  node_isSome_iff.mpr (lt_of_le_of_lt (Nat.mul_le_mul_right _ hij) (node_isSome_iff.mp hj))

/-- **One level up**: the item of level `l` hashes the ancestor at level `l` into the one at
level `l + 1`. -/
theorem node_succ_of_levelItem {xs : List H} {l m : Nat} {y : H}
    (hy : node f xs l (m / 2 ^ l) = some y) :
    node f xs (l + 1) (m / 2 ^ (l + 1)) = some (computeRootFromPath f (levelItem f xs l m) y) := by
  have hdiv : m / 2 ^ (l + 1) = m / 2 ^ l / 2 := by rw [Nat.pow_succ, Nat.div_div_eq_div_mul]
  rw [hdiv, node_succ_div]
  unfold levelItem sibling
  split_ifs with hc
  · -- the ancestor is a left child: its sibling, if there, is hashed after it
    rw [hy]
    cases node f xs l (m / 2 ^ l + 1) <;> rfl
  · -- the ancestor is a right child: its sibling is there and is hashed before it
    obtain ⟨z, hz⟩ := Option.isSome_iff_exists.mp
      (node_isSome_of_le (Nat.sub_le (m / 2 ^ l) 1) (by rw [hy]; rfl))
    rw [hy, hz]
    rfl

/-- **The first `k` items of a path lead from the leaf to its ancestor at level `k`.** -/
theorem computeRootFromPath_levelItems {xs : List H} {m : Nat} {x : H} (hx : xs[m]? = some x) :
    ∀ k, node f xs k (m / 2 ^ k) =
      some (computeRootFromPath f ((List.range k).flatMap (levelItem f xs · m)) x)
  | 0 => by simpa [computeRootFromPath] using hx
  | k + 1 => by
    rw [List.range_succ, List.flatMap_append, computeRootFromPath_append, List.flatMap_singleton]
    exact node_succ_of_levelItem (computeRootFromPath_levelItems hx k)

/-- A path has at most one item per level below the height of the tree. -/
theorem length_levelItems_le {xs : List H} {m K : Nat} (hm : m < xs.length)
    (hK : xs.length ≤ 2 ^ K) :
    ∀ N, ((List.range N).flatMap (levelItem f xs · m)).length ≤ min N K
  | 0 => by simp
  | N + 1 => by
    rw [List.range_succ, List.flatMap_append, List.length_append, List.flatMap_singleton]
    have ih := length_levelItems_le hm hK N
    by_cases hN : N < K
    · have := length_levelItem_le (f := f) xs N m
      omega
    · rw [levelItem_eq_nil (hK.trans (Nat.pow_le_pow_right (by norm_num) (by omega))) hm]
      simp only [List.length_nil]
      omega

/-! ## One round of a level -/

/-- The leaves `start ≤ m < start + counter` below `n` get the item. -/
theorem getElem?_pushPathItems (n start counter : Nat) (item : MerklePathItem H)
    (paths : List (List (MerklePathItem H))) (m : Nat) :
    (pushPathItems n start counter item paths)[m]? =
      if start ≤ m ∧ m < start + counter ∧ m < n then paths[m]?.map (· ++ [item])
      else paths[m]? := by
  induction counter with
  | zero =>
    simp only [pushPathItems, List.range_zero, List.foldl_nil]
    rw [if_neg (by omega)]
  | succ c ih =>
    rw [pushPathItems, List.range_succ, List.foldl_append, ← pushPathItems]
    simp only [List.foldl_cons, List.foldl_nil]
    -- the last round touches index `start + c` only
    have hlast : ∀ P : List (List (MerklePathItem H)),
        (if start + c < n then P.modify (start + c) (· ++ [item]) else P)[m]? =
          if start + c = m ∧ m < n then P[m]?.map (· ++ [item]) else P[m]? := by
      intro P
      by_cases h : start + c = m ∧ m < n
      · rw [if_pos (by omega), if_pos h, h.1, List.getElem?_modify_eq]
        rfl
      · rw [if_neg h]
        split_ifs with hn
        · have hne : start + c ≠ m := by omega
          simp [hne]
        · rfl
    rw [hlast, ih]
    by_cases hm : start ≤ m ∧ m < start + c ∧ m < n
    · rw [if_neg (by omega), if_pos hm, if_pos (by omega)]
    · by_cases hc : start + c = m ∧ m < n
      · rw [if_pos hc, if_neg hm, if_pos (by omega)]
      · rw [if_neg hc, if_neg hm, if_neg (by omega)]


/-! ## One level of the loop -/

theorem sibling_sibling (c : Nat) : sibling (sibling c) = c := by
  unfold sibling
  split_ifs <;> omega

theorem sibling_eq_iff {c r : Nat} : sibling c = r ↔ c = sibling r := by
  constructor
  · rintro rfl
    rw [sibling_sibling]
  · rintro rfl
    exact sibling_sibling r

/-- The leaves below node `c` of a level of width `p`. -/
theorem mem_block_iff {m c p : Nat} (hp : 0 < p) : c * p ≤ m ∧ m < c * p + p ↔ m / p = c := by
  rw [Nat.div_eq_iff hp]
  omega

theorem levelItem_of_node_eq_none {xs : List H} {l m : Nat}
    (h : node f xs l (sibling (m / 2 ^ l)) = none) : levelItem f xs l m = [] := by
  simp [levelItem, h]

section Level

variable {xs : List H} {k len arrLen : Nat} {hashes₀ : List H}
  {paths₀ : List (List (MerklePathItem H))}

variable (f xs) in
/-- The state of `merklize` before the level above `k`: `len`, a power of two, times the width
of level `k` covers the leaves, the first `arrLen` hashes are the nodes of level `k`, and every
leaf has the items of the levels up to `k`. -/
structure LevelInv (k len arrLen : Nat) (hashes : List H)
    (paths : List (List (MerklePathItem H))) : Prop where
  len_pow : ∃ e, len = 2 ^ e
  length_le : xs.length ≤ len * 2 ^ k
  arrLen_iff : ∀ j, j < arrLen ↔ j * 2 ^ k < xs.length
  length_hashes : hashes.length = xs.length
  hashes_eq : ∀ j < arrLen, hashes[j]? = node f xs k j
  paths_eq : ∀ m, paths[m]? = xs[m]?.map fun _ => (List.range (k + 1)).flatMap (levelItem f xs · m)

variable (f xs) in
/-- What the first `r` rounds of the level above `k` have done to the hashes and paths they
started from: the nodes `j < r` of level `k + 1` are in place, the other hashes are untouched,
and the leaves whose ancestor at level `k + 1` has its sibling among the first `r` nodes have
the item of that level. -/
structure RoundsDone (k r : Nat) (hashes₀ : List H) (paths₀ : List (List (MerklePathItem H)))
    (st : List H × List (List (MerklePathItem H))) : Prop where
  length_hashes : st.1.length = xs.length
  hashes_done : ∀ j < r, (node f xs (k + 1) j).isSome → st.1[j]? = node f xs (k + 1) j
  hashes_rest : ∀ j, r ≤ j → st.1[j]? = hashes₀[j]?
  paths_eq : ∀ m, st.2[m]? =
    paths₀[m]?.map (· ++ if sibling (m / 2 ^ (k + 1)) < r then levelItem f xs (k + 1) m else [])

/-- The rounds of one level cover the leaves: half of `len` nodes of the level above. -/
theorem LevelInv.cover (hinv : LevelInv f xs k len arrLen hashes₀ paths₀) (hlen : 1 < len) :
    xs.length ≤ len / 2 * 2 ^ (k + 1) := by
  obtain ⟨e, rfl⟩ := hinv.len_pow
  have he : e = e - 1 + 1 := by
    rcases e with _ | e
    · simp at hlen
    · omega
  have hhalf : 2 ^ e / 2 * 2 ^ (k + 1) = 2 ^ e * 2 ^ k := by
    rw [he, Nat.pow_succ, Nat.mul_div_cancel _ (by norm_num), Nat.pow_succ 2 k]
    ring
  rw [hhalf]
  exact hinv.length_le

theorem LevelInv.paths_eq_none (hinv : LevelInv f xs k len arrLen hashes₀ paths₀) {m : Nat}
    (hm : xs.length ≤ m) : paths₀[m]? = none := by
  rw [hinv.paths_eq, List.getElem?_eq_none hm, Option.map_none]

/-- The hash a round computes from the untouched hashes is the node of the level above. -/
theorem LevelInv.roundHash (hinv : LevelInv f xs k len arrLen hashes₀ paths₀) {r : Nat}
    (hr : 2 * r < arrLen) {hs : List H} (hrest : ∀ j, r ≤ j → hs[j]? = hashes₀[j]?) :
    ∃ hash, nodeHash f arrLen hs r = some hash ∧ node f xs (k + 1) r = some hash := by
  have hleft : hs[2 * r]? = node f xs k (2 * r) := by
    rw [hrest _ (by omega), hinv.hashes_eq _ hr]
  obtain ⟨a, ha⟩ := Option.isSome_iff_exists.mp
    (node_isSome_iff.mpr ((hinv.arrLen_iff (2 * r)).mp hr) : (node f xs k (2 * r)).isSome)
  rw [node_succ, ha, nodeHash]
  split_ifs with hone
  · -- no right child: the left one is carried up
    have hnone : node f xs k (2 * r + 1) = none :=
      node_eq_none (not_lt.mp fun h => absurd ((hinv.arrLen_iff _).mpr h) (by omega))
    exact ⟨a, by rw [hleft, ha], by rw [hnone]; rfl⟩
  · have hright : hs[2 * r + 1]? = node f xs k (2 * r + 1) := by
      rw [hrest _ (by omega), hinv.hashes_eq _ (by omega)]
    obtain ⟨b, hb⟩ := Option.isSome_iff_exists.mp
      (node_isSome_iff.mpr ((hinv.arrLen_iff _).mp (by omega)) : (node f xs k (2 * r + 1)).isSome)
    exact ⟨f a b, by rw [hleft, hright, ha, hb]; rfl, by rw [hb]; rfl⟩

/-- The leaves that round `r` pushes its hash to are those whose ancestor is the sibling of
node `r`, and the item it pushes is their item of that level. -/
theorem pushPathItems_round {r : Nat} {hash : H} (hhash : node f xs (k + 1) r = some hash)
    (paths : List (List (MerklePathItem H))) (m : Nat) :
    (if r % 2 = 0 then
        pushPathItems xs.length ((r + 1) * 2 ^ (k + 1)) (2 ^ (k + 1)) ⟨hash, .left⟩ paths
      else pushPathItems xs.length ((r - 1) * 2 ^ (k + 1)) (2 ^ (k + 1)) ⟨hash, .right⟩ paths)[m]? =
      if sibling (m / 2 ^ (k + 1)) = r ∧ m < xs.length then
        paths[m]?.map (· ++ levelItem f xs (k + 1) m)
      else paths[m]? := by
  have hround : (if r % 2 = 0 then
        pushPathItems xs.length ((r + 1) * 2 ^ (k + 1)) (2 ^ (k + 1)) ⟨hash, .left⟩ paths
      else pushPathItems xs.length ((r - 1) * 2 ^ (k + 1)) (2 ^ (k + 1)) ⟨hash, .right⟩ paths) =
      pushPathItems xs.length (sibling r * 2 ^ (k + 1)) (2 ^ (k + 1))
        ⟨hash, if r % 2 = 0 then .left else .right⟩ paths := by
    unfold sibling
    split_ifs <;> rfl
  have hblock : (sibling r * 2 ^ (k + 1) ≤ m ∧ m < sibling r * 2 ^ (k + 1) + 2 ^ (k + 1)) ↔
      sibling (m / 2 ^ (k + 1)) = r := by
    rw [mem_block_iff (Nat.two_pow_pos _), sibling_eq_iff]
  have hitem : sibling (m / 2 ^ (k + 1)) = r →
      levelItem f xs (k + 1) m = [⟨hash, if r % 2 = 0 then .left else .right⟩] := by
    intro hs
    have hc : m / 2 ^ (k + 1) = sibling r := sibling_eq_iff.mp hs
    have hdir : (if sibling r % 2 = 0 then Direction.right else Direction.left) =
        if r % 2 = 0 then .left else .right := by
      unfold sibling
      split_ifs <;> first | rfl | omega
    simp only [levelItem, hc, sibling_sibling, hhash, Option.toList_some, List.map_cons,
      List.map_nil, hdir]
  rw [hround, getElem?_pushPathItems]
  simp only [← and_assoc, hblock]
  by_cases hs : sibling (m / 2 ^ (k + 1)) = r
  · rw [hitem hs]
  · rw [if_neg (fun h => hs h.1), if_neg (fun h => hs h.1)]

/-- The items pushed after `r + 1` rounds are those after `r` rounds, unless round `r` pushed
one. -/
theorem pushed_succ {s r : Nat} {L : List (MerklePathItem H)} (h : s ≠ r ∨ L = []) :
    (if s < r + 1 then L else []) = if s < r then L else [] := by
  split_ifs with h1 h2 h2
  · rfl
  · rcases h with h | h
    · omega
    · exact h
  · omega
  · rfl

/-- **One round**: round `r` of the level above `k` puts node `r` of that level in place and
pushes it onto the paths of the leaves below its sibling. -/
theorem merklizeRound_spec (hinv : LevelInv f xs k len arrLen hashes₀ paths₀) (hlen : 1 < len)
    {r : Nat} {st : List H × List (List (MerklePathItem H))}
    (hst : RoundsDone f xs k r hashes₀ paths₀ st) :
    ∃ st', merklizeRound f xs.length arrLen (len / 2) (2 ^ (k + 1)) st r = some st' ∧
      RoundsDone f xs k (r + 1) hashes₀ paths₀ st' := by
  by_cases hskip : arrLen ≤ 2 * r
  · -- `continue`: node `r` of the level above holds no leaf
    have hnone : node f xs (k + 1) r = none := by
      apply node_eq_none
      have hout := (hinv.arrLen_iff (2 * r)).not.mp (by omega)
      rw [Nat.pow_succ]
      calc xs.length ≤ 2 * r * 2 ^ k := by omega
        _ = r * (2 ^ k * 2) := by ring
    refine ⟨st, by rw [merklizeRound, if_pos hskip], hst.length_hashes, ?_, ?_, ?_⟩
    · intro j hj hsome
      rcases Nat.lt_succ_iff_lt_or_eq.mp hj with hj | rfl
      · exact hst.hashes_done j hj hsome
      · rw [hnone] at hsome
        cases hsome
    · intro j hj
      exact hst.hashes_rest j (by omega)
    · intro m
      rw [hst.paths_eq, pushed_succ]
      by_cases hs : sibling (m / 2 ^ (k + 1)) = r
      · exact .inr (levelItem_of_node_eq_none (by rw [hs, hnone]))
      · exact .inl hs
  · obtain ⟨hash, hcomp, hhash⟩ := hinv.roundHash (by omega) hst.hashes_rest
    have hr : r < st.1.length := by
      rw [hst.length_hashes]
      have hin := (hinv.arrLen_iff (2 * r)).mp (by omega)
      have hpow := Nat.one_le_two_pow (n := k)
      calc r ≤ 2 * r * 2 ^ k := by nlinarith
        _ < xs.length := hin
    refine ⟨(st.1.set r hash, if 1 < len / 2 then
        (if r % 2 = 0 then
          pushPathItems xs.length ((r + 1) * 2 ^ (k + 1)) (2 ^ (k + 1)) ⟨hash, .left⟩ st.2
        else pushPathItems xs.length ((r - 1) * 2 ^ (k + 1)) (2 ^ (k + 1)) ⟨hash, .right⟩ st.2)
      else st.2), ?_, ?_, ?_, ?_, ?_⟩
    · simp only [merklizeRound, if_neg hskip, hcomp, hr, if_true]
      rfl
    · simp [hst.length_hashes]
    · intro j hj _
      rcases Nat.lt_succ_iff_lt_or_eq.mp hj with hj | rfl
      · rw [List.getElem?_set_ne (by omega)]
        exact hst.hashes_done j hj (by assumption)
      · rw [List.getElem?_set_self hr, hhash]
    · intro j hj
      rw [List.getElem?_set_ne (by omega)]
      exact hst.hashes_rest j (by omega)
    · intro m
      show (if 1 < len / 2 then _ else st.2)[m]? = _
      by_cases hwide : 1 < len / 2
      · -- the round pushes its node onto the leaves below its sibling
        rw [if_pos hwide, pushPathItems_round hhash, hst.paths_eq]
        by_cases hs : sibling (m / 2 ^ (k + 1)) = r
        · by_cases hm : m < xs.length
          · rw [if_pos ⟨hs, hm⟩, Option.map_map, if_neg (by omega), if_pos (by omega)]
            simp only [List.append_nil]
            rfl
          · rw [hinv.paths_eq_none (by omega)]
            simp
        · rw [if_neg (fun h => hs h.1), pushed_succ (.inl hs)]
      · -- the top level pushes nothing, and no leaf has a sibling there
        rw [if_neg hwide, hst.paths_eq]
        by_cases hm : m < xs.length
        · have htop : xs.length ≤ 2 ^ (k + 1) := by
            have := hinv.cover hlen
            have hle : len / 2 ≤ 1 := by omega
            calc xs.length ≤ len / 2 * 2 ^ (k + 1) := this
              _ ≤ 1 * 2 ^ (k + 1) := Nat.mul_le_mul_right _ hle
              _ = 2 ^ (k + 1) := Nat.one_mul _
          rw [pushed_succ (.inr (levelItem_eq_nil htop hm))]
        · rw [hinv.paths_eq_none (by omega)]
          rfl

/-- The first `r` rounds of the level above `k`. -/
theorem merklizeRounds_spec (hinv : LevelInv f xs k len arrLen hashes₀ paths₀) (hlen : 1 < len) :
    ∀ r, ∃ st, (List.range r).foldlM (merklizeRound f xs.length arrLen (len / 2) (2 ^ (k + 1)))
      (hashes₀, paths₀) = some st ∧ RoundsDone f xs k r hashes₀ paths₀ st
  | 0 => ⟨(hashes₀, paths₀), rfl, hinv.length_hashes, fun _ h => absurd h (Nat.not_lt_zero _),
      fun _ _ => rfl, fun m => by simp⟩
  | r + 1 => by
    obtain ⟨st, hfold, hst⟩ := merklizeRounds_spec hinv hlen r
    obtain ⟨st', hround, hst'⟩ := merklizeRound_spec hinv hlen hst
    refine ⟨st', ?_, hst'⟩
    rw [List.range_succ, List.foldlM_append, hfold]
    simpa using hround

/-- **One level**: the rounds of the level above `k` leave `merklize` in the state it is in
before the next level. -/
theorem merklizeLevel_spec (hinv : LevelInv f xs k len arrLen hashes₀ paths₀) (hlen : 1 < len) :
    ∃ st, (List.range (len / 2)).foldlM
        (merklizeRound f xs.length arrLen (len / 2) (2 ^ (k + 1))) (hashes₀, paths₀) = some st ∧
      LevelInv f xs (k + 1) (len / 2) ((arrLen + 1) / 2) st.1 st.2 := by
  obtain ⟨st, hfold, hst⟩ := merklizeRounds_spec hinv hlen (len / 2)
  have hcover := hinv.cover hlen
  have harr : ∀ j, j < (arrLen + 1) / 2 ↔ j * 2 ^ (k + 1) < xs.length := by
    intro j
    have hmul : j * 2 ^ (k + 1) = 2 * j * 2 ^ k := by rw [Nat.pow_succ]; ring
    rw [hmul, ← hinv.arrLen_iff (2 * j)]
    omega
  refine ⟨st, hfold, ?_, hcover, harr, hst.length_hashes, ?_, ?_⟩
  · obtain ⟨e, rfl⟩ := hinv.len_pow
    refine ⟨e - 1, ?_⟩
    rcases e with _ | e
    · simp at hlen
    · rw [Nat.pow_succ, Nat.mul_div_cancel _ (by norm_num), Nat.add_sub_cancel]
  · intro j hj
    have hin := (harr j).mp hj
    -- every node of the level above is one of the `len / 2` rounds
    have hjlen : j < len / 2 := by
      by_contra hc
      have : len / 2 * 2 ^ (k + 1) ≤ j * 2 ^ (k + 1) := Nat.mul_le_mul_right _ (by omega)
      omega
    exact hst.hashes_done j hjlen (node_isSome_iff.mpr hin)
  · intro m
    rw [hst.paths_eq, hinv.paths_eq]
    by_cases hm : m < xs.length
    · -- a sibling beyond the rounds holds no leaf
      have hitem : (if sibling (m / 2 ^ (k + 1)) < len / 2 then levelItem f xs (k + 1) m else []) =
          levelItem f xs (k + 1) m := by
        split_ifs with hs
        · rfl
        · refine (levelItem_of_node_eq_none (node_eq_none ?_)).symm
          calc xs.length ≤ len / 2 * 2 ^ (k + 1) := hcover
            _ ≤ sibling (m / 2 ^ (k + 1)) * 2 ^ (k + 1) := Nat.mul_le_mul_right _ (by omega)
      rw [hitem, List.getElem?_eq_getElem hm]
      simp [List.range_succ, List.flatMap_append]
    · rw [List.getElem?_eq_none (by omega)]
      rfl

/-- **All levels**: from the state before the level above `k`, the loop ends with the root of the
tree and the full path of every leaf. -/
theorem merklizeLevels_spec (hn : 0 < xs.length) :
    ∀ len k arrLen (hashes : List H) (paths : List (List (MerklePathItem H))),
      LevelInv f xs k len arrLen hashes paths →
      ∃ root paths', merklizeLevels f xs.length len (2 ^ k) arrLen hashes paths =
          some (root, paths') ∧
        (∀ M, xs.length ≤ 2 ^ M → node f xs M 0 = some root) ∧
        ∃ N, xs.length ≤ 2 ^ N ∧
          ∀ m, paths'[m]? = xs[m]?.map fun _ => (List.range N).flatMap (levelItem f xs · m) := by
  intro len
  induction len using Nat.strong_induction_on with
  | _ len ih =>
    intro k arrLen hashes paths hinv
    rw [merklizeLevels]
    by_cases hlen : 1 < len
    · rw [dif_pos hlen]
      obtain ⟨st, hfold, hst⟩ := merklizeLevel_spec hinv hlen
      rw [← Nat.pow_succ, hfold]
      exact ih (len / 2) (by omega) (k + 1) _ _ _ hst
    · -- `len` is one: the hashes are the root level
      rw [dif_neg hlen]
      obtain ⟨e, rfl⟩ := hinv.len_pow
      have he : e = 0 := by
        by_contra h
        have := Nat.one_lt_two_pow h
        omega
      subst he
      have htop : xs.length ≤ 2 ^ k := by simpa using hinv.length_le
      have h0 : 0 < arrLen := (hinv.arrLen_iff 0).mpr (by simpa using hn)
      obtain ⟨root, hroot⟩ := Option.isSome_iff_exists.mp
        (node_isSome_iff.mpr (by simpa using hn) : (node f xs k 0).isSome)
      refine ⟨root, paths, by rw [hinv.hashes_eq 0 h0, hroot]; rfl,
        fun M hM => by rw [node_top hM htop, hroot], k + 1, ?_, hinv.paths_eq⟩
      exact htop.trans (Nat.pow_le_pow_right (by norm_num) (Nat.le_succ k))

end Level

/-! ## `merklize` and `compute_root` -/

theorem mapM_range_eq_some {α : Type} {g : Nat → Option α} {h : Nat → α} :
    ∀ {n : Nat}, (∀ i < n, g i = some (h i)) → (List.range n).mapM g = some ((List.range n).map h)
  | 0, _ => rfl
  | n + 1, hg => by
    rw [List.range_succ, List.mapM_append, mapM_range_eq_some fun i hi => hg i (by omega)]
    simp [hg n (by omega)]

/-- The path `merklize` starts a leaf with is its item at the lowest level. -/
theorem initialPath_eq (xs : List H) {m : Nat} (hm : m < xs.length) :
    initialPath xs xs.length m = some (levelItem f xs 0 m) := by
  unfold initialPath levelItem sibling
  simp only [Nat.pow_zero, Nat.div_one, node_zero]
  split_ifs with heven hnext
  · simp [List.getElem?_eq_getElem hnext]
  · rw [List.getElem?_eq_none (by omega)]
    rfl
  · simp [List.getElem?_eq_getElem (show m - 1 < xs.length by omega)]

theorem levelInv_initial (xs : List H) :
    LevelInv f xs 0 (nextPowerOfTwo xs.length) xs.length xs
      ((List.range xs.length).map (levelItem f xs 0)) where
  len_pow := ⟨_, rfl⟩
  length_le := by simpa using le_nextPowerOfTwo xs.length
  arrLen_iff := by simp
  length_hashes := rfl
  hashes_eq := by simp
  paths_eq m := by
    by_cases hm : m < xs.length
    · simp [hm]
    · have hm' : xs.length ≤ m := by omega
      simp [hm']

/-- **`merklize`** returns the root of the tree of the item hashes and, for every item, the items of
its path up to some height of the tree. -/
theorem merklize_spec [Inhabited H] (hashBorsh : T → H) {arr : List T} (harr : arr ≠ []) :
    ∃ root paths, merklize f hashBorsh arr = some (root, paths) ∧
      (∀ M, arr.length ≤ 2 ^ M → node f (arr.map hashBorsh) M 0 = some root) ∧
      ∃ N, arr.length ≤ 2 ^ N ∧ ∀ m, paths[m]? = (arr.map hashBorsh)[m]?.map fun _ =>
        (List.range N).flatMap (levelItem f (arr.map hashBorsh) · m) := by
  have hlen : (arr.map hashBorsh).length = arr.length := List.length_map _
  have hn : 0 < (arr.map hashBorsh).length := by
    rw [hlen]
    exact List.length_pos_iff.mpr harr
  unfold merklize
  rw [if_neg (by simpa using harr)]
  by_cases hone : nextPowerOfTwo arr.length = 1
  · -- one item: its hash is the root and its path is empty
    have h1 : arr.length = 1 := by
      have := le_nextPowerOfTwo arr.length
      omega
    obtain ⟨a, rfl⟩ := List.length_eq_one_iff.mp h1
    refine ⟨hashBorsh a, [[]], by simp [nextPowerOfTwo], fun M hM => ?_, 0, by simp, fun m => ?_⟩
    · show node f [hashBorsh a] M 0 = _
      rw [node_top (by simpa using hM) (show [hashBorsh a].length ≤ 2 ^ 0 by simp)]
      rfl
    · rcases m with _ | m <;> simp
  · rw [if_neg hone, mapM_range_eq_some (h := levelItem f (arr.map hashBorsh) 0)
      fun i hi => by rw [← hlen]; exact initialPath_eq _ (by omega)]
    obtain ⟨root, paths, hrun, hroot, N, hN, hpaths⟩ :=
      merklizeLevels_spec hn _ _ _ _ _ (levelInv_initial (f := f) (arr.map hashBorsh))
    rw [hlen] at hrun hroot hN
    exact ⟨root, paths, hrun, hroot, N, hN, hpaths⟩

/-- **`compute_root`**, splitting at half the next power of two, computes the root of the tree. -/
theorem computeRoot_eq [Inhabited H] (hs : List H) :
    ∀ {M : Nat}, hs.length ≤ 2 ^ M → computeRoot f hs = (node f hs M 0).getD default := by
  fun_induction computeRoot f hs with
  | case1 hs h0 =>
    intro M _
    rw [node_eq_none (by omega)]
    rfl
  | case2 hs h0 h1 =>
    intro M hM
    rw [node_top hM (show hs.length ≤ 2 ^ 0 by omega)]
    simp [List.getElem?_eq_getElem (show 0 < hs.length by omega)]
  | case3 hs h0 h1 s ihl =>
    rename_i ihr
    intro M hM
    obtain ⟨heq, hlt⟩ := half_nextPowerOfTwo (show 1 < hs.length by omega)
    have hc := le_nextPowerOfTwo hs.length
    rw [nextPowerOfTwo] at hc
    set c := Nat.clog 2 hs.length
    have hpos : 0 < c := Nat.clog_pos (by norm_num) (by omega)
    have hcpow : 2 ^ c = 2 * 2 ^ (c - 1) := by
      rw [← Nat.pow_succ']
      congr 1
      omega
    have hs_eq : s = 2 ^ (c - 1) := heq
    have hleft : (hs.take s).length = 1 * 2 ^ (c - 1) := by
      simp only [List.length_take, hs_eq]
      omega
    have hright : (hs.drop s).length ≤ 2 ^ (c - 1) := by
      simp only [List.length_drop, hs_eq]
      omega
    have hsplit : hs = hs.take s ++ hs.drop s := (List.take_append_drop s hs).symm
    have ha' : (node f (hs.take s) (c - 1) 0).isSome := node_isSome_iff.mpr (by omega)
    have hb' : (node f (hs.drop s) (c - 1) 0).isSome :=
      node_isSome_iff.mpr (by simp only [List.length_drop]; omega)
    obtain ⟨a, ha⟩ := Option.isSome_iff_exists.mp ha'
    obtain ⟨b, hb⟩ := Option.isSome_iff_exists.mp hb'
    -- the two halves are the children of the root of the tree of height `c`
    have hr := node_append_right (f := f) (hs.drop s) hleft 0
    rw [Nat.add_zero] at hr
    have htop : node f hs c 0 = some (f a b) := by
      rw [show c = c - 1 + 1 by omega, node_succ, Nat.mul_zero, Nat.zero_add, hsplit,
        node_append _ (by omega), hr, ha, hb]
      rfl
    rw [ihl (show (hs.take s).length ≤ 2 ^ (c - 1) by omega), ihr hright, ha, hb, node_top hM hc, htop]
    rfl

/-- The paths `merklize` returns, as a list: one per item. -/
theorem paths_eq_map {xs : List H} {paths : List (List (MerklePathItem H))} {N : Nat}
    (hpaths : ∀ m, paths[m]? = xs[m]?.map fun _ => (List.range N).flatMap (levelItem f xs · m)) :
    paths = (List.range xs.length).map fun m => (List.range N).flatMap (levelItem f xs · m) := by
  refine List.ext_getElem? fun m => ?_
  rw [hpaths]
  by_cases hm : m < xs.length
  · simp [hm]
  · have hm' : xs.length ≤ m := by omega
    simp [hm']

/-- **`merklize` agrees with `PartialMerkleTree` and `compute_root`, and its paths verify.** -/
theorem merklize_agrees_and_verifies [DecidableEq H] [Inhabited H] (hashBorsh : T → H)
    (combineHash : H → H → H) (arr : List T) (harr : arr ≠ []) :
    ∃ root paths, merklize combineHash hashBorsh arr = some (root, paths) ∧
      paths.length = arr.length ∧
      (∀ i (hi : i < arr.length), ∃ path, paths[i]? = some path ∧
        verifyPath combineHash hashBorsh root path arr[i] = true) ∧
      (PartialMerkleTree.ofLeaves combineHash (arr.map hashBorsh)).map
        (PartialMerkleTree.root combineHash) = some root ∧
      computeRoot combineHash (arr.map hashBorsh) = root ∧
      ∀ path ∈ paths, path.length ≤ Nat.clog 2 arr.length := by
  obtain ⟨root, paths, hrun, hroot, N, hN, hpaths⟩ := merklize_spec (f := combineHash) hashBorsh harr
  have hlen : (arr.map hashBorsh).length = arr.length := List.length_map _
  have hN' : (arr.map hashBorsh).length ≤ 2 ^ N := hlen ▸ hN
  have hmap := paths_eq_map hpaths
  rw [hlen] at hmap
  have hgetD : (node combineHash (arr.map hashBorsh) N 0).getD default = root := by
    rw [hroot N hN]
    rfl
  refine ⟨root, paths, hrun, by simp [hmap], fun i hi => ?_,
    by rw [PartialMerkleTree.root_ofLeaves _ hN', hgetD], by rw [computeRoot_eq _ hN', hgetD],
    fun path hpath => ?_⟩
  · -- the path of item `i` leads from its hash to the ancestor at height `N`, the root
    have hx : (arr.map hashBorsh)[i]? = some (hashBorsh arr[i]) := by simp [hi]
    refine ⟨_, by rw [hpaths, hx]; rfl, ?_⟩
    have hup := computeRootFromPath_levelItems (f := combineHash) hx N
    rw [Nat.div_eq_of_lt (by omega), hroot N hN, Option.some_inj] at hup
    simp [verifyPath, verifyHash, ← hup]
  · rw [hmap, List.mem_map] at hpath
    obtain ⟨m, hm, rfl⟩ := hpath
    rw [List.mem_range] at hm
    exact (length_levelItems_le (by rwa [hlen]) (hlen ▸ Nat.le_pow_clog (by norm_num) _) N).trans
      (min_le_right _ _)

theorem merklize_agrees_and_verifies_three :
    ([1, 2, 3] : List Nat) ≠ [] ∧
      ∃ root paths, merklize (fun a b => a + 2 * b) id [1, 2, 3] = some (root, paths) ∧
        paths.length = [1, 2, 3].length ∧
        (∀ i (hi : i < [1, 2, 3].length), ∃ path, paths[i]? = some path ∧
          verifyPath (fun a b => a + 2 * b) id root path [1, 2, 3][i] = true) ∧
        (PartialMerkleTree.ofLeaves (fun a b => a + 2 * b) ([1, 2, 3].map id)).map
          (PartialMerkleTree.root fun a b => a + 2 * b) = some root ∧
        computeRoot (fun a b => a + 2 * b) ([1, 2, 3].map id) = root ∧
        ∀ path ∈ paths, path.length ≤ Nat.clog 2 [1, 2, 3].length :=
  ⟨by decide, merklize_agrees_and_verifies id (fun a b => a + 2 * b) [1, 2, 3] (by decide)⟩

end Unc
