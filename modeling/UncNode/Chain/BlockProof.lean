import UncNode.Primitives.Merkle

/-!
# Block Merkle proofs — `Chain::get_block_proof` of `chain/chain/src/chain.rs`

Every block stores the partial Merkle tree of the hashes of all blocks before it on the
canonical chain (`update_and_save_block_merkle_tree`), and the ordinal of a block (the size of
its tree) maps back to its hash. `get_block_proof` rebuilds the path from a block to the root of
a later head level by level: a sibling to the left is the last path element of the stored tree
whose size ends at it (`get_merkle_tree_node`), a sibling to the right may be incomplete and is
rebuilt from its children (`reconstruct_merkle_tree_node`); both memoise in `tree_nodes`.

* `ChainStoreView`: the two columns read, `BlockMerkleTree` and `BlockOrdinal`;
* `getMerkleTreeNode`, `reconstructMerkleTreeNode`, `blockProofLoop`, `getBlockProof`;
* `CacheOK`, `treeNode_spec`: both node getters return the subtree root and keep the memo table
  correct;
* **`get_block_proof_verifies`**: on a canonical chain the proof of an earlier block folds to
  the head's root, and has at most `⌈log₂ n⌉` items.
-/

set_option autoImplicit false

namespace Unc

/-- The errors of the getters: a row missing from a column, and `Error::Other`. -/
inductive ChainError (H : Type) where
  | dbNotFound
  | merkleTreeNodeMissing
  | blockAheadOfHead (block head : H)
  deriving DecidableEq, Repr

/-- The columns of the chain store that the proof getters read. -/
structure ChainStoreView (H : Type) where
  /-- `DBCol::BlockMerkleTree`, by block hash. -/
  blockMerkleTree : H → Option (PartialMerkleTree H)
  /-- `DBCol::BlockOrdinal`, by ordinal. -/
  blockOrdinalToHash : Nat → Option H

variable {H : Type}

namespace ChainStoreView

/-- `get_block_merkle_tree`. -/
def getBlockMerkleTree (s : ChainStoreView H) (blockHash : H) :
    Except (ChainError H) (PartialMerkleTree H) :=
  match s.blockMerkleTree blockHash with
  | some t => .ok t
  | none => .error .dbNotFound

/-- `get_block_hash_from_ordinal`. -/
def getBlockHashFromOrdinal (s : ChainStoreView H) (ordinal : Nat) : Except (ChainError H) H :=
  match s.blockOrdinalToHash ordinal with
  | some h => .ok h
  | none => .error .dbNotFound

/-- `get_block_merkle_tree_from_ordinal`. -/
def getBlockMerkleTreeFromOrdinal (s : ChainStoreView H) (ordinal : Nat) :
    Except (ChainError H) (PartialMerkleTree H) := do
  let h ← s.getBlockHashFromOrdinal ordinal
  s.getBlockMerkleTree h

end ChainStoreView

/-- `tree_nodes`: the memo table, from `(index, level)` to the node found there. -/
abbrev TreeNodes (H : Type) := Nat × Nat → Option (Option H)

section Getters

variable (combineHash : H → H → H) (s : ChainStoreView H)

/-- `Chain::combine_maybe_hashes` (in a release build, where the `debug_assert!` is off). -/
def combineMaybeHashes : Option H → Option H → Option H
  | some h1, some h2 => some (combineHash h1 h2)
  | some h1, none => some h1
  | none, some _ => none
  | none, none => none

/-- A leaf: the block hash of ordinal `index`, or nothing past the tree. -/
def getLeaf (index treeSize : Nat) (tn : TreeNodes H) :
    Except (ChainError H) (Option H × TreeNodes H) :=
  if index ≥ treeSize then .ok (none, Function.update tn (index, 0) (some none))
  else do
    let h ← s.getBlockHashFromOrdinal index
    pure (some h, Function.update tn (index, 0) (some (some h)))

mutual

/-- `get_merkle_tree_node`: the node at `(index, level)`, where `counter = 2 ^ level`. A node
that ends inside the tree is the last path element of the stored tree of that size. -/
def getMerkleTreeNode (index : Nat) :
    (level counter treeSize : Nat) → TreeNodes H → Except (ChainError H) (Option H × TreeNodes H)
  | 0, _, treeSize, tn =>
    match tn (index, 0) with
    | some hash => .ok (hash, tn)
    | none => getLeaf s index treeSize tn
  | l + 1, counter, treeSize, tn =>
    match tn (index, l + 1) with
    | some hash => .ok (hash, tn)
    | none =>
      let curTreeSize := (index + 1) * counter
      if curTreeSize > treeSize then
        if index * counter ≤ treeSize then do
          let r₁ ← getMerkleTreeNode (index * 2) l (counter / 2) treeSize tn
          let r₂ ← reconstructMerkleTreeNode (index * 2 + 1) l (counter / 2) treeSize r₁.2
          let h := combineMaybeHashes combineHash r₁.1 r₂.1
          pure (h, Function.update r₂.2 (index, l + 1) (some h))
        else .ok (none, Function.update tn (index, l + 1) (some none))
      else do
        let t ← s.getBlockMerkleTreeFromOrdinal curTreeSize
        match t.path.getLast? with
        | none => .error .merkleTreeNodeMissing
        | some h => pure (some h, Function.update tn (index, l + 1) (some (some h)))

/-- `reconstruct_merkle_tree_node`: the node at `(index, level)`, rebuilt from its children. -/
def reconstructMerkleTreeNode (index : Nat) :
    (level counter treeSize : Nat) → TreeNodes H → Except (ChainError H) (Option H × TreeNodes H)
  | 0, _, treeSize, tn =>
    match tn (index, 0) with
    | some hash => .ok (hash, tn)
    | none => getLeaf s index treeSize tn
  | l + 1, counter, treeSize, tn =>
    match tn (index, l + 1) with
    | some hash => .ok (hash, tn)
    | none => do
      let r₁ ← getMerkleTreeNode (index * 2) l (counter / 2) treeSize tn
      let r₂ ← reconstructMerkleTreeNode (index * 2 + 1) l (counter / 2) treeSize r₁.2
      let h := combineMaybeHashes combineHash r₁.1 r₂.1
      pure (h, Function.update r₂.2 (index, l + 1) (some h))

end

/-- The `while iter > 1` loop of `get_block_proof`: the sibling of the current node at each
level, pushed with its side unless it is missing. -/
def blockProofLoop (treeSize : Nat) (iter level counter curIndex : Nat)
    (path : List (MerklePathItem H)) (tn : TreeNodes H) :
    Except (ChainError H) (List (MerklePathItem H)) :=
  if h : 1 < iter then
    let sibling := if curIndex % 2 = 0 then curIndex + 1 else curIndex - 1
    let direction := if sibling % 2 = 0 then Direction.left else Direction.right
    -- a left sibling is complete and stored; a right one may be incomplete, and is rebuilt
    let maybeHash := if sibling % 2 = 1 then
        reconstructMerkleTreeNode combineHash s sibling level counter treeSize tn
      else getMerkleTreeNode combineHash s sibling level counter treeSize tn
    maybeHash >>= fun r =>
      let path' := match r.1 with
        | some hash => path ++ [{ hash := hash, direction := direction }]
        | none => path
      blockProofLoop treeSize ((iter + 1) / 2) (level + 1) (counter * 2) (sibling / 2) path' r.2
  else .ok path
termination_by iter
decreasing_by omega

/-- `Chain::get_block_proof`: the Merkle path of `blockHash` in the tree of `headBlockHash`. -/
def getBlockProof [DecidableEq H] (blockHash headBlockHash : H) :
    Except (ChainError H) (List (MerklePathItem H)) := do
  let leafIndex := (← s.getBlockMerkleTree blockHash).size
  let treeSize := (← s.getBlockMerkleTree headBlockHash).size
  if leafIndex ≥ treeSize then
    if blockHash = headBlockHash then pure []
    else .error (.blockAheadOfHead blockHash headBlockHash)
  else blockProofLoop combineHash s treeSize treeSize 0 1 leafIndex [] fun _ => none

end Getters

/-! ## The getters on a canonical chain -/

open BinaryMerkle

section Push

variable {f : H → H → H} {xs : List H} {level c : Nat} {path : List (MerklePathItem H)} {leaf : H}

theorem length_push_le {mh : Option H} {d : Direction} :
    (match mh with
      | some hash => path ++ [{ hash := hash, direction := d }]
      | none => path : List (MerklePathItem H)).length ≤ path.length + 1 := by
  cases mh <;> simp

/-- Pushing the right sibling of a left child, if there is one, folds the path to the parent. -/
theorem computeRootFromPath_push_right
    (hr : some (computeRootFromPath f path leaf) = node f xs level c) (hc : c % 2 = 0) :
    some (computeRootFromPath f
      (match node f xs level (c + 1) with
        | some hash => path ++ [{ hash := hash, direction := .right }]
        | none => path) leaf) = node f xs (level + 1) (c / 2) := by
  rw [node_succ_div, if_pos hc, ← hr]
  cases node f xs level (c + 1) <;> simp

/-- Pushing the left sibling of a right child folds the path to the parent: the left sibling
is there, since the right child is. -/
theorem computeRootFromPath_push_left
    (hr : some (computeRootFromPath f path leaf) = node f xs level c) (hc : c % 2 = 1) :
    some (computeRootFromPath f
      (match node f xs level (c - 1) with
        | some hash => path ++ [{ hash := hash, direction := .left }]
        | none => path) leaf) = node f xs (level + 1) (c / 2) := by
  have hin : c * 2 ^ level < xs.length := by
    by_contra hout
    rw [node_eq_none (by omega)] at hr
    exact Option.some_ne_none _ hr
  have hprev : (c - 1) * 2 ^ level < xs.length :=
    lt_of_le_of_lt (Nat.mul_le_mul_right _ (Nat.sub_le c 1)) hin
  obtain ⟨h, hh⟩ := Option.isSome_iff_exists.mp (node_isSome (f := f) hprev)
  rw [node_succ_div, if_neg (by omega), ← hr, hh]
  simp

end Push

section Canonical

variable {f : H → H → H} {s : ChainStoreView H} {B : Nat → H} {n : Nat}

theorem combineMaybeHashes_eq (a b : Option H) : combineMaybeHashes f a b = combineMaybe f a b := by
  cases a <;> cases b <;> rfl

/-- The leaves of the tree stored with block `k`: the hashes of the blocks before it. -/
def chainLeaves (B : Nat → H) (k : Nat) : List H := (List.range k).map B

@[simp] theorem length_chainLeaves (B : Nat → H) (k : Nat) : (chainLeaves B k).length = k := by
  simp [chainLeaves]

theorem chainLeaves_append {c m : Nat} (h : c ≤ m) :
    ∃ rest, chainLeaves B m = chainLeaves B c ++ rest := by
  obtain ⟨d, rfl⟩ := Nat.exists_eq_add_of_le h
  exact ⟨(List.range d).map (B ∘ (c + ·)), by simp [chainLeaves, List.range_add]⟩

theorem getElem?_chainLeaves {i k : Nat} (h : i < k) : (chainLeaves B k)[i]? = some (B i) := by
  simp [chainLeaves, h]

/-- The memo table holds only the nodes of the tree of the head. -/
def CacheOK (f : H → H → H) (B : Nat → H) (n : Nat) (tn : TreeNodes H) : Prop :=
  ∀ i l v, tn (i, l) = some v → v = node f (chainLeaves B n) l i

theorem CacheOK.update {tn : TreeNodes H} (h : CacheOK f B n tn) (i l : Nat) :
    CacheOK f B n (Function.update tn (i, l) (some (node f (chainLeaves B n) l i))) := by
  intro i' l' v hv
  by_cases hk : (i', l') = (i, l)
  · obtain ⟨rfl, rfl⟩ := Prod.mk.inj hk
    simp only [Function.update_self, Option.some.injEq] at hv
    exact hv.symm
  · rw [Function.update_of_ne hk] at hv
    exact h i' l' v hv

/-- The chain hypotheses of the proof getters up to the head `n`: ordinal `k` maps to block
`B k`, whose tree holds the blocks before it. -/
structure Canonical (f : H → H → H) (s : ChainStoreView H) (B : Nat → H) (n : Nat) : Prop where
  ordinal : ∀ k, k ≤ n → s.blockOrdinalToHash k = some (B k)
  tree : ∀ k, k ≤ n → s.blockMerkleTree (B k) = PartialMerkleTree.ofLeaves f (chainLeaves B k)

variable (hc : Canonical f s B n)
include hc

theorem Canonical.getBlockHashFromOrdinal {k : Nat} (hk : k ≤ n) :
    s.getBlockHashFromOrdinal k = .ok (B k) := by
  simp [ChainStoreView.getBlockHashFromOrdinal, hc.ordinal k hk]

theorem Canonical.getBlockMerkleTree {k : Nat} (hk : k ≤ n) :
    s.getBlockMerkleTree (B k) = .ok { path := peaks f (chainLeaves B k), size := k } := by
  simp [ChainStoreView.getBlockMerkleTree, hc.tree k hk, PartialMerkleTree.ofLeaves_eq]

theorem Canonical.getBlockMerkleTreeFromOrdinal {k : Nat} (hk : k ≤ n) :
    s.getBlockMerkleTreeFromOrdinal k = .ok { path := peaks f (chainLeaves B k), size := k } := by
  rw [ChainStoreView.getBlockMerkleTreeFromOrdinal, hc.getBlockHashFromOrdinal hk]
  exact hc.getBlockMerkleTree hk

theorem getLeaf_spec (index : Nat) {tn : TreeNodes H} (htn : CacheOK f B n tn) :
    ∃ tn', getLeaf s index n tn = .ok (node f (chainLeaves B n) 0 index, tn') ∧
      CacheOK f B n tn' := by
  unfold getLeaf
  split_ifs with hi
  · have hnone : node f (chainLeaves B n) 0 index = none := by
      rw [node_zero]; exact List.getElem?_eq_none (by simpa using hi)
    rw [hnone]
    exact ⟨_, rfl, hnone ▸ htn.update index 0⟩
  · have hleaf : node f (chainLeaves B n) 0 index = some (B index) := by
      rw [node_zero]; exact getElem?_chainLeaves (by omega)
    rw [hleaf]
    refine ⟨_, ?_, hleaf ▸ htn.update index 0⟩
    rw [hc.getBlockHashFromOrdinal (by omega)]
    rfl

/-- The last path element of the tree stored at ordinal `(i + 1) * 2 ^ l`, for `i` even, is
the node at `(i, l)` of every later tree. -/
theorem lastPath_spec {i l : Nat} (hi : i % 2 = 0) (hle : (i + 1) * 2 ^ l ≤ n) :
    ∃ h, s.getBlockMerkleTreeFromOrdinal ((i + 1) * 2 ^ l) =
        .ok { path := peaks f (chainLeaves B ((i + 1) * 2 ^ l)), size := (i + 1) * 2 ^ l } ∧
      (peaks f (chainLeaves B ((i + 1) * 2 ^ l))).getLast? = some h ∧
      node f (chainLeaves B n) l i = some h := by
  set c := (i + 1) * 2 ^ l
  have hlast : (peaks f (chainLeaves B c)).getLast? = node f (chainLeaves B c) l i :=
    peaks_getLast? hi (by simp [c])
  have hsome : (node f (chainLeaves B c) l i).isSome :=
    node_isSome (by simp only [length_chainLeaves, c]; exact
      Nat.mul_lt_mul_of_pos_right (Nat.lt_succ_self i) (Nat.two_pow_pos l))
  obtain ⟨h, hh⟩ := Option.isSome_iff_exists.mp hsome
  obtain ⟨rest, hrest⟩ := chainLeaves_append (B := B) hle
  refine ⟨h, hc.getBlockMerkleTreeFromOrdinal hle, hlast.trans hh, ?_⟩
  rw [hrest, node_append rest (by simp [c])]
  exact hh

/-- **Both node getters return the subtree root of the head's tree** and keep the memo table
correct; `get_merkle_tree_node` needs an even index, which is how it is always called. The
induction is over the level, for both getters at once. -/
theorem treeNode_spec : ∀ l : Nat,
    (∀ (index : Nat) (tn : TreeNodes H), CacheOK f B n tn → index % 2 = 0 →
      ∃ tn', getMerkleTreeNode f s index l (2 ^ l) n tn =
        .ok (node f (chainLeaves B n) l index, tn') ∧ CacheOK f B n tn') ∧
    (∀ (index : Nat) (tn : TreeNodes H), CacheOK f B n tn →
      ∃ tn', reconstructMerkleTreeNode f s index l (2 ^ l) n tn =
        .ok (node f (chainLeaves B n) l index, tn') ∧ CacheOK f B n tn')
  | 0 => by
    refine ⟨fun index tn htn _ => ?_, fun index tn htn => ?_⟩
    all_goals
      cases hcache : tn (index, 0) with
      | some v =>
        -- a hit returns what the table holds, which is the node
        refine ⟨tn, ?_, htn⟩
        simp only [getMerkleTreeNode, reconstructMerkleTreeNode, hcache, htn index 0 v hcache]
      | none =>
        obtain ⟨tn', h1, h2⟩ := getLeaf_spec hc index htn
        exact ⟨tn', by simp only [getMerkleTreeNode, reconstructMerkleTreeNode, hcache, h1], h2⟩
  | l + 1 => by
    obtain ⟨ihGet, ihRec⟩ := treeNode_spec l
    have hhalf : 2 ^ (l + 1) / 2 = 2 ^ l := by rw [Nat.pow_succ, Nat.mul_div_cancel _ (by norm_num)]
    -- rebuilding from the children gives the node
    have hchildren : ∀ (index : Nat) (tn : TreeNodes H), CacheOK f B n tn →
        ∃ tn', (do
          let r₁ ← getMerkleTreeNode f s (index * 2) l (2 ^ (l + 1) / 2) n tn
          let r₂ ← reconstructMerkleTreeNode f s (index * 2 + 1) l (2 ^ (l + 1) / 2) n r₁.2
          let h := combineMaybeHashes f r₁.1 r₂.1
          pure (h, Function.update r₂.2 (index, l + 1) (some h)) :
            Except (ChainError H) (Option H × TreeNodes H)) =
          .ok (node f (chainLeaves B n) (l + 1) index, tn') ∧ CacheOK f B n tn' := by
      intro index tn htn
      obtain ⟨tn₁, h1, htn₁⟩ := ihGet (index * 2) tn htn (by omega)
      obtain ⟨tn₂, h2, htn₂⟩ := ihRec (index * 2 + 1) tn₁ htn₁
      have hnode : node f (chainLeaves B n) (l + 1) index =
          combineMaybeHashes f (node f (chainLeaves B n) l (index * 2))
            (node f (chainLeaves B n) l (index * 2 + 1)) := by
        rw [combineMaybeHashes_eq, node_succ, Nat.mul_comm index 2]
      refine ⟨_, ?_, hnode ▸ htn₂.update index (l + 1)⟩
      rw [hhalf, h1]
      simp only [bind, Except.bind, h2, pure, Except.pure, hnode]
    refine ⟨fun index tn htn heven => ?_, fun index tn htn => ?_⟩
    · cases hcache : tn (index, l + 1) with
      | some v =>
        refine ⟨tn, ?_, htn⟩
        simp only [getMerkleTreeNode, hcache, htn index (l + 1) v hcache]
      | none =>
        simp only [getMerkleTreeNode, hcache]
        split_ifs with hgt hle
        · exact hchildren index tn htn
        · -- the node starts past the last leaf
          have hnone : node f (chainLeaves B n) (l + 1) index = none :=
            node_eq_none (by simp only [length_chainLeaves]; omega)
          rw [hnone]
          exact ⟨_, rfl, hnone ▸ htn.update index (l + 1)⟩
        · -- the node ends inside the tree: it is the last path element of a stored tree
          obtain ⟨h, ht, hl, hn⟩ := lastPath_spec hc heven (l := l + 1) (by omega)
          rw [hn]
          refine ⟨_, ?_, hn ▸ htn.update index (l + 1)⟩
          simp only [bind, Except.bind, ht, hl, pure, Except.pure]
    · cases hcache : tn (index, l + 1) with
      | some v =>
        refine ⟨tn, ?_, htn⟩
        simp only [reconstructMerkleTreeNode, hcache, htn index (l + 1) v hcache]
      | none =>
        simp only [reconstructMerkleTreeNode, hcache]
        exact hchildren index tn htn

/-- The loop of `get_block_proof` on the tree of `n` leaves, proving leaf `j`. Each round pushes
the sibling of the current node, so that the path folds to its parent. The invariant: `counter`
is `2 ^ level`, the current node is the ancestor of `j` at `level`, the path folds to it, and
`iter` is the number of nodes at `level`, so that `⌈log₂ iter⌉` levels remain. -/
theorem blockProofLoop_spec {j : Nat} (hj : j < n) (iter : Nat) :
    ∀ (level : Nat) (path : List (MerklePathItem H)) (tn : TreeNodes H), CacheOK f B n tn →
      1 ≤ iter → level + Nat.clog 2 iter = Nat.clog 2 n →
      some (computeRootFromPath f path (B j)) = node f (chainLeaves B n) level (j / 2 ^ level) →
      path.length ≤ level →
      ∃ path', blockProofLoop f s n iter level (2 ^ level) (j / 2 ^ level) path tn = .ok path' ∧
        some (computeRootFromPath f path' (B j)) = node f (chainLeaves B n) (Nat.clog 2 n) 0 ∧
        path'.length ≤ Nat.clog 2 n := by
  induction iter using Nat.strong_induction_on with
  | _ iter ih =>
    intro level path tn htn hiter hlog hroot hlen
    by_cases h1 : 1 < iter
    · rw [blockProofLoop, dif_pos h1]
      dsimp only
      have hclog : Nat.clog 2 iter = Nat.clog 2 ((iter + 1) / 2) + 1 :=
        Nat.clog_of_one_lt (by norm_num) h1
      -- the current node, and its parent
      obtain ⟨c, hcdef⟩ : ∃ c, c = j / 2 ^ level := ⟨_, rfl⟩
      have hup : c / 2 = j / 2 ^ (level + 1) := by
        rw [hcdef, Nat.div_div_eq_div_mul, pow_succ]
      rw [← hcdef] at hroot ⊢
      -- the rest of the loop, from the parent
      have hnext := fun path' tn' (htn' : CacheOK f B n tn') hroot' (hlen' : path'.length ≤ level + 1) =>
        ih ((iter + 1) / 2) (by omega) (level + 1) path' tn' htn' (by omega) (by omega) hroot' hlen'
      rcases Nat.mod_two_eq_zero_or_one c with hc0 | hc1
      · -- a left child: the sibling on the right may be incomplete, and is rebuilt
        obtain ⟨tn', hcall, htn'⟩ := (treeNode_spec hc level).2 (c + 1) tn htn
        rw [if_pos hc0, if_pos (show (c + 1) % 2 = 1 by omega),
          if_neg (show ¬ (c + 1) % 2 = 0 by omega), hcall, show (c + 1) / 2 = c / 2 by omega, hup]
        exact hnext _ tn' htn' (hup ▸ computeRootFromPath_push_right hroot hc0)
          (length_push_le.trans (by omega))
      · -- a right child: the sibling on the left is complete, and is read from the store
        obtain ⟨tn', hcall, htn'⟩ := (treeNode_spec hc level).1 (c - 1) tn htn (by omega)
        rw [if_neg (show ¬ c % 2 = 0 by omega), if_neg (show ¬ (c - 1) % 2 = 1 by omega),
          if_pos (show (c - 1) % 2 = 0 by omega), hcall, show (c - 1) / 2 = c / 2 by omega, hup]
        exact hnext _ tn' htn' (hup ▸ computeRootFromPath_push_left hroot hc1)
          (length_push_le.trans (by omega))
    · -- the loop ends at the top level, at index 0
      rw [blockProofLoop, dif_neg h1]
      have hlevel : level = Nat.clog 2 n := by
        rw [Nat.clog_of_right_le_one (by omega)] at hlog; omega
      have hzero : j / 2 ^ level = 0 :=
        Nat.div_eq_of_lt (lt_of_lt_of_le hj (hlevel ▸ Nat.le_pow_clog (by norm_num) n))
      refine ⟨path, rfl, ?_, hlevel ▸ hlen⟩
      rw [hroot, hzero, hlevel]

/-- **The proof of an earlier block verifies against the head**: on a canonical chain up to
block `n`, the proof of block `j < n` folds to the root of the head's tree and has at most
`⌈log₂ n⌉` items. -/
theorem get_block_proof_verifies [Inhabited H] [DecidableEq H] {j : Nat} (hj : j < n) :
    ∃ path, getBlockProof f s (B j) (B n) = .ok path ∧
      (s.blockMerkleTree (B n)).map (PartialMerkleTree.root f) =
        some (computeRootFromPath f path (B j)) ∧
      path.length ≤ Nat.clog 2 n := by
  have hstart : some (computeRootFromPath f [] (B j)) = node f (chainLeaves B n) 0 (j / 2 ^ 0) := by
    rw [pow_zero, Nat.div_one, node_zero, getElem?_chainLeaves hj]; rfl
  obtain ⟨path, hloop, hroot, hlen⟩ := blockProofLoop_spec hc hj n 0 [] (fun _ => none)
    (fun _ _ _ h => nomatch h) (by omega) (by omega) hstart (le_refl _)
  rw [pow_zero, Nat.div_one] at hloop
  refine ⟨path, ?_, ?_, hlen⟩
  · -- the block is behind the head, so the loop runs from the leaf
    rw [getBlockProof, hc.getBlockMerkleTree hj.le, hc.getBlockMerkleTree le_rfl]
    simp only [bind, Except.bind, ge_iff_le, if_neg (Nat.not_le.mpr hj)]
    exact hloop
  · rw [hc.tree n le_rfl,
      PartialMerkleTree.root_ofLeaves _ (by rw [length_chainLeaves]; exact Nat.le_pow_clog one_lt_two n),
      ← hroot]
    rfl

end Canonical

/-- The combining function of the sample chain. -/
def sampleCombine (a b : Nat) : Nat := 2 * a + b + 1

/-- A canonical chain of six blocks whose hashes are their ordinals. -/
def sampleStore : ChainStoreView Nat where
  blockMerkleTree h := if h ≤ 5 then PartialMerkleTree.ofLeaves sampleCombine (chainLeaves id h)
    else none
  blockOrdinalToHash k := if k ≤ 5 then some k else none

theorem sampleStore_canonical : Canonical sampleCombine sampleStore id 5 :=
  ⟨fun _ hk => if_pos hk, fun _ hk => if_pos hk⟩

theorem get_block_proof_verifies_sample : Canonical sampleCombine sampleStore id 5 ∧ 2 < 5 ∧
    ∃ path, getBlockProof sampleCombine sampleStore 2 5 = .ok path ∧
      (sampleStore.blockMerkleTree 5).map (PartialMerkleTree.root sampleCombine) =
        some (computeRootFromPath sampleCombine path 2) ∧
      path.length ≤ Nat.clog 2 5 :=
  ⟨sampleStore_canonical, by decide, get_block_proof_verifies sampleStore_canonical (j := 2) (by decide)⟩

end Unc
