import UncNode.Trie.MemTrieUpdate

/-!
# Updating the on-disk trie — `core/store/src/trie/insert_delete.rs`

Without in-memory tries, `Trie::update` applies the changes to the nodes in `NodesStorage`
with `Trie::insert` and `Trie::delete`. Their walks are written apart from the in-memory ones,
and differ from them in three places:

* `Trie::insert` at a leaf whose key is a proper prefix of the key inserted builds the
  extension over a branch holding the old value at once, where `insert_impl` splits the leaf
  first and converts the empty leaf it leaves on the next step;
* `Trie::delete` runs `fix_nodes` over the whole path, also when the key is not there;
* `fix_nodes` makes the empty node of a branch left with neither a child nor a value, and
  `fix_extension_node` of an extension over an empty child, where `squash_nodes` panics.

The memory usage of the nodes, their handles and the refcounts are not modelled, and
`flatten_nodes` stores the tree as it is.

* **`insert_eq`**: `Trie::insert` computes what `insert_impl` computes, on every node;
* **`delete_eq`**: on a canonical node, `Trie::delete` leaves what `MemTrieUpdate::delete`
  leaves;
* **`update_eq`**: on a canonical trie, the update of the on-disk trie is that of the
  in-memory trie.
-/

set_option autoImplicit false

namespace Unc

namespace Trie

open ListPrefix

variable {V : Type}

/-- `Trie::insert` of `value` at the remaining nibbles `key` below `node`. -/
def insert (node : TrieNode V) (key : List Nibble) (value : V) : Option (TrieNode V) :=
  match node with
  | .empty => some (.leaf key value)
  | .branch children existingValue =>
    match key with
    | [] => some (.branch children (some value))
    | idx :: key => (insert (children idx) key value).map fun child =>
        .branch (Function.update children idx child) existingValue
  | .leaf existingKey existingValue =>
    let common := commonPrefix key existingKey
    if common = existingKey.length ∧ common = key.length then some (.leaf existingKey value)
    else if common = 0 then
      insert (MemTrieUpdate.leafToBranch existingKey existingValue) key value
    else if common = existingKey.length then
      (insert (.branch noChildren (some existingValue)) (key.drop common) value).map
        (.extension existingKey)
    else (insert (.leaf (existingKey.drop common) existingValue) (key.drop common) value).map
      (.extension (key.take common))
  | .extension existingKey child =>
    let common := commonPrefix key existingKey
    if common = 0 then
      match existingKey with
      | [] => none
      | idx :: rest => insert (MemTrieUpdate.extensionToBranch idx rest child) key value
    else if common = existingKey.length then
      (insert child (key.drop common) value).map (.extension existingKey)
    else (insert (.extension (existingKey.drop common) child) (key.drop common) value).map
      (.extension (existingKey.take common))
termination_by 2 * key.length + MemTrieUpdate.rank node
decreasing_by
  · have := MemTrieUpdate.rank_le_one (children idx)
    simp only [List.length_cons, MemTrieUpdate.rank_branch]
    omega
  · cases existingKey <;> simp [MemTrieUpdate.leafToBranch]
  · have := commonPrefix_le_length_left key existingKey
    simp only [common] at *
    simp only [List.length_drop, MemTrieUpdate.rank_branch, MemTrieUpdate.rank_leaf]
    omega
  · have := commonPrefix_le_length_left key existingKey
    simp only [common] at *
    simp only [List.length_drop, MemTrieUpdate.rank_leaf]
    omega
  · simp [MemTrieUpdate.extensionToBranch]
  · have := commonPrefix_le_length_left key existingKey
    have := MemTrieUpdate.rank_le_one child
    simp only [common] at *
    simp only [List.length_drop, MemTrieUpdate.rank_extension]
    omega
  · have := commonPrefix_le_length_left key existingKey
    simp only [common] at *
    simp only [List.length_drop, MemTrieUpdate.rank_extension]
    omega

/-- A leaf with no nibbles left converts to a branch holding its value. -/
theorem memTrie_insert_leaf_nil {key : List Nibble} (hkey : key ≠ []) (oldValue value : V) :
    MemTrieUpdate.insert (.leaf [] oldValue) key value =
      MemTrieUpdate.insert (.branch noChildren (some oldValue)) key value := by
  have hlen : key.length ≠ 0 := by simpa using hkey
  rw [MemTrieUpdate.insert_leaf, if_neg (by simpa using Ne.symm hlen),
    if_pos (commonPrefix_nil_right key)]
  rfl

/-- **The on-disk insert is the in-memory one**, on every node: its extra case for a leaf
whose key is a proper prefix is the two steps `insert_impl` takes there. -/
theorem insert_eq (node : TrieNode V) (key : List Nibble) (value : V) :
    insert node key value = MemTrieUpdate.insert node key value := by
  fun_induction insert node key value with
  | case1 key => rw [MemTrieUpdate.insert_empty]
  | case2 children existingValue => rw [MemTrieUpdate.insert_branch_nil]
  | case3 children existingValue idx key ih => rw [MemTrieUpdate.insert_branch_cons, ih]
  | case4 key existingKey existingValue common =>
    rename_i hexact
    rw [MemTrieUpdate.insert_leaf existingKey key, if_pos hexact]
  | case5 key existingKey existingValue common =>
    rename_i hexact hzero ih
    rw [MemTrieUpdate.insert_leaf existingKey key, if_neg hexact, if_pos hzero, ih]
  | case6 key existingKey existingValue common =>
    rename_i hexact hzero hfull ih
    simp only [common] at hexact hzero hfull ih ⊢
    have hlen : commonPrefix key existingKey < key.length := by
      have := commonPrefix_le_length_left key existingKey
      omega
    have hkey : key.take (commonPrefix key existingKey) = existingKey := by
      rw [take_commonPrefix, hfull, List.take_length]
    have hrest : existingKey.drop (commonPrefix key existingKey) = [] := by
      rw [hfull, List.drop_length]
    rw [MemTrieUpdate.insert_leaf existingKey key, if_neg hexact, if_neg hzero, hkey, hrest,
      memTrie_insert_leaf_nil (by simpa using hlen), ih]
  | case7 key existingKey existingValue common =>
    rename_i hexact hzero hfull ih
    rw [MemTrieUpdate.insert_leaf existingKey key, if_neg hexact, if_neg hzero, ih]
  | case8 key child common =>
    rename_i hzero
    rw [MemTrieUpdate.insert_extension [] key, if_pos hzero]
  | case9 key child idx rest common =>
    rename_i hzero ih
    rw [MemTrieUpdate.insert_extension (idx :: rest) key, if_pos hzero, ih]
  | case10 key existingKey child common =>
    rename_i hzero hfull ih
    rw [MemTrieUpdate.insert_extension existingKey key, if_neg hzero, if_pos hfull, ih]
  | case11 key existingKey child common =>
    rename_i hzero hfull ih
    rw [MemTrieUpdate.insert_extension existingKey key, if_neg hzero, if_neg hfull, ih]

/-! ## Deletion and `fix_nodes` -/

/-- `Trie::fix_extension_node`: an extension of `key` over `child`, squashed by the kind of the
child; an empty child makes the empty node. -/
def fixExtensionNode (key : List Nibble) : TrieNode V → TrieNode V
  | .empty => .empty
  | .leaf childKey value => .leaf (key ++ childKey) value
  | .branch children value => .extension key (.branch children value)
  | .extension childKey childChild => .extension (key ++ childKey) childChild

/-- The `Branch` arm of `fix_nodes`, once the empty children are gone. -/
def fixBranch (children : Nibble → TrieNode V) (value : Option V) : TrieNode V :=
  match value, childIndices children with
  | some value, [] => .leaf [] value
  | none, [] => .empty
  | none, [idx] => fixExtensionNode [idx] (children idx)
  | value, _ => .branch children value

/-- One node of the loop of `fix_nodes`. -/
def fixNode : TrieNode V → TrieNode V
  | .branch children value => fixBranch children value
  | .extension key child => fixExtensionNode key child
  | node => node

/-- `Trie::delete` of the remaining nibbles `key` below `node`: the walk down, each node as
the walk leaves it, then fixed by `fix_nodes` on the way back up. -/
def delete (node : TrieNode V) (key : List Nibble) : TrieNode V :=
  fixNode <| match node, key with
  | .empty, _ => .empty
  | .leaf existingKey value, key => if existingKey = key then .empty else .leaf existingKey value
  | .branch children _, [] => if childIndices children = [] then .empty else .branch children none
  | .branch children value, idx :: key =>
    if (children idx).isEmpty then .branch children value
    else .branch (Function.update children idx (delete (children idx) key)) value
  | .extension existingKey child, key =>
    if commonPrefix existingKey key = existingKey.length then
      .extension existingKey (delete child (key.drop existingKey.length))
    else .extension existingKey child

theorem fixExtensionNode_eq {key : List Nibble} {child t : TrieNode V}
    (h : MemTrieUpdate.extendChild key child = some t) : fixExtensionNode key child = t := by
  cases child <;> simp only [MemTrieUpdate.extendChild, Option.some.injEq, reduceCtorEq] at h <;>
    exact h

theorem fixBranch_eq {children : Nibble → TrieNode V} {value : Option V} {t : TrieNode V}
    (h : MemTrieUpdate.squashBranch children value = some t) : fixBranch children value = t := by
  cases value <;> rcases hidx : childIndices children with _ | ⟨i, _ | ⟨j, rest⟩⟩ <;>
    simp only [MemTrieUpdate.squashBranch, hidx, Option.some.injEq, reduceCtorEq] at h <;>
    simp only [fixBranch, hidx]
  case none.cons.nil => exact fixExtensionNode_eq h
  all_goals exact h

/-- `fix_nodes` leaves a canonical node as it is. -/
theorem fixNode_canonical {node : TrieNode V} (h : TrieNode.Canonical node) : fixNode node = node := by
  cases h with
  | leaf => rfl
  | extension => rfl
  | @branch children value hchildren hone htwo =>
    have hsame : MemTrieUpdate.squashBranch children value = some (.branch children value) := by
      cases value <;> rcases hidx : childIndices children with _ | ⟨i, _ | ⟨j, rest⟩⟩ <;>
        simp only [MemTrieUpdate.squashBranch, hidx]
      all_goals first
        | exact absurd (childIndices_eq_nil.mp hidx) (by simpa using hone)
        | rfl
        | obtain ⟨i', j', hij, hi, hj⟩ := htwo rfl
          obtain ⟨-, hother⟩ := childIndices_eq_singleton hidx
          by_cases hi' : i' = i
          · exact absurd (hother j' (hi' ▸ Ne.symm hij)) hj
          · exact absurd (hother i' hi') hi
    exact fixBranch_eq hsame

/-- **The on-disk delete is the in-memory one** on a canonical node: `fix_nodes` over a path
where nothing was deleted changes nothing, and elsewhere it squashes as `squash_nodes`. -/
theorem delete_eq {node : TrieNode V} (hnode : TrieNode.Canonical node) {key : List Nibble}
    {r : Option (TrieNode V)} (h : MemTrieUpdate.delete node key = some r) :
    delete node key = r.getD node := by
  induction hnode generalizing key r with
  | leaf existingKey value =>
    simp only [MemTrieUpdate.delete] at h
    by_cases hkey : existingKey = key
    · simp only [hkey, if_true, Option.some.injEq] at h
      subst h
      simp [delete, hkey, fixNode]
    · simp only [hkey, if_false, Option.some.injEq] at h
      subst h
      simp [delete, hkey, fixNode]
  | @extension existingKey children value hext hchild ih =>
    simp only [MemTrieUpdate.delete] at h
    by_cases hpre : commonPrefix existingKey key = existingKey.length
    · rw [if_pos hpre] at h
      rcases MemTrieUpdate.squashParent_eq_some h with ⟨hbelow, rfl⟩ | ⟨child', t, hbelow, ht, rfl⟩
      · rw [delete, if_pos hpre, ih hbelow]
        rfl
      · rw [delete, if_pos hpre, ih hbelow]
        exact fixExtensionNode_eq ht
    · rw [if_neg hpre, Option.some.injEq] at h
      subst h
      rw [delete, if_neg hpre]
      rfl
  | @branch children value hchildren hone htwo ih =>
    have hbranch : TrieNode.Canonical (.branch children value) := .branch hchildren hone htwo
    cases key with
    | nil =>
      have hindices : childIndices children ≠ [] := by
        obtain ⟨i, hi⟩ := hone
        exact fun h => hi (childIndices_eq_nil.mp h i)
      cases value with
      | none =>
        cases h
        rw [delete]
        simp only [if_neg hindices]
        exact fixNode_canonical hbranch
      | some v =>
        obtain ⟨t, ht, rfl⟩ := Option.map_eq_some_iff.mp h
        rw [delete]
        simp only [if_neg hindices]
        exact fixBranch_eq ht
    | cons idx key =>
      by_cases hidx : children idx = .empty
      · have hnone : r = none := by
          simp only [MemTrieUpdate.delete, hidx, MemTrieUpdate.squashParent] at h
          exact (Option.some.inj h).symm
        subst hnone
        rw [delete]
        simp only [hidx, TrieNode.isEmpty, if_true]
        exact fixNode_canonical hbranch
      have hdisk : (children idx).isEmpty = false := TrieNode.isEmpty_eq_false.mpr hidx
      rcases MemTrieUpdate.squashParent_eq_some h with ⟨hbelow, rfl⟩ | ⟨child', t, hbelow, ht, rfl⟩
      · rw [delete]
        simp only [hdisk, Bool.false_eq_true, if_false, ih idx hidx hbelow, Option.getD_none,
          Function.update_eq_self]
        exact fixNode_canonical hbranch
      · rw [delete]
        simp only [hdisk, Bool.false_eq_true, if_false, ih idx hidx hbelow, Option.getD_some]
        exact fixBranch_eq ht

/-- `Trie::update` without in-memory tries: `Trie::insert` for a value and `Trie::delete` for
none, in order, from the root. -/
def update (root : TrieNode V) : List (List UInt8 × Option V) → Option (TrieNode V)
  | [] => some root
  | (key, some value) :: changes =>
    (insert root (toNibbles key) value).bind fun root => update root changes
  | (key, none) :: changes => update (delete root (toNibbles key)) changes

/-- **On a canonical trie the on-disk update is the in-memory one.** -/
theorem update_eq {root : TrieNode V} (hroot : CanonicalTrie root)
    (changes : List (List UInt8 × Option V)) :
    update root changes = MemTrieUpdate.applyChanges root changes := by
  induction changes generalizing root with
  | nil => rfl
  | cons change changes ih =>
    obtain ⟨root₁, h₁, hcan₁, -⟩ := MemTrieUpdate.applyChange_canonical hroot change
    rw [MemTrieUpdate.applyChanges_cons, h₁, Option.bind_some, ← ih hcan₁]
    obtain ⟨key, _ | value⟩ := change
    · -- a delete: the memtrie walk found the key or not, and the disk walk leaves the same
      have hdelete : delete root (toNibbles key) = root₁ := by
        simp only [MemTrieUpdate.applyChanges] at h₁
        rcases hroot with rfl | hcan
        · simp only [MemTrieUpdate.delete, Option.bind_some, Option.getD_none,
            Option.some.injEq] at h₁
          subst h₁
          rfl
        · obtain ⟨r, hr, -⟩ := MemTrieUpdate.delete_canonical hcan (toNibbles key)
          rw [hr, Option.bind_some, Option.some.injEq] at h₁
          rw [delete_eq hcan hr, h₁]
      simp only [update, hdelete]
    · simp only [MemTrieUpdate.applyChanges, Option.bind_eq_some_iff] at h₁
      obtain ⟨t, ht, heq⟩ := h₁
      cases heq
      simp [update, insert_eq, ht]

end Trie

end Unc
