import UncNode.Trie.Node

/-!
# Updating the in-memory trie — `core/store/src/trie/mem/updating.rs`

`MemTrieUpdate::insert_impl` walks down from the root. At a branch it goes on into the child of
the next nibble; at a leaf or an extension it compares the key with the node's nibbles, and
either replaces the leaf's value, or turns the node into a branch and goes on at the same
node, or splits off the common part as an extension and goes on below it. `delete` walks down
to the key, removes its value, and then `squash_nodes` fixes every node on the path from the
bottom up: a branch left with no child becomes a leaf, one left with one child and no value
becomes an extension, and an extension absorbs an extension or a leaf below it
(`extend_child`).

The walk is a recursion here, with the node it continues at as the argument. A panic of the
source is `none`: `existing_key.at(0)` on an extension with no nibbles, `value.unwrap()` on a
branch with neither a child nor a value, and the `unreachable!()` of `extend_child` on an
empty child. The arena of updated nodes, the refcounts of values and nodes and the memory
usage are not modelled: `to_trie_changes` builds the new nodes from this tree.

* `lookup_insert`, `lookup_delete`: after an insert or a delete, the lookup is the old one
  updated at the key;
* `insert_canonical`, `delete_canonical`: on a canonical trie neither panics, and both give a
  canonical trie;
* **`applyChanges_spec`**: a batch of changes on a canonical trie does not panic, gives a
  canonical trie, and its lookup is the old one updated change by change.
-/

set_option autoImplicit false

namespace Unc

namespace MemTrieUpdate

open ListPrefix

variable {V : Type}

/-! ## Insertion -/

/-- The branch a leaf becomes when the key inserted shares no nibble with it: the value moves
to the branch if the leaf's key is empty, and one nibble down to a new leaf otherwise. -/
def leafToBranch (extension : List Nibble) (value : V) : TrieNode V :=
  match extension with
  | [] => .branch noChildren (some value)
  | idx :: rest => .branch (Function.update noChildren idx (.leaf rest value)) none

/-- The branch an extension becomes when the key inserted shares no nibble with it: the child
moves one nibble down, below an extension of the remaining nibbles if there are any. -/
def extensionToBranch (idx : Nibble) (rest : List Nibble) (child : TrieNode V) : TrieNode V :=
  .branch (Function.update noChildren idx (if rest = [] then child else .extension rest child))
    none

/-- The measure of the walk of `insert_impl` at a fixed key: a leaf or an extension may turn
into a branch and be visited again. -/
def rank : TrieNode V → Nat
  | .leaf _ _ | .extension _ _ => 1
  | _ => 0

@[simp] theorem rank_branch (children : Nibble → TrieNode V) (value : Option V) :
    rank (.branch children value) = 0 := rfl

@[simp] theorem rank_leaf (extension : List Nibble) (value : V) :
    rank (.leaf extension value) = 1 := rfl

@[simp] theorem rank_extension (extension : List Nibble) (child : TrieNode V) :
    rank (.extension extension child) = 1 := rfl

theorem rank_le_one (node : TrieNode V) : rank node ≤ 1 := by
  cases node <;> simp [rank]

/-- `MemTrieUpdate::insert_impl` of `value` at the remaining nibbles `key` (the source's
`partial`) below `node`. -/
def insert (node : TrieNode V) (key : List Nibble) (value : V) : Option (TrieNode V) :=
  match node with
  | .empty => some (.leaf key value)
  | .branch children oldValue =>
    match key with
    | [] => some (.branch children (some value))
    | idx :: key => (insert (children idx) key value).map fun child =>
        .branch (Function.update children idx child) oldValue
  | .leaf extension oldValue =>
    let common := commonPrefix key extension
    if common = extension.length ∧ common = key.length then some (.leaf extension value)
    else if common = 0 then insert (leafToBranch extension oldValue) key value
    else (insert (.leaf (extension.drop common) oldValue) (key.drop common) value).map
      (.extension (key.take common))
  | .extension extension child =>
    let common := commonPrefix key extension
    if common = 0 then
      -- `existing_key.at(0)` panics on an extension with no nibbles
      match extension with
      | [] => none
      | idx :: rest => insert (extensionToBranch idx rest child) key value
    else if common = extension.length then
      (insert child (key.drop common) value).map (.extension extension)
    else (insert (.extension (extension.drop common) child) (key.drop common) value).map
      (.extension (extension.take common))
termination_by 2 * key.length + rank node
decreasing_by
  · have := rank_le_one (children idx)
    simp only [List.length_cons, rank_branch]
    omega
  · cases extension <;> simp [leafToBranch]
  · have := commonPrefix_le_length_left key extension
    simp only [common] at *
    simp only [List.length_drop, rank_leaf]
    omega
  · simp [extensionToBranch]
  · have := commonPrefix_le_length_left key extension
    have := rank_le_one child
    simp only [common] at *
    simp only [List.length_drop, rank_extension]
    omega
  · have := commonPrefix_le_length_left key extension
    simp only [common] at *
    simp only [List.length_drop, rank_extension]
    omega

@[simp] theorem insert_empty (key : List Nibble) (value : V) :
    insert .empty key value = some (.leaf key value) := by
  rw [insert]

@[simp] theorem insert_branch_nil (children : Nibble → TrieNode V) (oldValue : Option V)
    (value : V) : insert (.branch children oldValue) [] value =
      some (.branch children (some value)) := by
  rw [insert]

@[simp] theorem insert_branch_cons (children : Nibble → TrieNode V) (oldValue : Option V)
    (idx : Nibble) (key : List Nibble) (value : V) :
    insert (.branch children oldValue) (idx :: key) value =
      (insert (children idx) key value).map fun child =>
        .branch (Function.update children idx child) oldValue := by
  rw [insert]

theorem insert_leaf (extension key : List Nibble) (oldValue value : V) :
    insert (.leaf extension oldValue) key value =
      if commonPrefix key extension = extension.length ∧
          commonPrefix key extension = key.length then some (.leaf extension value)
      else if commonPrefix key extension = 0 then insert (leafToBranch extension oldValue) key value
      else (insert (.leaf (extension.drop (commonPrefix key extension)) oldValue)
        (key.drop (commonPrefix key extension)) value).map
          (.extension (key.take (commonPrefix key extension))) := by
  rw [insert]

theorem insert_extension (extension key : List Nibble) (child : TrieNode V) (value : V) :
    insert (.extension extension child) key value =
      if commonPrefix key extension = 0 then
        match extension with
        | [] => none
        | idx :: rest => insert (extensionToBranch idx rest child) key value
      else if commonPrefix key extension = extension.length then
        (insert child (key.drop (commonPrefix key extension)) value).map (.extension extension)
      else (insert (.extension (extension.drop (commonPrefix key extension)) child)
        (key.drop (commonPrefix key extension)) value).map
          (.extension (extension.take (commonPrefix key extension))) := by
  rw [insert.eq_def]

/-! ### What an insert stores -/

theorem lookup_leafToBranch (extension : List Nibble) (value : V) :
    lookup (leafToBranch extension value) = lookup (.leaf extension value) := by
  funext key
  cases extension with
  | nil => cases key <;> simp [leafToBranch, lookup_leaf]
  | cons idx rest =>
    cases key with
    | nil => simp [leafToBranch, lookup_leaf]
    | cons n key =>
      by_cases hn : n = idx
      · subst hn
        simp [leafToBranch, lookup_leaf]
      · simp [leafToBranch, lookup_leaf, hn]

theorem lookup_extensionToBranch (idx : Nibble) (rest : List Nibble) (child : TrieNode V) :
    lookup (extensionToBranch idx rest child) = lookup (.extension (idx :: rest) child) := by
  funext key
  cases key with
  | nil => simp [extensionToBranch, lookup_extension]
  | cons n key =>
    by_cases hn : n = idx
    · subst hn
      by_cases hrest : rest = []
      · subst hrest
        simp [extensionToBranch, lookup_extension]
      · simp [extensionToBranch, lookup_extension, hrest]
    · simp [extensionToBranch, lookup_extension, hn, Ne.symm hn]

/-- An update below an extension, at the key with the extension's nibbles in front: `inner` is
the node that was below them, `old` the node before the update. -/
theorem lookup_extension_update (pre : List Nibble) {key : List Nibble} {x : Option V}
    {c inner : TrieNode V} (old : TrieNode V)
    (hc : lookup c = Function.update (lookup inner) key x)
    (hinner : ∀ s, lookup inner s = lookup old (pre ++ s))
    (hout : ∀ q, ¬ pre <+: q → lookup old q = none) :
    lookup (.extension pre c) = Function.update (lookup old) (pre ++ key) x := by
  refine lookup_extension_eq (fun s => ?_) (fun q hq => ?_)
  · simp [hc, Function.update_apply, hinner]
  · have hne : q ≠ pre ++ key := fun h => hq (h ▸ List.prefix_append pre key)
    rw [Function.update_apply, if_neg hne, hout q hq]

/-- **What `insert_impl` stores**: the value at the key, and every other key as it was. -/
theorem lookup_insert {node t : TrieNode V} {key : List Nibble} {value : V}
    (h : insert node key value = some t) :
    lookup t = Function.update (lookup node) key (some value) := by
  fun_induction insert node key value generalizing t with
  | case1 key =>
    cases h
    funext q
    simp [lookup_leaf, Function.update_apply]
  | case2 children oldValue =>
    cases h
    funext q
    cases q <;> simp
  | case3 children oldValue idx rest ih =>
    obtain ⟨child, hchild, rfl⟩ := Option.map_eq_some_iff.mp h
    funext q
    cases q with
    | nil => simp
    | cons n q =>
      by_cases hn : n = idx
      · subst hn
        simp [ih hchild, Function.update_apply]
      · simp [hn]
  | case4 key extension oldValue common =>
    -- the exact leaf: its value is replaced
    rename_i hexact
    cases h
    obtain rfl : key = extension := eq_of_commonPrefix_eq_length hexact.2 hexact.1
    funext q
    by_cases hq : q = key <;> simp [lookup_leaf, hq]
  | case5 key extension oldValue common =>
    -- the leaf turns into a branch, and the walk goes on there
    rename_i ih
    rw [ih h, lookup_leafToBranch]
  | case6 key extension oldValue common =>
    -- the common nibbles become an extension over a leaf of the rest
    rename_i ih
    obtain ⟨c, hc, rfl⟩ := Option.map_eq_some_iff.mp h
    have hsplit := take_append_drop_commonPrefix key extension
    have hupdate := lookup_extension_update (key.take common) (.leaf extension oldValue) (ih hc)
      (fun s => ?_) (fun q hq => ?_)
    · rwa [List.take_append_drop] at hupdate
    · have hshift := lookup_leaf_append (key.take common) (extension.drop common) oldValue s
      rw [hsplit] at hshift
      exact hshift.symm
    · rw [← hsplit]
      exact lookup_leaf_of_not_isPrefix _ _ hq
  | case7 => cases h
  | case8 key child idx rest common =>
    rename_i ih
    rw [ih h, lookup_extensionToBranch]
  | case9 key extension child common =>
    -- the whole extension is a prefix of the key: the walk goes on below it
    rename_i hfull ih
    obtain ⟨c, hc, rfl⟩ := Option.map_eq_some_iff.mp h
    have hkey : extension ++ key.drop common = key := by
      rw [hfull]
      obtain ⟨s, rfl⟩ := (commonPrefix_eq_length_right_iff key extension).mp hfull
      simp
    have hupdate := lookup_extension_update extension (.extension extension child) (ih hc)
      (fun s => (lookup_extension_append extension child s).symm)
      (fun q hq => lookup_extension_of_not_isPrefix _ hq)
    rwa [hkey] at hupdate
  | case10 key extension child common =>
    -- the extension is split at the common nibbles, and the walk goes on below them
    rename_i ih
    obtain ⟨c, hc, rfl⟩ := Option.map_eq_some_iff.mp h
    have hsplit : extension.take common ++ extension.drop common = extension :=
      List.take_append_drop _ _
    have hkey : extension.take common ++ key.drop common = key := by
      simp only [common]
      rw [← take_commonPrefix, List.take_append_drop]
    have hupdate := lookup_extension_update (extension.take common) (.extension extension child)
      (ih hc) (fun s => ?_) (fun q hq => ?_)
    · rwa [hkey] at hupdate
    · have hshift := lookup_extension_append_append (extension.take common)
        (extension.drop common) child s
      rw [hsplit] at hshift
      exact hshift.symm
    · rw [← hsplit]
      exact lookup_extension_of_not_isPrefix _ fun h => hq ((List.prefix_append _ _).trans h)

/-! ### Inserting keeps the trie canonical -/

/-- An insert into a branch gives a branch. -/
theorem insert_branch_eq {children : Nibble → TrieNode V} {oldValue : Option V}
    {key : List Nibble} {value : V} {t : TrieNode V}
    (h : insert (.branch children oldValue) key value = some t) :
    ∃ children' value', t = .branch children' value' := by
  cases key with
  | nil =>
    rw [insert_branch_nil, Option.some.injEq] at h
    exact ⟨_, _, h.symm⟩
  | cons idx key =>
    rw [insert_branch_cons] at h
    obtain ⟨child, -, rfl⟩ := Option.map_eq_some_iff.mp h
    exact ⟨_, _, rfl⟩

/-- A branch with one child gets the key somewhere else, so that it has two entries. -/
theorem insert_branch_one_child {idx : Nibble} {c : TrieNode V} (hc : TrieNode.Canonical c)
    {key : List Nibble} (hkey : ∀ n rest, key = n :: rest → n ≠ idx) (value : V) :
    ∃ children value', insert (.branch (Function.update noChildren idx c) none) key value =
      some (.branch children value') ∧ TrieNode.Canonical (.branch children value') := by
  cases key with
  | nil => exact ⟨_, _, insert_branch_nil _ _ _, canonical_branch_one hc value⟩
  | cons n rest =>
    have hn := hkey n rest rfl
    refine ⟨_, _, ?_, canonical_branch_two (Ne.symm hn) hc (.leaf rest value)⟩
    simp [hn]

/-- A branch with only a value gets a non-empty key as its first child. -/
theorem insert_branch_value_only {key : List Nibble} (hkey : key ≠ []) (oldValue value : V) :
    ∃ children value', insert (.branch noChildren (some oldValue)) key value =
      some (.branch children value') ∧ TrieNode.Canonical (.branch children value') := by
  obtain ⟨n, rest, rfl⟩ := List.exists_cons_of_ne_nil hkey
  refine ⟨Function.update noChildren n (.leaf rest value), some oldValue, ?_,
    canonical_branch_one (.leaf rest value) oldValue⟩
  simp

/-- A leaf whose key shares no nibble with the one inserted, and is not equal to it, becomes a
canonical branch. -/
theorem insert_leaf_of_commonPrefix_eq_zero {extension key : List Nibble}
    (hzero : commonPrefix key extension = 0) (hne : ¬ (extension = [] ∧ key = [])) (oldValue value : V) :
    ∃ children value', insert (.leaf extension oldValue) key value =
      some (.branch children value') ∧ TrieNode.Canonical (.branch children value') := by
  have hexact : ¬ (commonPrefix key extension = extension.length ∧
      commonPrefix key extension = key.length) := by
    rintro ⟨h₁, h₂⟩
    exact hne ⟨List.eq_nil_of_length_eq_zero (by omega), List.eq_nil_of_length_eq_zero (by omega)⟩
  rw [insert_leaf, if_neg hexact, if_pos hzero]
  cases extension with
  | nil => exact insert_branch_value_only (fun h => hne ⟨rfl, h⟩) oldValue value
  | cons idx rest =>
    refine insert_branch_one_child (.leaf rest oldValue) (fun n key' hkey => ?_) value
    subst hkey
    rintro rfl
    simp at hzero

/-- An extension whose nibbles share none with the key inserted becomes a canonical branch. -/
theorem insert_extension_of_commonPrefix_eq_zero {idx : Nibble} {rest key : List Nibble}
    {children : Nibble → TrieNode V} {oldValue : Option V}
    (hchild : TrieNode.Canonical (.branch children oldValue))
    (hzero : commonPrefix key (idx :: rest) = 0) (value : V) :
    ∃ children' value', insert (.extension (idx :: rest) (.branch children oldValue)) key value =
      some (.branch children' value') ∧ TrieNode.Canonical (.branch children' value') := by
  rw [insert_extension, if_pos hzero]
  have hmoved : TrieNode.Canonical (if rest = [] then .branch children oldValue
      else .extension rest (.branch children oldValue)) := by
    split
    · exact hchild
    · exact .extension ‹_› hchild
  refine insert_branch_one_child hmoved (fun n key' hkey => ?_) value
  subst hkey
  rintro rfl
  simp at hzero

/-- **Inserting into a canonical trie** does not panic and gives a canonical node. -/
theorem insert_canonical {node : TrieNode V} (hnode : CanonicalTrie node) (key : List Nibble)
    (value : V) : ∃ t, insert node key value = some t ∧ TrieNode.Canonical t := by
  rcases hnode with rfl | hnode
  · exact ⟨_, insert_empty key value, .leaf key value⟩
  induction hnode generalizing key with
  | leaf extension oldValue =>
    by_cases hexact : commonPrefix key extension = extension.length ∧
        commonPrefix key extension = key.length
    · exact ⟨_, by rw [insert_leaf, if_pos hexact], .leaf extension value⟩
    by_cases hzero : commonPrefix key extension = 0
    · have hne : ¬ (extension = [] ∧ key = []) := by
        rintro ⟨rfl, rfl⟩
        simp at hexact
      obtain ⟨_, _, h, hc⟩ := insert_leaf_of_commonPrefix_eq_zero hzero hne oldValue value
      exact ⟨_, h, hc⟩
    -- below the common nibbles, the rest of the leaf and of the key share none
    have hne : ¬ (extension.drop (commonPrefix key extension) = [] ∧
        key.drop (commonPrefix key extension) = []) := by
      rintro ⟨h₁, h₂⟩
      have := commonPrefix_le_length_left key extension
      have := commonPrefix_le_length_right key extension
      simp only [List.drop_eq_nil_iff] at h₁ h₂
      exact hexact ⟨by omega, by omega⟩
    have hzero' := commonPrefix_drop_eq_zero key extension
    obtain ⟨children, value', h, hc⟩ :=
      insert_leaf_of_commonPrefix_eq_zero hzero' hne oldValue value
    refine ⟨_, by rw [insert_leaf, if_neg hexact, if_neg hzero, h]; rfl, .extension ?_ hc⟩
    simp only [ne_eq, List.take_eq_nil_iff, not_or]
    refine ⟨hzero, ?_⟩
    rintro rfl
    simp at hzero
  | @extension extension children oldValue hext hchild ih =>
    by_cases hzero : commonPrefix key extension = 0
    · obtain ⟨idx, rest, rfl⟩ := List.exists_cons_of_ne_nil hext
      obtain ⟨_, _, h, hc⟩ := insert_extension_of_commonPrefix_eq_zero hchild hzero value
      exact ⟨_, h, hc⟩
    by_cases hfull : commonPrefix key extension = extension.length
    · -- the walk goes on into the branch below, which stays a branch
      obtain ⟨c, hc, hcan⟩ := ih (key.drop (commonPrefix key extension))
      obtain ⟨children', value', rfl⟩ := insert_branch_eq hc
      exact ⟨_, by rw [insert_extension, if_neg hzero, if_pos hfull, hc]; rfl,
        .extension hext hcan⟩
    · -- the extension splits, and the part below the common nibbles becomes a branch
      have hlt : commonPrefix key extension < extension.length :=
        Nat.lt_of_le_of_ne (commonPrefix_le_length_right key extension) hfull
      obtain ⟨idx, rest, hdrop⟩ := List.exists_cons_of_ne_nil
        (show extension.drop (commonPrefix key extension) ≠ [] by simp; omega)
      have hzero' := commonPrefix_drop_eq_zero key extension
      rw [hdrop] at hzero'
      obtain ⟨children', value', h, hc⟩ :=
        insert_extension_of_commonPrefix_eq_zero hchild hzero' value
      refine ⟨_, by rw [insert_extension, if_neg hzero, if_neg hfull, hdrop, h]; rfl,
        .extension ?_ hc⟩
      simp only [ne_eq, List.take_eq_nil_iff, not_or]
      exact ⟨hzero, hext⟩
  | @branch children oldValue hchildren hone htwo ih =>
    have hbranch : TrieNode.Canonical (.branch children oldValue) := .branch hchildren hone htwo
    cases key with
    | nil =>
      obtain ⟨i, hi⟩ := hone
      exact ⟨_, insert_branch_nil _ _ _,
        .branch hchildren ⟨i, hi⟩ (fun h => by cases h)⟩
    | cons idx key =>
      -- into an absent child a leaf goes; into a present one, by induction
      have hchild : ∃ c, insert (children idx) key value = some c ∧ TrieNode.Canonical c := by
        by_cases hidx : children idx = .empty
        · exact ⟨_, by rw [hidx, insert_empty], .leaf key value⟩
        · exact ih idx hidx key
      obtain ⟨c, hc, hcan⟩ := hchild
      exact ⟨_, by rw [insert_branch_cons, hc]; rfl, hbranch.branch_update idx hcan⟩

/-! ## Deletion -/

/-- `extend_child`: an extension of `extension` over `child`, squashed by the kind of the
child; an empty child is `unreachable!()`. -/
def extendChild (extension : List Nibble) : TrieNode V → Option (TrieNode V)
  | .empty => none
  | .leaf childExtension value => some (.leaf (extension ++ childExtension) value)
  | .branch children value => some (.extension extension (.branch children value))
  | .extension childExtension innerChild =>
    some (.extension (extension ++ childExtension) innerChild)

/-- The `Branch` arm of `squash_nodes`, once the removed children are gone: no child left
makes a leaf of the value (`value.unwrap()`), one child and no value an extension. -/
def squashBranch (children : Nibble → TrieNode V) (value : Option V) : Option (TrieNode V) :=
  match value, childIndices children with
  | none, [] => none
  | some value, [] => some (.leaf [] value)
  | none, [idx] => extendChild [idx] (children idx)
  | value, _ => some (.branch children value)

/-- A node on the path, squashed once the key was deleted below it. When the key was not
found, `delete` returns before `squash_nodes` and the node stays; a panic below stays one. -/
def squashParent (below : Option (Option (TrieNode V)))
    (squash : TrieNode V → Option (TrieNode V)) : Option (Option (TrieNode V)) :=
  match below with
  | none => none
  | some none => some none
  | some (some child) => (squash child).map some

/-- `MemTrieUpdate::delete` of the remaining nibbles `key` below `node`, with `squash_nodes`
on the way back up: `some none` when the key is not there, `some (some t)` for the new node,
and `none` for a panic. -/
def delete : TrieNode V → List Nibble → Option (Option (TrieNode V))
  | .empty, _ => some none
  | .leaf extension _, key => if extension = key then some (some .empty) else some none
  | .branch children value, [] =>
    match value with
    | none => some none
    | some _ => (squashBranch children none).map some
  | .branch children value, idx :: key =>
    -- an absent child is the empty node, where nothing is found, as in the `None` arm
    squashParent (delete (children idx) key) fun child =>
      squashBranch (Function.update children idx child) value
  | .extension extension child, key =>
    if commonPrefix extension key = extension.length then
      squashParent (delete child (key.drop extension.length)) (extendChild extension)
    else some none

theorem squashParent_eq_some {below : Option (Option (TrieNode V))}
    {squash : TrieNode V → Option (TrieNode V)} {r : Option (TrieNode V)}
    (h : squashParent below squash = some r) :
    (below = some none ∧ r = none) ∨
      ∃ child t, below = some (some child) ∧ squash child = some t ∧ r = some t := by
  unfold squashParent at h
  split at h
  · cases h
  · cases h
    exact .inl ⟨rfl, rfl⟩
  · obtain ⟨t, ht, rfl⟩ := Option.map_eq_some_iff.mp h
    exact .inr ⟨_, t, rfl, ht, rfl⟩

/-! ### Squashing keeps the lookup -/

theorem lookup_extendChild {extension : List Nibble} {child t : TrieNode V}
    (h : extendChild extension child = some t) :
    lookup t = lookup (.extension extension child) := by
  cases child with
  | empty => cases h
  | leaf childExtension value =>
    cases h
    exact (lookup_extension_leaf _ _ _).symm
  | branch children value => cases h; rfl
  | extension childExtension innerChild =>
    cases h
    exact (lookup_extension_extension _ _ _).symm

/-- A branch with one child is the extension of its nibble over that child. -/
theorem lookup_branch_single {children : Nibble → TrieNode V} {idx : Nibble}
    (hother : ∀ j, j ≠ idx → children j = .empty) :
    lookup (.branch children none) = lookup (.extension [idx] (children idx)) := by
  funext key
  cases key with
  | nil => simp [lookup_extension]
  | cons n key =>
    by_cases hn : n = idx
    · subst hn
      exact (lookup_extension_append [n] _ key).symm
    · rw [lookup_branch_cons, hother n hn, lookup_empty, lookup_extension_of_not_isPrefix]
      simp [Ne.symm hn]

theorem lookup_squashBranch {children : Nibble → TrieNode V} {value : Option V}
    {t : TrieNode V} (h : squashBranch children value = some t) :
    lookup t = lookup (.branch children value) := by
  cases value <;> rcases hidx : childIndices children with _ | ⟨i, _ | ⟨j, rest⟩⟩ <;>
    simp only [squashBranch, hidx, Option.some.injEq, reduceCtorEq] at h
  case none.cons.nil =>
    obtain ⟨-, hother⟩ := childIndices_eq_singleton hidx
    rw [lookup_extendChild h, lookup_branch_single hother]
  case some.nil value =>
    -- only the value is left, at the empty key
    subst h
    funext key
    cases key with
    | nil => simp [lookup_leaf]
    | cons n key => simp [lookup_leaf, childIndices_eq_nil.mp hidx n]
  all_goals subst h; rfl

theorem extendChild_ne_empty {extension : List Nibble} {child t : TrieNode V}
    (h : extendChild extension child = some t) : t ≠ .empty := by
  cases child <;> simp only [extendChild, Option.some.injEq, reduceCtorEq] at h <;> subst h <;>
    simp

theorem squashBranch_ne_empty {children : Nibble → TrieNode V} {value : Option V}
    {t : TrieNode V} (h : squashBranch children value = some t) : t ≠ .empty := by
  cases value <;> rcases hidx : childIndices children with _ | ⟨i, _ | ⟨j, rest⟩⟩ <;>
    simp only [squashBranch, hidx, Option.some.injEq, reduceCtorEq] at h
  case none.cons.nil => exact extendChild_ne_empty h
  all_goals subst h; simp

/-- **What `delete` leaves**: the key removed, every other key as it was; when the key is not
there the node stays. -/
theorem lookup_delete {node : TrieNode V} {key : List Nibble} {r : Option (TrieNode V)}
    (h : delete node key = some r) :
    lookup (r.getD node) = Function.update (lookup node) key none := by
  induction node generalizing key r with
  | empty =>
    cases h
    exact (Function.update_eq_self_iff.mpr rfl).symm
  | leaf extension value =>
    simp only [delete] at h
    split at h
    · -- the leaf of the key becomes empty
      rename_i hkey
      cases h
      subst hkey
      funext q
      by_cases hq : q = extension <;> simp [lookup_leaf, hq]
    · rename_i hkey
      cases h
      exact (Function.update_eq_self_iff.mpr (by simp [lookup_leaf, Ne.symm hkey])).symm
  | extension extension child ih =>
    simp only [delete] at h
    split at h
    · rename_i hpre
      have hkey : extension ++ key.drop extension.length = key := by
        obtain ⟨s, rfl⟩ := (commonPrefix_eq_length_left_iff extension key).mp hpre
        simp
      rcases squashParent_eq_some h with ⟨hbelow, rfl⟩ | ⟨child', t, hbelow, ht, rfl⟩
      · -- nothing below: the key is not there
        have hnone := congrFun (ih hbelow) (key.drop extension.length)
        simp only [Option.getD_none, Function.update_self] at hnone
        rw [Option.getD_none]
        refine (Function.update_eq_self_iff.mpr ?_).symm
        rw [← hkey, lookup_extension_append, hnone]
      · rw [Option.getD_some, lookup_extendChild ht]
        have hupdate := lookup_extension_update extension (.extension extension child) (ih hbelow)
          (fun s => (lookup_extension_append extension child s).symm)
          (fun q hq => lookup_extension_of_not_isPrefix _ hq)
        rwa [hkey] at hupdate
    · rename_i hpre
      cases h
      rw [Option.getD_none]
      refine (Function.update_eq_self_iff.mpr ?_).symm
      exact (lookup_extension_of_not_isPrefix _
        (fun h => hpre ((commonPrefix_eq_length_left_iff extension key).mpr h))).symm
  | branch children value ih =>
    cases key with
    | nil =>
      cases value with
      | none =>
        cases h
        exact (Function.update_eq_self_iff.mpr rfl).symm
      | some v =>
        -- the value goes, and the branch is squashed
        obtain ⟨t, ht, rfl⟩ := Option.map_eq_some_iff.mp h
        rw [Option.getD_some, lookup_squashBranch ht]
        funext q
        cases q <;> simp
    | cons idx key =>
      rcases squashParent_eq_some h with ⟨hbelow, rfl⟩ | ⟨child', t, hbelow, ht, rfl⟩
      · have hnone := congrFun (ih idx hbelow) key
        simp only [Option.getD_none, Function.update_self] at hnone
        rw [Option.getD_none]
        refine (Function.update_eq_self_iff.mpr ?_).symm
        exact hnone.symm
      · rw [Option.getD_some, lookup_squashBranch ht]
        have hchild := ih idx hbelow
        rw [Option.getD_some] at hchild
        funext q
        cases q with
        | nil => simp
        | cons n q =>
          by_cases hn : n = idx
          · subst hn
            simp [hchild, Function.update_apply]
          · simp [hn]

/-! ### Deleting keeps the trie canonical -/

theorem extendChild_canonical {extension : List Nibble} (hext : extension ≠ [])
    {child : TrieNode V} (hchild : TrieNode.Canonical child) :
    ∃ t, extendChild extension child = some t ∧ TrieNode.Canonical t := by
  cases hchild with
  | leaf childExtension value => exact ⟨_, rfl, .leaf _ value⟩
  | extension hinner hbranch => exact ⟨_, rfl, .extension (by simp [hext]) hbranch⟩
  | branch hchildren hone htwo => exact ⟨_, rfl, .extension hext (.branch hchildren hone htwo)⟩

/-- Squashing a branch whose children are canonical, and which keeps a child or a value, does
not panic and gives a canonical node. -/
theorem squashBranch_canonical {children : Nibble → TrieNode V} {value : Option V}
    (hchildren : ∀ i, children i ≠ .empty → TrieNode.Canonical (children i))
    (hleft : value = none → ∃ i, children i ≠ .empty) :
    ∃ t, squashBranch children value = some t ∧ TrieNode.Canonical t := by
  cases value <;> rcases hidx : childIndices children with _ | ⟨i, _ | ⟨j, rest⟩⟩ <;>
    simp only [squashBranch, hidx, Option.some.injEq, exists_eq_left']
  case none.nil =>
    obtain ⟨i, hi⟩ := hleft rfl
    exact absurd (childIndices_eq_nil.mp hidx i) hi
  case none.cons.nil =>
    have hi := (childIndices_eq_singleton hidx).1
    exact extendChild_canonical (List.cons_ne_nil i []) (hchildren i hi)
  case none.cons.cons =>
    obtain ⟨hij, hi, hj⟩ := two_children_of_childIndices hidx
    exact .branch hchildren ⟨i, hi⟩ fun _ => ⟨i, j, hij, hi, hj⟩
  case some.nil value => exact .leaf [] value
  all_goals
    exact .branch hchildren ⟨i, mem_childIndices.mp (by simp [hidx])⟩ fun h => by cases h

/-- A delete below a branch never leaves the empty node. -/
theorem delete_branch_ne_empty {children : Nibble → TrieNode V} {value : Option V}
    {key : List Nibble} {t : TrieNode V} (h : delete (.branch children value) key = some (some t)) :
    t ≠ .empty := by
  cases key with
  | nil =>
    cases value with
    | none => cases h
    | some v =>
      obtain ⟨t', ht, heq⟩ := Option.map_eq_some_iff.mp h
      cases heq
      exact squashBranch_ne_empty ht
  | cons idx key =>
    rcases squashParent_eq_some h with ⟨-, h'⟩ | ⟨child', t', -, ht, heq⟩
    · cases h'
    · cases heq
      exact squashBranch_ne_empty ht

/-- **Deleting from a canonical trie** does not panic, and leaves a canonical trie. -/
theorem delete_canonical {node : TrieNode V} (hnode : TrieNode.Canonical node)
    (key : List Nibble) : ∃ r, delete node key = some r ∧ ∀ t, r = some t → CanonicalTrie t := by
  induction hnode generalizing key with
  | leaf extension value =>
    by_cases hkey : extension = key
    · exact ⟨some .empty, by simp [delete, hkey], fun t ht => by cases ht; exact .empty⟩
    · exact ⟨none, by simp [delete, hkey], fun t ht => by cases ht⟩
  | @extension extension children value hext hchild ih =>
    by_cases hpre : commonPrefix extension key = extension.length
    · obtain ⟨r, hr, hcan⟩ := ih (key.drop extension.length)
      cases r with
      | none => exact ⟨none, by simp [delete, hpre, hr, squashParent], fun t ht => by cases ht⟩
      | some child' =>
        -- what is left below is a canonical node, which the extension absorbs or keeps
        have hchild' : TrieNode.Canonical child' :=
          (hcan child' rfl).resolve_left (delete_branch_ne_empty hr)
        obtain ⟨t, ht, htcan⟩ := extendChild_canonical hext hchild'
        exact ⟨some t, by simp [delete, hpre, hr, squashParent, ht],
          fun t' h => by cases h; exact .inr htcan⟩
    · exact ⟨none, by simp [delete, hpre], fun t ht => by cases ht⟩
  | @branch children value hchildren hone htwo ih =>
    cases key with
    | nil =>
      cases value with
      | none => exact ⟨none, rfl, fun t ht => by cases ht⟩
      | some v =>
        obtain ⟨t, ht, htcan⟩ : ∃ t, squashBranch children none = some t ∧ TrieNode.Canonical t :=
          squashBranch_canonical hchildren (fun _ => hone)
        exact ⟨some t, by simp [delete, ht], fun t' h => by cases h; exact .inr htcan⟩
    | cons idx key =>
      by_cases hidx : children idx = .empty
      · exact ⟨none, by simp [delete, hidx, squashParent], fun t ht => by cases ht⟩
      obtain ⟨r, hr, hcan⟩ := ih idx hidx key
      cases r with
      | none => exact ⟨none, by simp [delete, hr, squashParent], fun t ht => by cases ht⟩
      | some child' =>
        -- the child is replaced by what is left of it, which may be nothing
        have hchildren' : ∀ i, Function.update children idx child' i ≠ .empty →
            TrieNode.Canonical (Function.update children idx child' i) := by
          intro i hi
          by_cases hi' : i = idx
          · subst hi'
            simp only [Function.update_self] at hi ⊢
            exact (hcan child' rfl).resolve_left hi
          · simp only [Function.update_of_ne hi'] at hi ⊢
            exact hchildren i hi
        have hleft : value = none → ∃ i, Function.update children idx child' i ≠ .empty := by
          intro hv
          obtain ⟨i, j, hij, hi, hj⟩ := htwo hv
          by_cases hi' : i = idx
          · subst hi'
            exact ⟨j, by simpa [Function.update_of_ne (Ne.symm hij)] using hj⟩
          · exact ⟨i, by simpa [Function.update_of_ne hi'] using hi⟩
        obtain ⟨t, ht, htcan⟩ := squashBranch_canonical hchildren' hleft
        exact ⟨some t, by simp [delete, hr, squashParent, ht],
          fun t' h => by cases h; exact .inr htcan⟩

/-! ## A batch of changes -/

/-- The changes of `Trie::update` through the in-memory trie: `MemTrieUpdate::insert` for a
value and `MemTrieUpdate::delete` for none, in order, from the root. -/
def applyChanges (root : TrieNode V) : List (List UInt8 × Option V) → Option (TrieNode V)
  | [] => some root
  | (key, some value) :: changes =>
    (insert root (toNibbles key) value).bind fun root => applyChanges root changes
  | (key, none) :: changes =>
    (delete root (toNibbles key)).bind fun deleted => applyChanges (deleted.getD root) changes

/-- The map a batch of changes makes of a lookup, change by change. -/
def updateMap (m : List Nibble → Option V) (changes : List (List UInt8 × Option V)) :
    List Nibble → Option V :=
  changes.foldl (fun m change => Function.update m (toNibbles change.1) change.2) m

theorem updateMap_cons (m : List Nibble → Option V) (change : List UInt8 × Option V)
    (changes : List (List UInt8 × Option V)) :
    updateMap m (change :: changes) =
      updateMap (Function.update m (toNibbles change.1) change.2) changes := rfl

/-- One change on a canonical trie: it does not panic, the trie stays canonical and its lookup
is updated at the key. -/
theorem applyChange_canonical {root : TrieNode V} (hroot : CanonicalTrie root)
    (change : List UInt8 × Option V) :
    ∃ root', applyChanges root [change] = some root' ∧ CanonicalTrie root' ∧
      lookup root' = Function.update (lookup root) (toNibbles change.1) change.2 := by
  obtain ⟨key, value⟩ := change
  cases value with
  | some value =>
    obtain ⟨t, ht, htcan⟩ := insert_canonical hroot (toNibbles key) value
    exact ⟨t, by simp [applyChanges, ht], .inr htcan, lookup_insert ht⟩
  | none =>
    rcases hroot with rfl | hcan
    · exact ⟨.empty, rfl, .empty, (Function.update_eq_self_iff.mpr rfl).symm⟩
    obtain ⟨r, hr, hrcan⟩ := delete_canonical hcan (toNibbles key)
    refine ⟨r.getD root, by simp [applyChanges, hr], ?_, lookup_delete hr⟩
    cases r with
    | none => exact .inr hcan
    | some t => exact hrcan t rfl

theorem applyChanges_cons (root : TrieNode V) (change : List UInt8 × Option V)
    (changes : List (List UInt8 × Option V)) :
    applyChanges root (change :: changes) =
      (applyChanges root [change]).bind fun root => applyChanges root changes := by
  obtain ⟨key, _ | value⟩ := change
  · simp only [applyChanges]
    cases delete root (toNibbles key) <;> rfl
  · simp only [applyChanges]
    cases insert root (toNibbles key) value <;> rfl

/-- **A batch of changes on a canonical trie** does not panic, gives a canonical trie, and
its lookup is the old one updated change by change. -/
theorem applyChanges_spec {root : TrieNode V} (hroot : CanonicalTrie root)
    (changes : List (List UInt8 × Option V)) :
    ∃ root', applyChanges root changes = some root' ∧ CanonicalTrie root' ∧
      lookup root' = updateMap (lookup root) changes := by
  induction changes generalizing root with
  | nil => exact ⟨root, rfl, hroot, rfl⟩
  | cons change changes ih =>
    obtain ⟨root₁, h₁, hcan₁, hlookup₁⟩ := applyChange_canonical hroot change
    obtain ⟨root', h', hcan', hlookup'⟩ := ih hcan₁
    refine ⟨root', by rw [applyChanges_cons, h₁, Option.bind_some, h'], hcan', ?_⟩
    rw [hlookup', hlookup₁, updateMap_cons]

end MemTrieUpdate

end Unc
