import UncNode.Trie.InsertDelete

/-!
# The state root is a function of the key-value map

The tries that `Trie::update` builds from the empty trie, by either of its two paths, are
canonical, and a canonical trie is fixed by the map it holds: a leaf holds one key, a branch
holds keys that start differently, and an extension holds keys whose longest common prefix is
its nibbles. So the root, and with it the state root, depends on the map alone.

* `TrieNode.Canonical.eq_of_lookup_eq`: canonical nodes that hold the same map are equal;
* `Reachable`, `Reachable.canonical`: the tries built by updates;
* `lastChange`, `updateMap_apply`: a batch of changes read key by key;
* **`trie_update_lookup`**: after a batch of changes on a reachable trie, by either path, a
  lookup returns the last change to the key, or the old value when no change mentions it;
* **`reachable_trie_canonical`**: reachable tries are canonical, their updates do not panic,
  and their state root is a function of their map, the default hash for the empty map.
-/

set_option autoImplicit false

namespace Unc

open ListPrefix

variable {V : Type}

/-! ## Which keys a node holds -/

theorem eq_of_lookup_leaf_eq_some {extension key : List Nibble} {value v : V}
    (h : lookup (.leaf extension value) key = some v) : key = extension := by
  by_contra hne
  simp [lookup_leaf, hne] at h

theorem isPrefix_of_lookup_extension_eq_some {extension key : List Nibble} {child : TrieNode V}
    {v : V} (h : lookup (.extension extension child) key = some v) : extension <+: key := by
  by_contra hne
  rw [lookup_extension_of_not_isPrefix _ hne] at h
  cases h

/-- A canonical branch holds two keys that start differently. -/
theorem TrieNode.Canonical.branch_spread {children : Nibble → TrieNode V} {value : Option V}
    (h : TrieNode.Canonical (.branch children value)) :
    ∃ k₁ k₂ v₁ v₂, lookup (.branch children value) k₁ = some v₁ ∧
      lookup (.branch children value) k₂ = some v₂ ∧ k₁.head? ≠ k₂.head? := by
  cases h with
  | branch hchildren hone htwo =>
    cases value with
    | none =>
      obtain ⟨i, j, hij, hi, hj⟩ := htwo rfl
      obtain ⟨k₁, v₁, h₁⟩ := (hchildren i hi).exists_lookup
      obtain ⟨k₂, v₂, h₂⟩ := (hchildren j hj).exists_lookup
      exact ⟨i :: k₁, j :: k₂, v₁, v₂, h₁, h₂, by simpa using hij⟩
    | some v =>
      obtain ⟨i, hi⟩ := hone
      obtain ⟨k, w, hk⟩ := (hchildren i hi).exists_lookup
      exact ⟨[], i :: k, v, w, rfl, hk, by simp⟩

/-- A canonical node that holds the map of a leaf is that leaf. -/
theorem TrieNode.Canonical.eq_leaf_of_lookup_eq {t : TrieNode V} (h : TrieNode.Canonical t)
    {extension : List Nibble} {value : V} (hlookup : lookup t = lookup (.leaf extension value)) :
    t = .leaf extension value := by
  cases h with
  | leaf extension' value' =>
    have hself := congrFun hlookup extension'
    simp only [lookup_leaf, if_true] at hself
    split at hself
    · rename_i hkey
      cases hself
      rw [hkey]
    · cases hself
  | extension hext hbranch =>
    -- the two keys of the branch below stay apart behind the extension
    obtain ⟨k₁, k₂, v₁, v₂, h₁, h₂, hk⟩ := hbranch.branch_spread
    have hkey₁ := eq_of_lookup_leaf_eq_some
      (((congrFun hlookup _).symm.trans (lookup_extension_append _ _ k₁)).trans h₁)
    have hkey₂ := eq_of_lookup_leaf_eq_some
      (((congrFun hlookup _).symm.trans (lookup_extension_append _ _ k₂)).trans h₂)
    exact absurd (congrArg List.head? (List.append_cancel_left (hkey₁.trans hkey₂.symm))) hk
  | branch hchildren hone htwo =>
    obtain ⟨k₁, k₂, v₁, v₂, h₁, h₂, hk⟩ := (TrieNode.Canonical.branch hchildren hone htwo).branch_spread
    have hkey₁ := eq_of_lookup_leaf_eq_some ((congrFun hlookup k₁).symm.trans h₁)
    have hkey₂ := eq_of_lookup_leaf_eq_some ((congrFun hlookup k₂).symm.trans h₂)
    exact absurd (congrArg List.head? (hkey₁.trans hkey₂.symm)) hk

/-- A canonical branch does not hold the map of an extension: all keys of an extension start
with its first nibble. -/
theorem TrieNode.Canonical.lookup_branch_ne_extension {children : Nibble → TrieNode V}
    {value : Option V} (h : TrieNode.Canonical (.branch children value)) {extension : List Nibble}
    (hext : extension ≠ []) (child : TrieNode V) :
    lookup (.branch children value) ≠ lookup (.extension extension child) := by
  intro hlookup
  obtain ⟨k₁, k₂, v₁, v₂, h₁, h₂, hk⟩ := h.branch_spread
  rw [hlookup] at h₁ h₂
  exact hk (head?_eq_of_isPrefix hext (isPrefix_of_lookup_extension_eq_some h₁)
    (isPrefix_of_lookup_extension_eq_some h₂))

/-- An extension over a canonical branch holding the map of another extension has the other's
nibbles in front: they are a prefix of the two keys of the branch, which start differently. -/
theorem isPrefix_of_lookup_extension_eq {e₁ e₂ : List Nibble} {children : Nibble → TrieNode V}
    {value : Option V} (h : TrieNode.Canonical (.branch children value)) {child : TrieNode V}
    (hlookup : lookup (.extension e₁ (.branch children value)) = lookup (.extension e₂ child)) :
    e₂ <+: e₁ := by
  obtain ⟨k₁, k₂, v₁, v₂, h₁, h₂, hk⟩ := h.branch_spread
  rw [← lookup_extension_append e₁, hlookup] at h₁ h₂
  exact prefix_of_prefix_append hk (isPrefix_of_lookup_extension_eq_some h₁)
    (isPrefix_of_lookup_extension_eq_some h₂)

/-- **Canonical nodes that hold the same map are equal**, by induction on the first: the map
decides the kind of node, the nibbles of an extension, and the value and children of a
branch. -/
theorem TrieNode.Canonical.eq_of_lookup_eq {t₁ t₂ : TrieNode V} (h₁ : TrieNode.Canonical t₁)
    (h₂ : TrieNode.Canonical t₂) (hlookup : lookup t₁ = lookup t₂) : t₁ = t₂ := by
  induction h₁ generalizing t₂ with
  | leaf extension value => exact (h₂.eq_leaf_of_lookup_eq hlookup.symm).symm
  | @extension e₁ children₁ value₁ hext₁ hbranch₁ ih =>
    cases h₂ with
    | leaf => cases (TrieNode.Canonical.extension hext₁ hbranch₁).eq_leaf_of_lookup_eq hlookup
    | branch hchildren hone htwo =>
      exact absurd hlookup.symm
        ((TrieNode.Canonical.branch hchildren hone htwo).lookup_branch_ne_extension hext₁ _)
    | @extension e₂ children₂ value₂ hext₂ hbranch₂ =>
      have hkey : e₁ = e₂ := by
        have h₂₁ := isPrefix_of_lookup_extension_eq hbranch₁ hlookup
        have h₁₂ := isPrefix_of_lookup_extension_eq hbranch₂ hlookup.symm
        exact h₁₂.eq_of_length (Nat.le_antisymm h₁₂.length_le h₂₁.length_le)
      subst hkey
      have hchild : lookup (.branch children₁ value₁) = lookup (.branch children₂ value₂) := by
        funext s
        rw [← lookup_extension_append e₁, hlookup, lookup_extension_append]
      rw [ih hbranch₂ hchild]
  | @branch children₁ value₁ hchildren₁ hone₁ htwo₁ ih =>
    have hbranch₁ : TrieNode.Canonical (.branch children₁ value₁) := .branch hchildren₁ hone₁ htwo₁
    cases h₂ with
    | leaf => cases hbranch₁.eq_leaf_of_lookup_eq hlookup
    | extension hext₂ _ => exact absurd hlookup (hbranch₁.lookup_branch_ne_extension hext₂ _)
    | @branch children₂ value₂ hchildren₂ hone₂ htwo₂ =>
      have hvalue : value₁ = value₂ := congrFun hlookup []
      have hchildren : children₁ = children₂ := by
        funext i
        have hchild : lookup (children₁ i) = lookup (children₂ i) := by
          funext k
          exact congrFun hlookup (i :: k)
        -- a present child holds a key, so a child is absent on both sides or on neither
        by_cases hi₁ : children₁ i = .empty
        · by_contra hne
          rw [hi₁] at hne hchild
          obtain ⟨k, v, hk⟩ := (hchildren₂ i (Ne.symm hne)).exists_lookup
          rw [← hchild] at hk
          cases hk
        · by_cases hi₂ : children₂ i = .empty
          · obtain ⟨k, v, hk⟩ := (hchildren₁ i hi₁).exists_lookup
            rw [hchild, hi₂] at hk
            cases hk
          · exact ih i hi₁ (hchildren₂ i hi₂) hchild
      rw [hvalue, hchildren]

/-- Tries that hold the same map are equal. -/
theorem CanonicalTrie.eq_of_lookup_eq {t₁ t₂ : TrieNode V} (h₁ : CanonicalTrie t₁)
    (h₂ : CanonicalTrie t₂) (hlookup : lookup t₁ = lookup t₂) : t₁ = t₂ := by
  rcases h₁ with rfl | h₁ <;> rcases h₂ with rfl | h₂
  · rfl
  · obtain ⟨k, v, hk⟩ := h₂.exists_lookup
    rw [← hlookup] at hk
    cases hk
  · obtain ⟨k, v, hk⟩ := h₁.exists_lookup
    rw [hlookup] at hk
    cases hk
  · exact h₁.eq_of_lookup_eq h₂ hlookup

/-! ## Tries built by updates -/

/-- The tries that batches of changes build from the empty trie, through the in-memory path of
`Trie::update` or the on-disk one. -/
inductive Reachable : TrieNode V → Prop
  | empty : Reachable .empty
  | memTrieUpdate {root root' : TrieNode V} (changes : List (List UInt8 × Option V)) :
    Reachable root → MemTrieUpdate.applyChanges root changes = some root' → Reachable root'
  | trieUpdate {root root' : TrieNode V} (changes : List (List UInt8 × Option V)) :
    Reachable root → Trie.update root changes = some root' → Reachable root'

/-- Every key a trie holds is the nibbles of a byte string. -/
def KeysFromBytes (m : List Nibble → Option V) : Prop :=
  ∀ q, m q ≠ none → ∃ key, q = toNibbles key

theorem KeysFromBytes.updateMap {m : List Nibble → Option V} (hm : KeysFromBytes m)
    (changes : List (List UInt8 × Option V)) :
    KeysFromBytes (MemTrieUpdate.updateMap m changes) := by
  induction changes generalizing m with
  | nil => exact hm
  | cons change changes ih =>
    rw [MemTrieUpdate.updateMap_cons]
    refine ih fun q hq => ?_
    by_cases hkey : q = toNibbles change.1
    · exact ⟨change.1, hkey⟩
    · rw [Function.update_of_ne hkey] at hq
      exact hm q hq

/-- The tries built by updates are canonical and hold keys of bytes only. -/
theorem Reachable.canonical {root : TrieNode V} (h : Reachable root) :
    CanonicalTrie root ∧ KeysFromBytes (lookup root) := by
  induction h with
  | empty => exact ⟨.empty, fun q hq => absurd rfl hq⟩
  | memTrieUpdate changes _ hupdate ih =>
    obtain ⟨root', h', hcan', hlookup'⟩ := MemTrieUpdate.applyChanges_spec ih.1 changes
    rw [hupdate, Option.some.injEq] at h'
    subst h'
    exact ⟨hcan', hlookup' ▸ ih.2.updateMap changes⟩
  | trieUpdate changes _ hupdate ih =>
    obtain ⟨root', h', hcan', hlookup'⟩ := MemTrieUpdate.applyChanges_spec ih.1 changes
    rw [← Trie.update_eq ih.1, hupdate, Option.some.injEq] at h'
    subst h'
    exact ⟨hcan', hlookup' ▸ ih.2.updateMap changes⟩

/-! ## A batch of changes, key by key -/

/-- The value the last change to `key` in a batch sets (`none` for a delete), if a change
mentions the key. -/
def lastChange (changes : List (List UInt8 × Option V)) (key : List UInt8) : Option (Option V) :=
  (changes.reverse.find? fun change => change.1 = key).map Prod.snd

theorem lastChange_cons (change : List UInt8 × Option V) (changes : List (List UInt8 × Option V))
    (key : List UInt8) :
    lastChange (change :: changes) key =
      (lastChange changes key).or (if change.1 = key then some change.2 else none) := by
  by_cases hkey : change.1 = key <;> simp [lastChange, List.find?_append, hkey]

/-- A batch of changes sets each key to its last change, and leaves the keys no change
mentions. -/
theorem updateMap_apply (m : List Nibble → Option V) (changes : List (List UInt8 × Option V))
    (key : List UInt8) :
    MemTrieUpdate.updateMap m changes (toNibbles key) =
      (lastChange changes key).getD (m (toNibbles key)) := by
  induction changes generalizing m with
  | nil => rfl
  | cons change changes ih =>
    rw [MemTrieUpdate.updateMap_cons, ih, lastChange_cons]
    cases lastChange changes key with
    | some x => rfl
    | none =>
      by_cases hkey : change.1 = key
      · subst hkey
        simp
      · have hne : toNibbles key ≠ toNibbles change.1 :=
          fun h => hkey (toNibbles_injective h).symm
        simp [Function.update_of_ne hne, hkey]

/-- **A lookup after an update**: on a reachable trie, the update of a batch of changes,
through the in-memory trie and through the on-disk trie, does not panic, and both lookups
return for each key the value of its last change, or the old value if no change mentions
it. -/
theorem trie_update_lookup {root : TrieNode V} (hroot : Reachable root)
    (changes : List (List UInt8 × Option V)) :
    (∃ root', MemTrieUpdate.applyChanges root changes = some root' ∧ ∀ key,
      memtrieLookup root' key = (lastChange changes key).getD (memtrieLookup root key) ∧
      lookupFromStateColumn root' (toNibbles key) =
        (lastChange changes key).getD (lookupFromStateColumn root (toNibbles key))) ∧
    (∃ root', Trie.update root changes = some root' ∧ ∀ key,
      memtrieLookup root' key = (lastChange changes key).getD (memtrieLookup root key) ∧
      lookupFromStateColumn root' (toNibbles key) =
        (lastChange changes key).getD (lookupFromStateColumn root (toNibbles key))) := by
  obtain ⟨hcan, -⟩ := hroot.canonical
  obtain ⟨root', hupdate, -, hlookup⟩ := MemTrieUpdate.applyChanges_spec hcan changes
  have hkeys : ∀ key,
      memtrieLookup root' key = (lastChange changes key).getD (memtrieLookup root key) ∧
      lookupFromStateColumn root' (toNibbles key) =
        (lastChange changes key).getD (lookupFromStateColumn root (toNibbles key)) := by
    intro key
    have hkey : lookup root' (toNibbles key) =
        (lastChange changes key).getD (lookup root (toNibbles key)) := by
      rw [hlookup, updateMap_apply]
    exact ⟨hkey, hkey⟩
  exact ⟨⟨root', hupdate, hkeys⟩, ⟨root', by rw [Trie.update_eq hcan, hupdate], hkeys⟩⟩

theorem trie_update_lookup_empty :
    Reachable (.empty : TrieNode Nat) ∧
    ((∃ root', MemTrieUpdate.applyChanges .empty [([1], some 5), ([1, 2], some 6), ([1], none)] =
        some root' ∧ ∀ key,
      memtrieLookup root' key =
        (lastChange [([1], some 5), ([1, 2], some 6), ([1], none)] key).getD
          (memtrieLookup .empty key) ∧
      lookupFromStateColumn root' (toNibbles key) =
        (lastChange [([1], some 5), ([1, 2], some 6), ([1], none)] key).getD
          (lookupFromStateColumn .empty (toNibbles key))) ∧
    (∃ root', Trie.update .empty [([1], some 5), ([1, 2], some 6), ([1], none)] = some root' ∧
      ∀ key,
      memtrieLookup root' key =
        (lastChange [([1], some 5), ([1, 2], some 6), ([1], none)] key).getD
          (memtrieLookup .empty key) ∧
      lookupFromStateColumn root' (toNibbles key) =
        (lastChange [([1], some 5), ([1, 2], some 6), ([1], none)] key).getD
          (lookupFromStateColumn .empty (toNibbles key)))) :=
  ⟨.empty, trie_update_lookup .empty [([1], some 5), ([1, 2], some 6), ([1], none)]⟩

/-! ## The state root -/

/-- The state root of a trie: `Trie::EMPTY_ROOT`, the default hash, for the empty trie, and
the hash of the root node otherwise, `nodeHash` standing for the hash of its serialization. -/
def stateRoot {H : Type} [Inhabited H] (nodeHash : TrieNode V → H) : TrieNode V → H
  | .empty => default
  | root => nodeHash root

/-- **Reachable tries are canonical, and their root depends on their map alone**: every trie
built by updates from the empty trie is canonical, no later batch of changes panics on it
through either path, two such tries that hold the same map have the same state root, and one
that holds nothing has the default hash as its root. -/
theorem reachable_trie_canonical {H : Type} [Inhabited H] (nodeHash : TrieNode V → H) :
    (∀ root : TrieNode V, Reachable root → CanonicalTrie root ∧
      ∀ changes, (MemTrieUpdate.applyChanges root changes).isSome ∧
        (Trie.update root changes).isSome) ∧
    (∀ root₁ root₂ : TrieNode V, Reachable root₁ → Reachable root₂ →
      (∀ key, memtrieLookup root₁ key = memtrieLookup root₂ key) →
        stateRoot nodeHash root₁ = stateRoot nodeHash root₂) ∧
    (∀ root : TrieNode V, Reachable root → (∀ key, memtrieLookup root key = none) →
      stateRoot nodeHash root = default) := by
  -- the nibble keys a reachable trie holds are those of byte keys
  have hmap : ∀ root₁ root₂ : TrieNode V, Reachable root₁ → Reachable root₂ →
      (∀ key, memtrieLookup root₁ key = memtrieLookup root₂ key) → root₁ = root₂ := by
    intro root₁ root₂ h₁ h₂ hkeys
    obtain ⟨hcan₁, hbytes₁⟩ := h₁.canonical
    obtain ⟨hcan₂, hbytes₂⟩ := h₂.canonical
    refine hcan₁.eq_of_lookup_eq hcan₂ (funext fun q => ?_)
    by_cases hq : ∃ key, q = toNibbles key
    · obtain ⟨key, rfl⟩ := hq
      exact hkeys key
    · have hnone₁ : lookup root₁ q = none := by
        by_contra hne
        exact hq (hbytes₁ q hne)
      have hnone₂ : lookup root₂ q = none := by
        by_contra hne
        exact hq (hbytes₂ q hne)
      rw [hnone₁, hnone₂]
  refine ⟨fun root h => ⟨h.canonical.1, fun changes => ?_⟩,
    fun root₁ root₂ h₁ h₂ hkeys => by rw [hmap root₁ root₂ h₁ h₂ hkeys], fun root h hnone => ?_⟩
  · obtain ⟨root', hupdate, -⟩ := MemTrieUpdate.applyChanges_spec h.canonical.1 changes
    rw [Trie.update_eq h.canonical.1, hupdate]
    exact ⟨rfl, rfl⟩
  · rw [hmap root .empty h .empty hnone]
    rfl

/-- A trie built by one batch from the empty trie, two keys under one byte and one below the
first: it is canonical, and no later batch panics on it. -/
theorem reachable_trie_canonical_built : ∃ root : TrieNode Nat,
    MemTrieUpdate.applyChanges .empty [([0x12], some 7), ([0x13], some 8), ([0x12, 0x34], some 9)] =
      some root ∧ memtrieLookup root [0x12, 0x34] = some 9 ∧
    CanonicalTrie root ∧ ∀ changes, (MemTrieUpdate.applyChanges root changes).isSome ∧
      (Trie.update root changes).isSome := by
  obtain ⟨root, hroot, -, hlookup⟩ := MemTrieUpdate.applyChanges_spec CanonicalTrie.empty
    [([0x12], some 7), ([0x13], some 8), ([0x12, 0x34], some (9 : Nat))]
  have hlook : memtrieLookup root [0x12, 0x34] = some 9 := by
    rw [memtrieLookup, hlookup, updateMap_apply]
    rfl
  exact ⟨root, hroot, hlook,
    (reachable_trie_canonical fun _ : TrieNode Nat => (0 : Nat)).1 root
      (.memTrieUpdate _ .empty hroot)⟩

end Unc
