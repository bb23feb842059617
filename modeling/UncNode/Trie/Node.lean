import Mathlib
import UncNode.Lib.CommonPrefix

/-!
# Trie nodes and lookup — `core/store/src/trie`

The state trie is a radix-16 Patricia trie over the nibbles of the keys. A node is empty (the
root of an empty trie, or a removed node), a leaf holding the rest of a key and a value, an
extension holding a run of nibbles shared by all keys below it, or a branch with sixteen
optional children and an optional value. Both node types of the source, `TrieNode` of the
on-disk trie and `UpdatedMemTrieNode` of the in-memory trie, have these four kinds, and their
lookups, `memtrie_lookup` and `Trie::lookup_from_state_column`, walk them the same way.

A child that is absent is the empty node here, so that a branch is a function from nibbles to
nodes. Keys are byte strings, read as nibbles by `NibbleSlice::new` (`toNibbles`), high nibble
first; node keys are nibble lists, as `NibbleSlice::from_encoded` gives them.

* `lookup`, with one lemma per kind of node;
* `toNibbles_injective`;
* `Canonical`: the shape every node of a trie built by updates has (an extension has a
  non-empty key and a branch below it; a branch has a child, and two if it has no value);
* `Canonical.exists_lookup`: a canonical node holds a key.
-/

set_option autoImplicit false

namespace Unc

open ListPrefix

/-- A nibble, one hexadecimal digit of a key. -/
abbrev Nibble := Fin 16

/-- `TrieNode` (and `UpdatedMemTrieNode`): a child handle is the child itself. -/
inductive TrieNode (V : Type) where
  | empty
  | leaf (extension : List Nibble) (value : V)
  | extension (extension : List Nibble) (child : TrieNode V)
  | branch (children : Nibble → TrieNode V) (value : Option V)

variable {V : Type}

instance : Inhabited (TrieNode V) := ⟨.empty⟩

/-- `matches!(node, TrieNode::Empty)`, and a child that is `None`. -/
def TrieNode.isEmpty : TrieNode V → Bool
  | .empty => true
  | _ => false

@[simp] theorem TrieNode.isEmpty_iff {t : TrieNode V} : t.isEmpty = true ↔ t = .empty := by
  cases t <;> simp [TrieNode.isEmpty]

@[simp] theorem TrieNode.isEmpty_eq_false {t : TrieNode V} : t.isEmpty = false ↔ t ≠ .empty := by
  cases t <;> simp [TrieNode.isEmpty]

/-- `Box::<[_; 16]>::default()`: a branch with no child. -/
def noChildren : Nibble → TrieNode V := fun _ => .empty

@[simp] theorem noChildren_apply (i : Nibble) : (noChildren i : TrieNode V) = .empty := rfl

/-- The nibbles of the present children in order, as `Children::iter` visits them. -/
def childIndices (children : Nibble → TrieNode V) : List Nibble :=
  (List.finRange 16).filter fun i => !(children i).isEmpty

theorem mem_childIndices {children : Nibble → TrieNode V} {i : Nibble} :
    i ∈ childIndices children ↔ children i ≠ .empty := by
  simp [childIndices, List.mem_filter, List.mem_finRange]

theorem childIndices_nodup (children : Nibble → TrieNode V) : (childIndices children).Nodup :=
  (List.nodup_finRange 16).filter _

theorem childIndices_eq_nil {children : Nibble → TrieNode V} :
    childIndices children = [] ↔ ∀ i, children i = .empty := by
  rw [List.eq_nil_iff_forall_not_mem]
  simp [mem_childIndices]

theorem childIndices_eq_singleton {children : Nibble → TrieNode V} {idx : Nibble}
    (h : childIndices children = [idx]) :
    children idx ≠ .empty ∧ ∀ j, j ≠ idx → children j = .empty := by
  refine ⟨mem_childIndices.mp (h ▸ List.mem_singleton_self idx), fun j hj => ?_⟩
  by_contra hne
  have hmem := mem_childIndices.mpr hne
  rw [h, List.mem_singleton] at hmem
  exact hj hmem

/-- A list of children's nibbles with two entries or more names two different children. -/
theorem two_children_of_childIndices {children : Nibble → TrieNode V} {i j : Nibble}
    {rest : List Nibble} (h : childIndices children = i :: j :: rest) :
    i ≠ j ∧ children i ≠ .empty ∧ children j ≠ .empty := by
  have hnodup := childIndices_nodup children
  rw [h] at hnodup
  refine ⟨fun hij => ?_, mem_childIndices.mp (by simp [h]), mem_childIndices.mp (by simp [h])⟩
  subst hij
  simp at hnodup

/-- `memtrie_lookup` and `Trie::lookup_from_state_column`: a leaf answers for its exact key,
an extension passes a key that starts with its nibbles on to its child, and a branch answers
for the empty key with its value and passes the rest to the child of the first nibble. -/
def lookup : TrieNode V → List Nibble → Option V
  | .empty, _ => none
  | .leaf extension value, key => if key = extension then some value else none
  | .extension extension child, key =>
    if commonPrefix key extension = extension.length then
      lookup child (key.drop extension.length)
    else none
  | .branch _ value, [] => value
  | .branch children _, idx :: key => lookup (children idx) key

@[simp] theorem lookup_empty (key : List Nibble) : lookup (.empty : TrieNode V) key = none := rfl

theorem lookup_leaf (extension : List Nibble) (value : V) (key : List Nibble) :
    lookup (.leaf extension value) key = if key = extension then some value else none := rfl

theorem lookup_extension (extension : List Nibble) (child : TrieNode V) (key : List Nibble) :
    lookup (.extension extension child) key =
      if extension <+: key then lookup child (key.drop extension.length) else none := by
  simp only [lookup, commonPrefix_eq_length_right_iff]

@[simp] theorem lookup_branch_nil (children : Nibble → TrieNode V) (value : Option V) :
    lookup (.branch children value) [] = value := rfl

@[simp] theorem lookup_branch_cons (children : Nibble → TrieNode V) (value : Option V)
    (idx : Nibble) (key : List Nibble) :
    lookup (.branch children value) (idx :: key) = lookup (children idx) key := rfl

/-! ## Extensions shift keys -/

theorem lookup_extension_append (extension : List Nibble) (child : TrieNode V)
    (key : List Nibble) : lookup (.extension extension child) (extension ++ key) =
      lookup child key := by
  simp [lookup_extension]

theorem lookup_extension_of_not_isPrefix {extension key : List Nibble} (child : TrieNode V)
    (h : ¬ extension <+: key) : lookup (.extension extension child) key = none := by
  simp [lookup_extension, h]

theorem lookup_leaf_append (pre extension : List Nibble) (value : V) (key : List Nibble) :
    lookup (.leaf (pre ++ extension) value) (pre ++ key) = lookup (.leaf extension value) key := by
  simp [lookup_leaf]

theorem lookup_leaf_of_not_isPrefix {pre key : List Nibble} (extension : List Nibble) (value : V)
    (h : ¬ pre <+: key) : lookup (.leaf (pre ++ extension) value) key = none := by
  rw [lookup_leaf, if_neg]
  rintro rfl
  exact h (List.prefix_append pre extension)

theorem lookup_extension_append_append (pre extension : List Nibble) (child : TrieNode V)
    (key : List Nibble) : lookup (.extension (pre ++ extension) child) (pre ++ key) =
      lookup (.extension extension child) key := by
  simp [lookup_extension, List.prefix_append_right_inj]

theorem lookup_extension_extension (pre extension : List Nibble) (child : TrieNode V) :
    lookup (.extension pre (.extension extension child)) =
      lookup (.extension (pre ++ extension) child) := by
  funext key
  by_cases hpre : pre <+: key
  · obtain ⟨key, rfl⟩ := hpre
    rw [lookup_extension_append, lookup_extension_append_append]
  · rw [lookup_extension_of_not_isPrefix _ hpre, lookup_extension_of_not_isPrefix]
    exact fun h => hpre ((List.prefix_append pre extension).trans h)

theorem lookup_extension_leaf (pre extension : List Nibble) (value : V) :
    lookup (.extension pre (.leaf extension value)) = lookup (.leaf (pre ++ extension) value) := by
  funext key
  by_cases hpre : pre <+: key
  · obtain ⟨key, rfl⟩ := hpre
    rw [lookup_extension_append, lookup_leaf_append]
  · rw [lookup_extension_of_not_isPrefix _ hpre, lookup_leaf_of_not_isPrefix _ _ hpre]

/-- The lookup of an extension is a map `m` when `m` holds only keys that start with the
extension's nibbles and the child holds the rest of them. -/
theorem lookup_extension_eq {pre : List Nibble} {child : TrieNode V}
    {m : List Nibble → Option V} (hchild : ∀ key, lookup child key = m (pre ++ key))
    (hout : ∀ key, ¬ pre <+: key → m key = none) :
    lookup (.extension pre child) = m := by
  funext key
  by_cases hpre : pre <+: key
  · obtain ⟨key, rfl⟩ := hpre
    rw [lookup_extension_append, hchild]
  · rw [lookup_extension_of_not_isPrefix _ hpre, hout key hpre]

/-! ## Canonical nodes -/

/-- A node of the shape that updates keep (`squash_nodes` says why the shape is unique): an
extension has a non-empty key and a branch child, and a branch has a child, two if it has no
value; the empty node is only a whole empty trie, or an absent child. -/
inductive TrieNode.Canonical : TrieNode V → Prop
  | leaf (extension : List Nibble) (value : V) : TrieNode.Canonical (.leaf extension value)
  | extension {extension : List Nibble} {children : Nibble → TrieNode V} {value : Option V} :
    extension ≠ [] → TrieNode.Canonical (.branch children value) →
      TrieNode.Canonical (.extension extension (.branch children value))
  | branch {children : Nibble → TrieNode V} {value : Option V} :
    (∀ i, children i ≠ .empty → TrieNode.Canonical (children i)) → (∃ i, children i ≠ .empty) →
      (value = none → ∃ i j, i ≠ j ∧ children i ≠ .empty ∧ children j ≠ .empty) →
      TrieNode.Canonical (.branch children value)

/-- The root of a trie: empty, or a canonical node. -/
def CanonicalTrie (t : TrieNode V) : Prop := t = .empty ∨ TrieNode.Canonical t

theorem TrieNode.Canonical.ne_empty {t : TrieNode V} (h : TrieNode.Canonical t) : t ≠ .empty := by
  cases h <;> simp

/-- A canonical node holds a key. -/
theorem TrieNode.Canonical.exists_lookup {t : TrieNode V} (h : TrieNode.Canonical t) :
    ∃ key value, lookup t key = some value := by
  induction h with
  | leaf extension value => exact ⟨extension, value, by simp [lookup_leaf]⟩
  | @extension extension children value _ _ ih =>
    obtain ⟨key, v, hkey⟩ := ih
    exact ⟨extension ++ key, v, by rw [lookup_extension_append, hkey]⟩
  | @branch children value _ hone _ ih =>
    obtain ⟨i, hi⟩ := hone
    obtain ⟨key, v, hkey⟩ := ih i hi
    exact ⟨i :: key, v, hkey⟩

theorem CanonicalTrie.empty : CanonicalTrie (.empty : TrieNode V) := .inl rfl

/-! ## Building canonical branches -/

theorem canonical_branch_one {idx : Nibble} {c : TrieNode V} (hc : TrieNode.Canonical c)
    (value : V) :
    TrieNode.Canonical (.branch (Function.update noChildren idx c) (some value)) := by
  refine .branch (fun i hi => ?_) ⟨idx, by simpa using hc.ne_empty⟩ (fun h => by cases h)
  by_cases hidx : i = idx
  · subst hidx
    simpa using hc
  · simp [hidx, noChildren_apply] at hi

theorem canonical_branch_two {i j : Nibble} (hij : i ≠ j) {a b : TrieNode V}
    (ha : TrieNode.Canonical a) (hb : TrieNode.Canonical b) :
    TrieNode.Canonical (.branch (Function.update (Function.update noChildren i a) j b) none) := by
  refine .branch (fun k hk => ?_) ⟨j, by simpa using hb.ne_empty⟩
    (fun _ => ⟨i, j, hij, by simpa [Function.update_apply, hij] using ha.ne_empty,
      by simpa using hb.ne_empty⟩)
  by_cases hkj : k = j
  · subst hkj
    simpa using hb
  · by_cases hki : k = i
    · subst hki
      simpa [Function.update_apply, hkj] using ha
    · simp [hkj, hki, noChildren_apply] at hk

/-- A canonical branch stays canonical when a child is replaced by a canonical node. -/
theorem TrieNode.Canonical.branch_update {children : Nibble → TrieNode V} {value : Option V}
    (h : TrieNode.Canonical (.branch children value)) (idx : Nibble) {c : TrieNode V}
    (hc : TrieNode.Canonical c) :
    TrieNode.Canonical (.branch (Function.update children idx c) value) := by
  cases h with
  | branch hchildren hone htwo =>
    -- a child present before is present after
    have hkeep : ∀ i, children i ≠ .empty → Function.update children idx c i ≠ .empty := by
      intro i hi
      by_cases hidx : i = idx
      · subst hidx
        simpa using hc.ne_empty
      · simpa [Function.update_apply, hidx] using hi
    refine .branch (fun i hi => ?_) ?_ ?_
    · by_cases hidx : i = idx
      · subst hidx
        simpa using hc
      · simp only [Function.update_apply, hidx, if_false] at hi ⊢
        exact hchildren i hi
    · obtain ⟨i, hi⟩ := hone
      exact ⟨i, hkeep i hi⟩
    · intro hv
      obtain ⟨i, j, hij, hi, hj⟩ := htwo hv
      exact ⟨i, j, hij, hkeep i hi, hkeep j hj⟩

/-! ## Byte keys as nibbles -/

theorem toNat_div_sixteen_lt (b : UInt8) : b.toNat / 16 < 16 := by
  have := b.toNat_lt
  omega

theorem toNat_mod_sixteen_lt (b : UInt8) : b.toNat % 16 < 16 := Nat.mod_lt _ (by decide)

/-- `NibbleSlice::new(key)`: each byte gives its high nibble, then its low nibble. -/
def toNibbles : List UInt8 → List Nibble
  | [] => []
  | b :: bs =>
    ⟨b.toNat / 16, toNat_div_sixteen_lt b⟩ :: ⟨b.toNat % 16, toNat_mod_sixteen_lt b⟩ ::
      toNibbles bs

theorem toNibbles_injective : Function.Injective toNibbles := by
  intro xs
  induction xs with
  | nil => intro ys h; cases ys <;> simp_all [toNibbles]
  | cons a xs ih =>
    intro ys h
    cases ys with
    | nil => simp [toNibbles] at h
    | cons b ys =>
      simp only [toNibbles, List.cons.injEq, Fin.mk.injEq] at h
      obtain ⟨hhi, hlo, hrest⟩ := h
      have hab : a.toNat = b.toNat := by omega
      rw [UInt8.toNat_inj.mp hab, ih hrest]

/-- `memtrie_lookup` on a byte key. -/
def memtrieLookup (root : TrieNode V) (key : List UInt8) : Option V :=
  lookup root (toNibbles key)

/-- `Trie::lookup_from_state_column` on a nibble key. -/
def lookupFromStateColumn (root : TrieNode V) (key : List Nibble) : Option V :=
  lookup root key

end Unc
