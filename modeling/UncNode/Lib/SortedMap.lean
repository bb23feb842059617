import Mathlib

/-!
# Ordered maps as sorted entry lists

A `SortedMap κ α` is the list of entries of an ordered map (a search tree such as a B-tree map),
its keys strictly increasing. Lookup is `List.lookup`, which on such a list finds the one entry
of a key.

* `insertEntry` puts an entry in its place or replaces the entry of its key
  (`lookup_insertEntry`, `keysSorted_insertEntry`), and `eraseEntry` drops it; up to order, an
  insertion is the new entry in front of the erased list (`perm_insertEntry`), and a list with an
  entry of `k` is that entry in front of the erased list (`perm_eraseEntry`), which is how sums
  and unions over all entries are tracked through both;
* a filter on keys, which is what a range of the map is, keeps the order and reads as the map
  restricted to the keys (`lookup_filter_key`);
* `lookup_eq_none_of_lt` and `lookup_cons_of_lt`: a key below the first key is absent, which is
  what a merge of two such lists needs at each step;
* `eq_of_mem_iff`: such a list is determined by its entries.
-/

namespace SortedMap

variable {κ α β : Type*} [LinearOrder κ]

/-- The keys of `l` strictly increase. -/
def KeysSorted (l : List (κ × α)) : Prop :=
  l.Pairwise fun a b => a.1 < b.1

/-- `insert` on entry lists: the entry of `k` replaced, or a new one put in its place. -/
def insertEntry (k : κ) (v : α) : List (κ × α) → List (κ × α)
  | [] => [(k, v)]
  | e :: l =>
    if k < e.1 then (k, v) :: e :: l
    else if k = e.1 then (k, v) :: l
    else e :: insertEntry k v l

/-- `remove` on entry lists: the entry of `k` dropped. -/
def eraseEntry (k : κ) (l : List (κ × α)) : List (κ × α) :=
  l.filter fun e => e.1 ≠ k

section Lists

variable {l : List (κ × α)} {k k' : κ} {v : α}

@[simp] theorem keysSorted_nil : KeysSorted ([] : List (κ × α)) := List.Pairwise.nil

theorem keysSorted_cons {e : κ × α} :
    KeysSorted (e :: l) ↔ (∀ e' ∈ l, e.1 < e'.1) ∧ KeysSorted l :=
  List.pairwise_cons

theorem lookup_eq_none_of_lt (h : ∀ e ∈ l, k < e.1) : l.lookup k = none :=
  List.lookup_eq_none_iff.mpr fun e he => by simpa using (h e he).ne

/-- Below the first key of a sorted list no key is found. -/
theorem lookup_cons_of_lt {e : κ × α} (hs : KeysSorted (e :: l)) (hk : k < e.1) :
    (e :: l).lookup k = none :=
  lookup_eq_none_of_lt fun e' he' => by
    rcases List.mem_cons.mp he' with rfl | he'
    · exact hk
    · exact hk.trans ((keysSorted_cons.mp hs).1 e' he')

theorem lookup_cons_self {e : κ × α} : (e :: l).lookup e.1 = some e.2 := by
  cases e
  exact List.lookup_cons_self

theorem lookup_cons_of_ne {e : κ × α} (h : k ≠ e.1) : (e :: l).lookup k = l.lookup k := by
  obtain ⟨k₀, v₀⟩ := e
  rw [List.lookup_cons, beq_false_of_ne h]

theorem mem_insertEntry {e : κ × α} (he : e ∈ insertEntry k v l) : e = (k, v) ∨ e ∈ l := by
  induction l with
  | nil => simpa [insertEntry] using he
  | cons e' l ih =>
    simp only [insertEntry] at he
    split_ifs at he with hlt heq
    · simpa using he
    · rcases List.mem_cons.mp he with h | h
      · exact Or.inl h
      · exact Or.inr (List.mem_cons_of_mem e' h)
    · rcases List.mem_cons.mp he with h | h
      · exact Or.inr (h ▸ List.mem_cons_self)
      · rcases ih h with h | h
        · exact Or.inl h
        · exact Or.inr (List.mem_cons_of_mem e' h)

theorem lookup_insertEntry :
    (insertEntry k v l).lookup k' = if k' = k then some v else l.lookup k' := by
  induction l with
  | nil => by_cases h : k' = k <;> simp [insertEntry, h]
  | cons e l ih =>
    simp only [insertEntry]
    by_cases h : k' = k
    · subst h
      rw [if_pos rfl]
      split_ifs with hlt heq
      · exact List.lookup_cons_self
      · exact List.lookup_cons_self
      · rw [lookup_cons_of_ne heq, ih, if_pos rfl]
    · rw [if_neg h]
      split_ifs with hlt heq
      · rw [lookup_cons_of_ne h]
      · rw [lookup_cons_of_ne h, lookup_cons_of_ne (heq ▸ h)]
      · by_cases he : k' = e.1
        · subst he
          rw [lookup_cons_self, lookup_cons_self]
        · rw [lookup_cons_of_ne he, lookup_cons_of_ne he, ih, if_neg h]

theorem keysSorted_insertEntry (hs : KeysSorted l) : KeysSorted (insertEntry k v l) := by
  induction l with
  | nil => simp [insertEntry, KeysSorted]
  | cons e l ih =>
    obtain ⟨hlow, hl⟩ := keysSorted_cons.mp hs
    simp only [insertEntry]
    split_ifs with hlt heq
    · refine keysSorted_cons.mpr ⟨fun e' he' => ?_, hs⟩
      rcases List.mem_cons.mp he' with rfl | he'
      · exact hlt
      · exact hlt.trans (hlow e' he')
    · subst heq
      exact keysSorted_cons.mpr ⟨hlow, hl⟩
    · have hgt : e.1 < k := lt_of_le_of_ne (not_lt.mp hlt) (Ne.symm heq)
      refine keysSorted_cons.mpr ⟨fun e' he' => ?_, ih hl⟩
      rcases mem_insertEntry he' with rfl | he'
      · exact hgt
      · exact hlow e' he'

theorem keysSorted_filter (p : κ × α → Bool) (hs : KeysSorted l) : KeysSorted (l.filter p) :=
  List.Pairwise.filter p hs

theorem keysSorted_map_snd (f : α → β) (hs : KeysSorted l) :
    KeysSorted (l.map fun e => (e.1, f e.2)) :=
  List.pairwise_map.mpr hs

/-- A filter on keys reads as the map restricted to the keys it keeps. -/
theorem lookup_filter_key (p : κ → Bool) :
    (l.filter fun e => p e.1).lookup k = if p k then l.lookup k else none := by
  induction l with
  | nil => simp
  | cons e l ih =>
    by_cases he : k = e.1
    · subst he
      by_cases hp : p e.1 <;> simp [hp, lookup_cons_self, ih]
    · by_cases hp : p e.1 <;> simp [hp, lookup_cons_of_ne he, ih]

theorem keysSorted_eraseEntry (hs : KeysSorted l) : KeysSorted (eraseEntry k l) :=
  keysSorted_filter _ hs

theorem lookup_eraseEntry :
    (eraseEntry k l).lookup k' = if k' = k then none else l.lookup k' := by
  have h := lookup_filter_key (l := l) (k := k') fun k'' => decide (k'' ≠ k)
  by_cases hk : k' = k <;> simpa [eraseEntry, hk] using h

theorem eraseEntry_eq_self (h : ∀ e ∈ l, e.1 ≠ k) : eraseEntry k l = l :=
  List.filter_eq_self.mpr fun e he => by simpa using h e he

theorem perm_insertEntry (hs : KeysSorted l) :
    (insertEntry k v l).Perm ((k, v) :: eraseEntry k l) := by
  induction l with
  | nil => simp [insertEntry, eraseEntry]
  | cons e l ih =>
    obtain ⟨hlow, hl⟩ := keysSorted_cons.mp hs
    simp only [insertEntry]
    split_ifs with hlt heq
    · -- every key of `e :: l` is above `k`
      have hself : eraseEntry k (e :: l) = e :: l := eraseEntry_eq_self fun e' he' => by
        rcases List.mem_cons.mp he' with rfl | he'
        · exact hlt.ne'
        · exact (hlt.trans (hlow e' he')).ne'
      rw [hself]
    · subst heq
      rw [eraseEntry, List.filter_cons_of_neg (by simp), ← eraseEntry,
        eraseEntry_eq_self fun e' he' => (hlow e' he').ne']
    · rw [eraseEntry, List.filter_cons_of_pos (by simpa using Ne.symm heq), ← eraseEntry]
      exact ((ih hl).cons e).trans (List.Perm.swap _ _ _)

theorem perm_eraseEntry (hs : KeysSorted l) (h : l.lookup k = some v) :
    l.Perm ((k, v) :: eraseEntry k l) := by
  induction l with
  | nil => simp at h
  | cons e l ih =>
    obtain ⟨hlow, hl⟩ := keysSorted_cons.mp hs
    by_cases he : k = e.1
    · subst he
      rw [lookup_cons_self, Option.some_inj] at h
      subst h
      rw [eraseEntry, List.filter_cons_of_neg (by simp), ← eraseEntry,
        eraseEntry_eq_self fun e' he' => (hlow e' he').ne']
    · rw [lookup_cons_of_ne he] at h
      rw [eraseEntry, List.filter_cons_of_pos (by simpa using Ne.symm he), ← eraseEntry]
      exact ((ih hl h).cons e).trans (List.Perm.swap _ _ _)

/-- Two sorted entry lists with the same entries are the same list. -/
theorem eq_of_mem_iff {l₁ l₂ : List (κ × α)} (h₁ : KeysSorted l₁) (h₂ : KeysSorted l₂)
    (h : ∀ e, e ∈ l₁ ↔ e ∈ l₂) : l₁ = l₂ := by
  have : Std.Irrefl fun a b : κ × α => a.1 < b.1 := ⟨fun a => lt_irrefl a.1⟩
  have : Std.Antisymm fun a b : κ × α => a.1 < b.1 :=
    ⟨fun _ _ hab hba => absurd (hab.trans hba) (lt_irrefl _)⟩
  exact List.Pairwise.eq_of_mem_iff h₁ h₂ h

theorem lookup_map_snd (f : α → β) :
    (l.map fun e => (e.1, f e.2)).lookup k = (l.lookup k).map f := by
  induction l with
  | nil => rfl
  | cons e l ih =>
    by_cases he : k = e.1
    · subst he
      simp [lookup_cons_self]
    · rw [List.map_cons, lookup_cons_of_ne (show k ≠ (e.1, f e.2).1 from he), ih,
        lookup_cons_of_ne he]

end Lists

end SortedMap

/-- An ordered map: its entries with strictly increasing keys. -/
structure SortedMap (κ α : Type*) [LinearOrder κ] where
  entries : List (κ × α)
  sorted : SortedMap.KeysSorted entries

namespace SortedMap

variable {κ α : Type*} [LinearOrder κ]

/-- The map with no entries. -/
def empty : SortedMap κ α := ⟨[], keysSorted_nil⟩

/-- The value at `k`. -/
def get (m : SortedMap κ α) (k : κ) : Option α := m.entries.lookup k

/-- `insert`: `k` now maps to `v`. -/
def insert (m : SortedMap κ α) (k : κ) (v : α) : SortedMap κ α :=
  ⟨insertEntry k v m.entries, keysSorted_insertEntry m.sorted⟩

/-- `remove`: `k` no longer maps to anything. -/
def erase (m : SortedMap κ α) (k : κ) : SortedMap κ α :=
  ⟨eraseEntry k m.entries, keysSorted_eraseEntry m.sorted⟩

/-- The entries whose keys satisfy `p`, in order: a range of the map when `p` is an interval. -/
def filterKeys (m : SortedMap κ α) (p : κ → Bool) : List (κ × α) :=
  m.entries.filter fun e => p e.1

variable {m : SortedMap κ α} {k k' : κ} {v : α}

@[simp] theorem get_empty : (empty : SortedMap κ α).get k = none := rfl

theorem get_mk {l : List (κ × α)} (hs : KeysSorted l) : (⟨l, hs⟩ : SortedMap κ α).get k = l.lookup k :=
  rfl

@[simp] theorem get_insert : (m.insert k v).get k' = if k' = k then some v else m.get k' :=
  lookup_insertEntry

theorem mem_insert {e : κ × α} (he : e ∈ (m.insert k v).entries) : e = (k, v) ∨ e ∈ m.entries :=
  mem_insertEntry he

theorem mem_of_get_eq_some (h : m.get k = some v) : (k, v) ∈ m.entries := by
  obtain ⟨l₁, l₂, hl, -⟩ := List.lookup_eq_some_iff.mp h
  rw [hl]
  simp

@[simp] theorem get_erase : (m.erase k).get k' = if k' = k then none else m.get k' :=
  lookup_eraseEntry

theorem mem_erase {e : κ × α} : e ∈ (m.erase k).entries ↔ e ∈ m.entries ∧ e.1 ≠ k := by
  simp [erase, eraseEntry]

theorem perm_insert : (m.insert k v).entries.Perm ((k, v) :: (m.erase k).entries) :=
  perm_insertEntry m.sorted

theorem perm_erase (h : m.get k = some v) : m.entries.Perm ((k, v) :: (m.erase k).entries) :=
  perm_eraseEntry m.sorted h

theorem nodup_keys : (m.entries.map Prod.fst).Nodup :=
  List.pairwise_map.mpr (m.sorted.imp fun h => ne_of_lt h)

theorem get_of_mem {e : κ × α} (he : e ∈ m.entries) : m.get e.1 = some e.2 := by
  obtain ⟨l, hs⟩ := m
  rw [get_mk]
  induction l with
  | nil => simp at he
  | cons e' l ih =>
    obtain ⟨hlow, hl⟩ := keysSorted_cons.mp hs
    rcases List.mem_cons.mp he with rfl | he
    · exact lookup_cons_self
    · rw [lookup_cons_of_ne (hlow e he).ne']
      exact ih hl he

theorem get_eq_some_iff : m.get k = some v ↔ (k, v) ∈ m.entries :=
  ⟨mem_of_get_eq_some, fun h => get_of_mem h⟩

theorem erase_eq_self (h : m.get k = none) : m.erase k = m := by
  obtain ⟨l, hs⟩ := m
  simp only [erase, mk.injEq]
  refine eraseEntry_eq_self fun e he hk => ?_
  have := List.lookup_eq_none_iff.mp h e he
  simp [hk] at this

/-- Whatever is gathered from each entry, an insertion gathers it from the new entry and from the
map without the old one. -/
theorem perm_flatMap_insert {β : Type*} (g : κ × α → List β) :
    ((m.insert k v).entries.flatMap g).Perm (g (k, v) ++ (m.erase k).entries.flatMap g) := by
  simpa using perm_insert.flatMap_right g

theorem perm_flatMap_of_get {β : Type*} (g : κ × α → List β) (h : m.get k = some v) :
    (m.entries.flatMap g).Perm (g (k, v) ++ (m.erase k).entries.flatMap g) := by
  simpa using (perm_erase h).flatMap_right g

theorem keysSorted_filterKeys (p : κ → Bool) : KeysSorted (m.filterKeys p) :=
  keysSorted_filter _ m.sorted

theorem lookup_filterKeys (p : κ → Bool) :
    (m.filterKeys p).lookup k = if p k then m.get k else none :=
  lookup_filter_key p

end SortedMap
