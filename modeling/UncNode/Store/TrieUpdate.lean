import Mathlib
import UncNode.Lib.SortedMap
import UncNode.Trie.Iterator

/-!
# Iteration over a `TrieUpdate`

`TrieUpdate` (`core/store/src/trie/update.rs`) lays two maps over a trie: the committed changes
of each key and the prospective values of the current batch, `None` for a removal. `get` reads
prospective, then committed, then the trie. `iter(prefix)` (`update/iterator.rs`) merges the
three sources: `MergeIter` merges committed with prospective, the right side winning on a common
key, and `TrieUpdateIterator` merges that with the trie's `TrieIterator` after `seek_prefix`,
skipping the removals. The trie is a root node; its `get` is `memtrieLookup`.

* **`inPrefixRange_iff`**: the range `(Included(prefix), make_prefix_range_end_bound(prefix))`
  read from the overlay maps holds exactly the keys that start with the prefix, including the
  all-`0xff` prefix, whose range has no end.
* `lookup_mergeIter`, `mem_trieUpdateIterator`: each merge yields the sorted union of its sides
  with the precedence `get` has.
* `get_set`, `get_remove`, `get_commit`, `get_rollback`: what each operation does to `get`.
* **`iter_spec`**, **`trie_update_iter_matches_get`**: on a trie built by updates, over any run
  of operations, `iter(prefix)` yields in strictly increasing order exactly the keys with the
  prefix at which `get` has a value. The trie's side is `collect_seekPrefix` read through
  `lookup_collect_seekPrefix`.
-/

set_option autoImplicit false

namespace Unc.TrieUpdate

open SortedMap

attribute [local instance] byteLinearOrder

/-! ## Keys and prefix ranges -/

/-- A `[u8]` key. -/
abbrev Bytes := List UInt8

/-- `make_prefix_range_end_bound`: the least key above every key that starts with `pfx`, none if
`pfx` is all `0xff`: the trailing `0xff` bytes dropped and the last byte left incremented. -/
def makePrefixRangeEndBound (pfx : Bytes) : Option Bytes :=
  let ffs := (pfx.reverse.takeWhile (· = 255)).length
  let next := pfx.take (pfx.length - ffs)
  match next.getLast? with
  | none => none
  | some last => some (next.dropLast ++ [last + 1])

example : makePrefixRangeEndBound [] = none := by decide
example : makePrefixRangeEndBound [255, 255] = none := by decide
example : makePrefixRangeEndBound [97, 255, 255, 255] = some [98] := by decide

/-- The range `(Included(prefix), end_bound)` that `TrieUpdateIterator::new` reads from the two
overlay maps. -/
def inPrefixRange (pfx key : Bytes) : Bool :=
  decide (pfx ≤ key) && (makePrefixRangeEndBound pfx).all fun endBound => decide (key < endBound)

/-- Every key is all `0xff`, or some bytes, one byte below `0xff`, then `0xff` bytes. -/
theorem eq_replicate_or_eq_append (pfx : Bytes) :
    (∃ n, pfx = List.replicate n 255) ∨
      ∃ q b n, b ≠ 255 ∧ pfx = q ++ b :: List.replicate n 255 := by
  induction pfx with
  | nil => exact Or.inl ⟨0, rfl⟩
  | cons x pfx ih =>
    rcases ih with ⟨n, rfl⟩ | ⟨q, b, n, hb, rfl⟩
    · by_cases hx : x = 255
      · exact Or.inl ⟨n + 1, by rw [hx, List.replicate_succ]⟩
      · exact Or.inr ⟨[], x, n, hx, rfl⟩
    · exact Or.inr ⟨x :: q, b, n, hb, rfl⟩

theorem makePrefixRangeEndBound_replicate (n : Nat) :
    makePrefixRangeEndBound (List.replicate n 255) = none := by
  simp [makePrefixRangeEndBound]

theorem takeWhile_replicate_append {b : UInt8} (hb : b ≠ 255) (n : Nat) (l : Bytes) :
    (List.replicate n 255 ++ b :: l).takeWhile (· = 255) = List.replicate n 255 := by
  induction n with
  | zero => simp [hb]
  | succ n ih => simp [List.replicate_succ, ih]

theorem makePrefixRangeEndBound_append {q : Bytes} {b : UInt8} (hb : b ≠ 255) (n : Nat) :
    makePrefixRangeEndBound (q ++ b :: List.replicate n 255) = some (q ++ [b + 1]) := by
  have hrev : (q ++ b :: List.replicate n 255).reverse =
      List.replicate n 255 ++ b :: q.reverse := by
    simp [List.reverse_append, List.reverse_replicate]
  have hnext : (q ++ b :: List.replicate n 255).take
      ((q ++ b :: List.replicate n 255).length - n) = q ++ [b] := by
    have hlen : (q ++ b :: List.replicate n 255).length - n = q.length + 1 := by simp; omega
    rw [hlen, List.take_append, List.take_of_length_le (by omega)]
    simp
  simp only [makePrefixRangeEndBound, hrev, takeWhile_replicate_append hb, List.length_replicate,
    hnext, List.getLast?_concat, List.dropLast_concat]

/-- `0xff` is the largest byte. -/
theorem lt_max_of_ne {c : UInt8} (hc : c ≠ 255) : c < 255 := by
  have hlt := c.toNat_lt
  have hne : c.toNat ≠ 255 := fun h => hc (UInt8.toNat_inj.mp h)
  rw [UInt8.lt_iff_toNat_lt]
  simp
  omega

/-- Below `0xff`, `b + 1` does not wrap. -/
theorem lt_add_one_iff_le {b c : UInt8} (hb : b ≠ 255) : c < b + 1 ↔ c ≤ b := by
  have hlt := b.toNat_lt
  have hne : b.toNat ≠ 255 := fun h => hb (UInt8.toNat_inj.mp h)
  have hval : (b + 1).toNat = b.toNat + 1 := by
    rw [UInt8.toNat_add]
    simp
    omega
  rw [UInt8.lt_iff_toNat_lt, UInt8.le_iff_toNat_le, hval]
  omega

theorem replicate_le_iff_isPrefix (n : Nat) (key : Bytes) :
    List.replicate n 255 ≤ key ↔ List.replicate n 255 <+: key := by
  induction n generalizing key with
  | zero => simp [← not_lt, List.not_lt_nil]
  | succ n ih =>
    rcases key with _ | ⟨c, key⟩
    · simp [List.replicate_succ, ← not_lt, List.nil_lt_cons]
    · rw [List.replicate_succ, ← not_lt, List.cons_lt_cons_iff, List.cons_prefix_cons, ← ih,
        ← not_lt]
      constructor
      · intro h
        have hc : c = 255 := by
          by_contra hne
          exact h (Or.inl (lt_max_of_ne hne))
        exact ⟨hc.symm, fun hlt => h (Or.inr ⟨hc, hlt⟩)⟩
      · rintro ⟨rfl, hnlt⟩ (hlt | ⟨-, hlt⟩)
        · exact lt_irrefl _ hlt
        · exact hnlt hlt

theorem append_le_and_lt_iff_isPrefix {b : UInt8} (hb : b ≠ 255) (q : Bytes) (n : Nat)
    (key : Bytes) :
    (q ++ b :: List.replicate n 255 ≤ key ∧ key < q ++ [b + 1]) ↔
      q ++ b :: List.replicate n 255 <+: key := by
  induction q generalizing key with
  | nil =>
    rcases key with _ | ⟨c, key⟩
    · simp [← not_lt, List.nil_lt_cons]
    · rw [List.nil_append, List.nil_append, ← not_lt, List.cons_lt_cons_iff,
        List.cons_lt_cons_iff, List.cons_prefix_cons, ← replicate_le_iff_isPrefix, ← not_lt]
      simp only [List.not_lt_nil, and_false, or_false, lt_add_one_iff_le hb]
      constructor
      · rintro ⟨hn, hle⟩
        have hcb : c = b := le_antisymm hle (not_lt.mp fun h => hn (Or.inl h))
        exact ⟨hcb.symm, fun hlt => hn (Or.inr ⟨hcb, hlt⟩)⟩
      · rintro ⟨rfl, hnlt⟩
        refine ⟨?_, le_rfl⟩
        rintro (hlt | ⟨-, hlt⟩)
        · exact lt_irrefl _ hlt
        · exact hnlt hlt
  | cons x q ih =>
    rcases key with _ | ⟨c, key⟩
    · simp [← not_lt, List.nil_lt_cons]
    · rw [List.cons_append, List.cons_append, ← not_lt, List.cons_lt_cons_iff,
        List.cons_lt_cons_iff, List.cons_prefix_cons, ← ih, ← not_lt]
      constructor
      · rintro ⟨hn, hlt | ⟨hcx, hlt⟩⟩
        · exact absurd (Or.inl hlt) hn
        · exact ⟨hcx.symm, fun h => hn (Or.inr ⟨hcx, h⟩), hlt⟩
      · rintro ⟨rfl, hnlt, hlt⟩
        refine ⟨?_, Or.inr ⟨rfl, hlt⟩⟩
        rintro (h | ⟨-, h⟩)
        · exact lt_irrefl _ h
        · exact hnlt h

/-- **The range is exactly the keys that start with the prefix**, the all-`0xff` prefix, whose
range has no end, included. -/
theorem inPrefixRange_iff (pfx key : Bytes) : inPrefixRange pfx key = true ↔ pfx <+: key := by
  rcases eq_replicate_or_eq_append pfx with ⟨n, rfl⟩ | ⟨q, b, n, hb, rfl⟩
  · simp [inPrefixRange, makePrefixRangeEndBound_replicate, replicate_le_iff_isPrefix]
  · simp [inPrefixRange, makePrefixRangeEndBound_append hb, append_le_and_lt_iff_isPrefix hb]

/-! ## `MergeIter` -/

section Merge

variable {κ α β : Type} [LinearOrder κ]

/-- `MergeIter`: the entries of `left` (committed) and `right` (prospective) in key order; on a
key of both, `right`'s entry, `left`'s skipped. -/
def mergeIter : List (κ × α) → List (κ × α) → List (κ × α)
  | [], [] => []
  | l :: left, [] => l :: mergeIter left []
  | [], r :: right => r :: mergeIter [] right
  | l :: left, r :: right =>
    match compare l.1 r.1 with
    | .lt => l :: mergeIter left (r :: right)
    | .gt => r :: mergeIter (l :: left) right
    | .eq => r :: mergeIter left right
termination_by left right => left.length + right.length

/-- Everything `MergeIter` yields comes from one of its sides. -/
theorem mem_mergeIter {left right : List (κ × α)} {e : κ × α} (he : e ∈ mergeIter left right) :
    e ∈ left ∨ e ∈ right := by
  fun_induction mergeIter left right with
  | case1 => simp at he
  | case2 l left ih =>
    rcases List.mem_cons.mp he with rfl | he
    · exact Or.inl List.mem_cons_self
    · exact Or.inl (List.mem_cons_of_mem l ((ih he).elim id fun h => by simp at h))
  | case3 r right ih =>
    rcases List.mem_cons.mp he with rfl | he
    · exact Or.inr List.mem_cons_self
    · exact Or.inr (List.mem_cons_of_mem r ((ih he).elim (fun h => by simp at h) id))
  | case4 l left r right _ ih =>
    rcases List.mem_cons.mp he with rfl | he
    · exact Or.inl List.mem_cons_self
    · exact (ih he).imp (List.mem_cons_of_mem l) id
  | case5 l left r right _ ih =>
    rcases List.mem_cons.mp he with rfl | he
    · exact Or.inr List.mem_cons_self
    · exact (ih he).imp id (List.mem_cons_of_mem r)
  | case6 l left r right _ ih =>
    rcases List.mem_cons.mp he with rfl | he
    · exact Or.inr List.mem_cons_self
    · exact (ih he).imp (List.mem_cons_of_mem l) (List.mem_cons_of_mem r)

theorem lt_of_mem_mergeIter {b : κ} {left right : List (κ × α)}
    (hl : ∀ e ∈ left, b < e.1) (hr : ∀ e ∈ right, b < e.1) :
    ∀ e ∈ mergeIter left right, b < e.1 := fun e he =>
  (mem_mergeIter he).elim (hl e) (hr e)

/-- A bound of the first key of a sorted list bounds every key. -/
theorem le_of_mem_cons {b : κ} {x : κ × α} {l : List (κ × α)} (hs : KeysSorted (x :: l))
    (hb : b ≤ x.1) : ∀ e ∈ x :: l, b ≤ e.1 := fun e he => by
  rcases List.mem_cons.mp he with rfl | he
  · exact hb
  · exact hb.trans ((keysSorted_cons.mp hs).1 e he).le

theorem keysSorted_mergeIter {left right : List (κ × α)} (hl : KeysSorted left)
    (hr : KeysSorted right) : KeysSorted (mergeIter left right) := by
  fun_induction mergeIter left right with
  | case1 => exact keysSorted_nil
  | case2 l left ih =>
    obtain ⟨hlow, hl⟩ := keysSorted_cons.mp hl
    exact keysSorted_cons.mpr ⟨lt_of_mem_mergeIter hlow (by simp), ih hl hr⟩
  | case3 r right ih =>
    obtain ⟨hlow, hr⟩ := keysSorted_cons.mp hr
    exact keysSorted_cons.mpr ⟨lt_of_mem_mergeIter (by simp) hlow, ih hl hr⟩
  | case4 l left r right hcmp ih =>
    have hlt : l.1 < r.1 := compare_lt_iff_lt.mp hcmp
    obtain ⟨hlow, hl'⟩ := keysSorted_cons.mp hl
    refine keysSorted_cons.mpr ⟨lt_of_mem_mergeIter hlow fun e he => ?_, ih hl' hr⟩
    exact lt_of_lt_of_le hlt (le_of_mem_cons hr le_rfl e he)
  | case5 l left r right hcmp ih =>
    have hlt : r.1 < l.1 := compare_gt_iff_gt.mp hcmp
    obtain ⟨hlow, hr'⟩ := keysSorted_cons.mp hr
    refine keysSorted_cons.mpr ⟨lt_of_mem_mergeIter (fun e he => ?_) hlow, ih hl hr'⟩
    exact lt_of_lt_of_le hlt (le_of_mem_cons hl le_rfl e he)
  | case6 l left r right hcmp ih =>
    have heq : l.1 = r.1 := compare_eq_iff_eq.mp hcmp
    obtain ⟨hlowl, hl'⟩ := keysSorted_cons.mp hl
    obtain ⟨hlowr, hr'⟩ := keysSorted_cons.mp hr
    exact keysSorted_cons.mpr ⟨lt_of_mem_mergeIter (heq ▸ hlowl) hlowr, ih hl' hr'⟩

theorem lookup_cons_eq {x : κ × α} {l : List (κ × α)} {k : κ} :
    (x :: l).lookup k = if k = x.1 then some x.2 else l.lookup k := by
  by_cases hk : k = x.1
  · subst hk
    rw [if_pos rfl, lookup_cons_self]
  · rw [if_neg hk, lookup_cons_of_ne hk]

/-- **`MergeIter` is the overlay of `right` on `left`**, key by key. -/
theorem lookup_mergeIter {left right : List (κ × α)} (hl : KeysSorted left)
    (hr : KeysSorted right) (k : κ) :
    (mergeIter left right).lookup k = (right.lookup k).or (left.lookup k) := by
  fun_induction mergeIter left right with
  | case1 => rfl
  | case2 l left ih =>
    rw [lookup_cons_eq, lookup_cons_eq, ih (keysSorted_cons.mp hl).2 hr]
    simp
  | case3 r right ih =>
    rw [lookup_cons_eq, ih hl (keysSorted_cons.mp hr).2]
    by_cases hk : k = r.1
    · subst hk
      rw [if_pos rfl, lookup_cons_self]
      rfl
    · rw [if_neg hk, lookup_cons_of_ne hk]
  | case4 l left r right hcmp ih =>
    rw [lookup_cons_eq, ih (keysSorted_cons.mp hl).2 hr]
    by_cases hk : k = l.1
    · subst hk
      rw [if_pos rfl, lookup_cons_of_lt hr (compare_lt_iff_lt.mp hcmp), Option.none_or,
        lookup_cons_self]
    · rw [if_neg hk, lookup_cons_of_ne hk]
  | case5 l left r right hcmp ih =>
    rw [lookup_cons_eq, ih hl (keysSorted_cons.mp hr).2]
    by_cases hk : k = r.1
    · subst hk
      rw [if_pos rfl, lookup_cons_self]
      rfl
    · rw [if_neg hk, lookup_cons_of_ne hk]
  | case6 l left r right hcmp ih =>
    have heq : l.1 = r.1 := compare_eq_iff_eq.mp hcmp
    rw [lookup_cons_eq, ih (keysSorted_cons.mp hl).2 (keysSorted_cons.mp hr).2]
    by_cases hk : k = r.1
    · subst hk
      rw [if_pos rfl, lookup_cons_self]
      rfl
    · rw [if_neg hk, lookup_cons_of_ne hk, lookup_cons_of_ne (heq ▸ hk)]

end Merge

/-! ## `TrieUpdateIterator` -/

section Iterator

variable {κ α β : Type} [LinearOrder κ]

/-- The `next` loop of `TrieUpdateIterator`: the keys of `trie` and of `overlay` in key order,
the overlay's entry deciding at a key of both, and an overlay `None` hiding its key. -/
def trieUpdateIterator : List (κ × β) → List (κ × Option α) → List κ
  | [], [] => []
  | t :: trie, [] => t.1 :: trieUpdateIterator trie []
  | [], o :: overlay =>
    match o.2 with
    | some _ => o.1 :: trieUpdateIterator [] overlay
    | none => trieUpdateIterator [] overlay
  | t :: trie, o :: overlay =>
    match compare t.1 o.1 with
    | .lt => t.1 :: trieUpdateIterator trie (o :: overlay)
    | .eq =>
      match o.2 with
      | some _ => t.1 :: trieUpdateIterator trie overlay
      | none => trieUpdateIterator trie overlay
    | .gt =>
      match o.2 with
      | some _ => o.1 :: trieUpdateIterator (t :: trie) overlay
      | none => trieUpdateIterator (t :: trie) overlay
termination_by trie overlay => trie.length + overlay.length

/-- A bound below both sides bounds every key the iterator yields. -/
theorem lt_of_mem_trieUpdateIterator {b : κ} {trie : List (κ × β)}
    {overlay : List (κ × Option α)} :
    (∀ e ∈ trie, b < e.1) → (∀ e ∈ overlay, b < e.1) →
      ∀ k ∈ trieUpdateIterator trie overlay, b < k := by
  fun_induction trieUpdateIterator trie overlay with
  | case1 => simp
  | case2 t trie ih =>
    intro ht ho k hk
    rcases List.mem_cons.mp hk with rfl | hk
    · exact ht t List.mem_cons_self
    · exact ih (List.forall_mem_of_forall_mem_cons ht) ho k hk
  | case3 o overlay _ _ ih =>
    intro ht ho k hk
    rcases List.mem_cons.mp hk with rfl | hk
    · exact ho o List.mem_cons_self
    · exact ih ht (List.forall_mem_of_forall_mem_cons ho) k hk
  | case4 o overlay _ ih =>
    intro ht ho k hk
    exact ih ht (List.forall_mem_of_forall_mem_cons ho) k hk
  | case5 t trie o overlay _ ih =>
    intro ht ho k hk
    rcases List.mem_cons.mp hk with rfl | hk
    · exact ht t List.mem_cons_self
    · exact ih (List.forall_mem_of_forall_mem_cons ht) ho k hk
  | case6 t trie o overlay _ _ _ ih =>
    intro ht ho k hk
    rcases List.mem_cons.mp hk with rfl | hk
    · exact ht t List.mem_cons_self
    · exact ih (List.forall_mem_of_forall_mem_cons ht) (List.forall_mem_of_forall_mem_cons ho) k hk
  | case7 t trie o overlay _ _ ih =>
    intro ht ho k hk
    exact ih (List.forall_mem_of_forall_mem_cons ht) (List.forall_mem_of_forall_mem_cons ho) k hk
  | case8 t trie o overlay _ _ _ ih =>
    intro ht ho k hk
    rcases List.mem_cons.mp hk with rfl | hk
    · exact ho o List.mem_cons_self
    · exact ih ht (List.forall_mem_of_forall_mem_cons ho) k hk
  | case9 t trie o overlay _ _ ih =>
    intro ht ho k hk
    exact ih ht (List.forall_mem_of_forall_mem_cons ho) k hk

/-- The keys after the head of a sorted list are above it. -/
theorem lt_of_mem_tail {x : κ × α} {l : List (κ × α)} (hs : KeysSorted (x :: l)) :
    ∀ e ∈ l, x.1 < e.1 :=
  (keysSorted_cons.mp hs).1

/-- The iterator yields its keys in strictly increasing order. -/
theorem pairwise_trieUpdateIterator {trie : List (κ × β)} {overlay : List (κ × Option α)}
    (ht : KeysSorted trie) (ho : KeysSorted overlay) :
    (trieUpdateIterator trie overlay).Pairwise (· < ·) := by
  fun_induction trieUpdateIterator trie overlay with
  | case1 => exact List.Pairwise.nil
  | case2 t trie ih =>
    exact List.pairwise_cons.mpr
      ⟨lt_of_mem_trieUpdateIterator (lt_of_mem_tail ht) (by simp), ih (keysSorted_cons.mp ht).2 ho⟩
  | case3 o overlay _ _ ih =>
    exact List.pairwise_cons.mpr
      ⟨lt_of_mem_trieUpdateIterator (by simp) (lt_of_mem_tail ho), ih ht (keysSorted_cons.mp ho).2⟩
  | case4 o overlay _ ih => exact ih ht (keysSorted_cons.mp ho).2
  | case5 t trie o overlay hcmp ih =>
    have hlt : t.1 < o.1 := compare_lt_iff_lt.mp hcmp
    refine List.pairwise_cons.mpr ⟨lt_of_mem_trieUpdateIterator (lt_of_mem_tail ht)
      fun e he => ?_, ih (keysSorted_cons.mp ht).2 ho⟩
    exact lt_of_lt_of_le hlt (le_of_mem_cons ho le_rfl e he)
  | case6 t trie o overlay hcmp _ _ ih =>
    have heq : t.1 = o.1 := compare_eq_iff_eq.mp hcmp
    exact List.pairwise_cons.mpr ⟨lt_of_mem_trieUpdateIterator (lt_of_mem_tail ht)
      (heq ▸ lt_of_mem_tail ho), ih (keysSorted_cons.mp ht).2 (keysSorted_cons.mp ho).2⟩
  | case7 t trie o overlay _ _ ih => exact ih (keysSorted_cons.mp ht).2 (keysSorted_cons.mp ho).2
  | case8 t trie o overlay hcmp _ _ ih =>
    have hlt : o.1 < t.1 := compare_gt_iff_gt.mp hcmp
    refine List.pairwise_cons.mpr ⟨lt_of_mem_trieUpdateIterator (fun e he => ?_)
      (lt_of_mem_tail ho), ih ht (keysSorted_cons.mp ho).2⟩
    exact lt_of_lt_of_le hlt (le_of_mem_cons ht le_rfl e he)
  | case9 t trie o overlay _ _ ih => exact ih ht (keysSorted_cons.mp ho).2

/-- Whether `k` has a value: the overlay's entry decides where it has one, the trie elsewhere. -/
def visible (trie : List (κ × β)) (overlay : List (κ × Option α)) (k : κ) : Bool :=
  match overlay.lookup k with
  | some value => value.isSome
  | none => (trie.lookup k).isSome

section Visible

variable {trie : List (κ × β)} {overlay : List (κ × Option α)} {k : κ}

theorem visible_cons_overlay_self {o : κ × Option α} : visible trie (o :: overlay) o.1 = o.2.isSome := by
  simp [visible, lookup_cons_self]

theorem visible_cons_overlay_of_ne {o : κ × Option α} (h : k ≠ o.1) :
    visible trie (o :: overlay) k = visible trie overlay k := by
  simp [visible, lookup_cons_of_ne h]

theorem visible_cons_trie_of_ne {t : κ × β} (h : k ≠ t.1) :
    visible (t :: trie) overlay k = visible trie overlay k := by
  simp [visible, lookup_cons_of_ne h]

theorem visible_cons_trie_self {t : κ × β} (h : overlay.lookup t.1 = none) :
    visible (t :: trie) overlay t.1 = true := by
  simp [visible, h, lookup_cons_self]

end Visible

/-- **The iterator yields exactly the visible keys.** -/
theorem mem_trieUpdateIterator {trie : List (κ × β)} {overlay : List (κ × Option α)}
    (ht : KeysSorted trie) (ho : KeysSorted overlay) (k : κ) :
    k ∈ trieUpdateIterator trie overlay ↔ visible trie overlay k = true := by
  fun_induction trieUpdateIterator trie overlay with
  | case1 => simp [visible]
  | case2 t trie ih =>
    by_cases hk : k = t.1
    · subst hk
      simp [visible, lookup_cons_self]
    · rw [List.mem_cons, visible_cons_trie_of_ne hk, ← ih (keysSorted_cons.mp ht).2 ho]
      simp [hk]
  | case3 o overlay _ hsome ih =>
    by_cases hk : k = o.1
    · subst hk
      simp [visible_cons_overlay_self, hsome]
    · rw [List.mem_cons, visible_cons_overlay_of_ne hk, ← ih ht (keysSorted_cons.mp ho).2]
      simp [hk]
  | case4 o overlay hnone ih =>
    by_cases hk : k = o.1
    · subst hk
      rw [visible_cons_overlay_self, hnone]
      exact iff_of_false (fun hmem => lt_irrefl _ (lt_of_mem_trieUpdateIterator (by simp)
        (lt_of_mem_tail ho) _ hmem)) (by simp)
    · rw [visible_cons_overlay_of_ne hk, ← ih ht (keysSorted_cons.mp ho).2]
  | case5 t trie o overlay hcmp ih =>
    by_cases hk : k = t.1
    · subst hk
      simp [visible_cons_trie_self (lookup_cons_of_lt ho (compare_lt_iff_lt.mp hcmp))]
    · rw [List.mem_cons, visible_cons_trie_of_ne hk, ← ih (keysSorted_cons.mp ht).2 ho]
      simp [hk]
  | case6 t trie o overlay hcmp _ hsome ih =>
    have heq : t.1 = o.1 := compare_eq_iff_eq.mp hcmp
    by_cases hk : k = t.1
    · subst hk
      simp [heq, visible_cons_overlay_self, hsome]
    · rw [List.mem_cons, visible_cons_trie_of_ne hk, visible_cons_overlay_of_ne (heq ▸ hk),
        ← ih (keysSorted_cons.mp ht).2 (keysSorted_cons.mp ho).2]
      simp [hk]
  | case7 t trie o overlay hcmp hnone ih =>
    have heq : t.1 = o.1 := compare_eq_iff_eq.mp hcmp
    by_cases hk : k = t.1
    · subst hk
      rw [heq, visible_cons_overlay_self, hnone]
      exact iff_of_false (fun hmem => lt_irrefl _ (lt_of_mem_trieUpdateIterator
        (heq ▸ lt_of_mem_tail ht) (lt_of_mem_tail ho) _ hmem)) (by simp)
    · rw [visible_cons_trie_of_ne hk, visible_cons_overlay_of_ne (heq ▸ hk),
        ← ih (keysSorted_cons.mp ht).2 (keysSorted_cons.mp ho).2]
  | case8 t trie o overlay _ _ hsome ih =>
    by_cases hk : k = o.1
    · subst hk
      simp [visible_cons_overlay_self, hsome]
    · rw [List.mem_cons, visible_cons_overlay_of_ne hk, ← ih ht (keysSorted_cons.mp ho).2]
      simp [hk]
  | case9 t trie o overlay hcmp hnone ih =>
    have hlt : o.1 < t.1 := compare_gt_iff_gt.mp hcmp
    by_cases hk : k = o.1
    · subst hk
      rw [visible_cons_overlay_self, hnone]
      exact iff_of_false (fun hmem => lt_irrefl _ (lt_of_mem_trieUpdateIterator
        (fun e he => lt_of_lt_of_le hlt (le_of_mem_cons ht le_rfl e he)) (lt_of_mem_tail ho) _
        hmem)) (by simp)
    · rw [visible_cons_overlay_of_ne hk, ← ih ht (keysSorted_cons.mp ho).2]

end Iterator

end Unc.TrieUpdate

namespace Unc

open SortedMap TrieUpdate

attribute [local instance] byteLinearOrder

/-! ## The overlay and its operations -/

/-- `RawStateChange`: a committed value, with the event that committed it. -/
structure RawStateChange (V C : Type) where
  cause : C
  data : Option V

/-- `TrieUpdate`: the base trie's root, the committed changes of each key and the
prospective values, `None` for a removal. Every committed key has a change: `commit` only ever
pushes one. -/
structure TrieUpdate (V C : Type) where
  trie : TrieNode V
  committed : SortedMap Bytes (List (RawStateChange V C))
  prospective : SortedMap Bytes (Option V)
  committed_nonempty : ∀ e ∈ committed.entries, e.2 ≠ []

namespace TrieUpdate

variable {V C : Type}

/-- `TrieUpdate::new`. -/
def new (trie : TrieNode V) : TrieUpdate V C :=
  ⟨trie, .empty, .empty, by simp [SortedMap.empty]⟩

/-- `TrieUpdate::get`; `Trie::get` is `memtrieLookup`. -/
def get (u : TrieUpdate V C) (key : Bytes) : Option V :=
  match u.prospective.get key with
  | some keyValue => keyValue
  | none =>
    match u.committed.get key with
    | some changes =>
      match changes.getLast? with
      | some change => change.data
      | none => memtrieLookup u.trie key
    | none => memtrieLookup u.trie key

/-- `TrieUpdate::set`. -/
def set (u : TrieUpdate V C) (key : Bytes) (value : V) : TrieUpdate V C :=
  { u with prospective := u.prospective.insert key (some value) }

/-- `TrieUpdate::remove`. -/
def remove (u : TrieUpdate V C) (key : Bytes) : TrieUpdate V C :=
  { u with prospective := u.prospective.insert key none }

/-- One entry of `commit`'s loop:
`committed.entry(raw_key).or_insert_with(..).changes.push(RawStateChange { cause, data })`. -/
def pushChange (event : C) (committed : SortedMap Bytes (List (RawStateChange V C)))
    (entry : Bytes × Option V) : SortedMap Bytes (List (RawStateChange V C)) :=
  committed.insert entry.1 ((committed.get entry.1).getD [] ++ [⟨event, entry.2⟩])

theorem pushChange_nonempty (event : C) {committed : SortedMap Bytes (List (RawStateChange V C))}
    (h : ∀ e ∈ committed.entries, e.2 ≠ []) (entry : Bytes × Option V) :
    ∀ e ∈ (pushChange event committed entry).entries, e.2 ≠ [] := fun e he => by
  rcases SortedMap.mem_insert he with rfl | he
  · simp
  · exact h e he

theorem foldl_pushChange_nonempty (event : C) (entries : List (Bytes × Option V)) :
    ∀ committed : SortedMap Bytes (List (RawStateChange V C)),
      (∀ e ∈ committed.entries, e.2 ≠ []) →
        ∀ e ∈ (entries.foldl (pushChange event) committed).entries, e.2 ≠ [] := by
  induction entries with
  | nil => exact fun _ h => h
  | cons entry entries ih =>
    exact fun committed h => ih _ (pushChange_nonempty event h entry)

/-- `TrieUpdate::commit`: every prospective value pushed as a change of its key, in key order;
the prospective values cleared. -/
def commit (u : TrieUpdate V C) (event : C) : TrieUpdate V C where
  trie := u.trie
  committed := u.prospective.entries.foldl (pushChange event) u.committed
  prospective := .empty
  committed_nonempty := foldl_pushChange_nonempty event _ _ u.committed_nonempty

/-- `TrieUpdate::rollback`. -/
def rollback (u : TrieUpdate V C) : TrieUpdate V C :=
  { u with prospective := .empty }

/-- `changes.last().expect(..).data` of the committed iterator; `none` on no change is the
`expect`'s panic, which `committed_nonempty` rules out. -/
def lastData (changes : List (RawStateChange V C)) : Option V :=
  match changes.getLast? with
  | some change => change.data
  | none => none

/-- `TrieUpdate::iter(key_prefix)`, as the keys it yields: `trie.iter()` (`TrieIterator::new`
with no prune condition) after `seek_prefix(key_prefix)`, and the committed and prospective maps
read over `(Included(prefix), end_bound)`. -/
def iter (u : TrieUpdate V C) (keyPrefix : Bytes) : List Bytes :=
  let trieIter := ((TrieIterator.new u.trie none).seekPrefix keyPrefix).collect
  let committedIter :=
    (u.committed.filterKeys (inPrefixRange keyPrefix)).map fun e => (e.1, lastData e.2)
  let prospectiveIter := u.prospective.filterKeys (inPrefixRange keyPrefix)
  trieUpdateIterator trieIter (mergeIter committedIter prospectiveIter)

/-- The operations a `TrieUpdate` is driven by. -/
inductive Op (V C : Type) where
  | set (key : Bytes) (value : V)
  | remove (key : Bytes)
  | commit (event : C)
  | rollback

/-- One operation. -/
def apply (u : TrieUpdate V C) : Op V C → TrieUpdate V C
  | .set key value => u.set key value
  | .remove key => u.remove key
  | .commit event => u.commit event
  | .rollback => u.rollback

/-- A run of operations. -/
def run (u : TrieUpdate V C) (ops : List (Op V C)) : TrieUpdate V C :=
  ops.foldl apply u

/-- No operation writes the trie: the overlay takes every change. -/
@[simp] theorem apply_trie (u : TrieUpdate V C) (op : Op V C) : (u.apply op).trie = u.trie := by
  cases op <;> rfl

@[simp] theorem run_trie (u : TrieUpdate V C) (ops : List (Op V C)) : (u.run ops).trie = u.trie := by
  induction ops generalizing u with
  | nil => rfl
  | cons op ops ih => rw [run, List.foldl_cons, ← run, ih, apply_trie]

/-- The value the overlay holds at `key`, `none` where it has none: prospective over committed. -/
def overlayAt (u : TrieUpdate V C) (key : Bytes) : Option (Option V) :=
  (u.prospective.get key).or ((u.committed.get key).map lastData)

/-- `get` reads the overlay first and the trie where the overlay has nothing. -/
theorem get_eq_overlayAt (u : TrieUpdate V C) (key : Bytes) :
    u.get key = (u.overlayAt key).getD (memtrieLookup u.trie key) := by
  unfold get overlayAt
  cases hp : u.prospective.get key with
  | some keyValue => rfl
  | none =>
    cases hc : u.committed.get key with
    | none => rfl
    | some changes =>
      have hne : changes ≠ [] := u.committed_nonempty _ (SortedMap.mem_of_get_eq_some hc)
      obtain ⟨change, hlast⟩ := List.getLast?_isSome.mpr hne |> Option.isSome_iff_exists.mp
      simp [hlast, lastData]

@[simp] theorem get_set (u : TrieUpdate V C) (key key' : Bytes) (value : V) :
    (u.set key value).get key' = if key' = key then some value else u.get key' := by
  by_cases h : key' = key
  · simp [set, get, h]
  · simp [set, get, h]

@[simp] theorem get_remove (u : TrieUpdate V C) (key key' : Bytes) :
    (u.remove key).get key' = if key' = key then none else u.get key' := by
  by_cases h : key' = key
  · simp [remove, get, h]
  · simp [remove, get, h]

theorem get_pushChange (event : C) (committed : SortedMap Bytes (List (RawStateChange V C)))
    (entry : Bytes × Option V) (key : Bytes) :
    (pushChange event committed entry).get key =
      if key = entry.1 then some ((committed.get key).getD [] ++ [⟨event, entry.2⟩])
      else committed.get key := by
  by_cases h : key = entry.1
  · subst h
    simp [pushChange]
  · simp [pushChange, h]

/-- `commit`'s loop pushes the prospective value of a key onto its changes, and leaves the other
keys alone. Induction on the entries, whose keys are distinct. -/
theorem get_foldl_pushChange (event : C) (prospective : SortedMap Bytes (Option V))
    (key : Bytes) (committed : SortedMap Bytes (List (RawStateChange V C))) :
    (prospective.entries.foldl (pushChange event) committed).get key =
      match prospective.get key with
      | some value => some ((committed.get key).getD [] ++ [⟨event, value⟩])
      | none => committed.get key := by
  obtain ⟨entries, hs⟩ := prospective
  rw [SortedMap.get_mk hs]
  induction entries generalizing committed with
  | nil => rfl
  | cons entry entries ih =>
    obtain ⟨hlow, hs⟩ := keysSorted_cons.mp hs
    rw [List.foldl_cons, ih _ hs]
    by_cases h : key = entry.1
    · subst h
      rw [lookup_eq_none_of_lt hlow, lookup_cons_self, get_pushChange, if_pos rfl]
    · rw [lookup_cons_of_ne h]
      cases entries.lookup key <;> simp [get_pushChange, h]

@[simp] theorem lastData_append_change (changes : List (RawStateChange V C)) (event : C)
    (value : Option V) : lastData (changes ++ [⟨event, value⟩]) = value := by
  simp [lastData]

/-- **`commit` changes nothing `get` reads**: the prospective values become the last changes. -/
theorem get_commit (u : TrieUpdate V C) (event : C) (key : Bytes) :
    (u.commit event).get key = u.get key := by
  have hfold := get_foldl_pushChange event u.prospective key u.committed
  rw [get_eq_overlayAt, get_eq_overlayAt]
  simp only [overlayAt, commit, SortedMap.get_empty, Option.none_or] at hfold ⊢
  rw [hfold]
  cases u.prospective.get key <;> simp

/-- `rollback` drops the prospective values and keeps what was committed. -/
theorem get_rollback (u : TrieUpdate V C) (key : Bytes) :
    u.rollback.get key = (u.committed.get key |>.map lastData).getD (memtrieLookup u.trie key) := by
  rw [get_eq_overlayAt]
  simp [overlayAt, rollback]

/-! ## Iteration matches lookup -/

/-- **`iter` matches `get`**: over a trie built by updates, it yields, in strictly increasing
order, exactly the keys that start with the prefix and at which `get` has a value. -/
theorem iter_spec (u : TrieUpdate V C) (htrie : Reachable u.trie) (keyPrefix : Bytes) :
    (u.iter keyPrefix).Pairwise (· < ·) ∧
      ∀ key, key ∈ u.iter keyPrefix ↔ keyPrefix <+: key ∧ (u.get key).isSome := by
  have ht := keysSorted_collect_seekPrefix htrie keyPrefix
  have ho := keysSorted_mergeIter
    (keysSorted_map_snd (fun changes => lastData changes)
      (keysSorted_filterKeys (m := u.committed) (inPrefixRange keyPrefix)))
    (keysSorted_filterKeys (m := u.prospective) (inPrefixRange keyPrefix))
  refine ⟨pairwise_trieUpdateIterator ht ho, fun key => ?_⟩
  rw [iter, mem_trieUpdateIterator ht ho, visible,
    lookup_mergeIter (keysSorted_map_snd _ (keysSorted_filterKeys _)) (keysSorted_filterKeys _),
    lookup_filterKeys, lookup_map_snd, lookup_filterKeys, ← SortedMap.get_mk ht,
    get_collect_seekPrefix htrie, get_eq_overlayAt]
  by_cases h : keyPrefix <+: key
  · have hrange : inPrefixRange keyPrefix key = true := (inPrefixRange_iff _ _).mpr h
    simp only [hrange, h, if_true, true_and]
    change (match u.overlayAt key with
      | some value => value.isSome
      | none => (memtrieLookup u.trie key).isSome) = true ↔ _
    cases u.overlayAt key <;> rfl
  · have hrange : inPrefixRange keyPrefix key = false :=
      Bool.eq_false_iff.mpr fun hr => h ((inPrefixRange_iff _ _).mp hr)
    simp [hrange, h]

/-- **Overlay iteration matches overlay lookup**: for a trie built by updates, after any run of
`set`, `remove`, `commit` and `rollback` from `TrieUpdate::new(trie)`, `iter(prefix)` yields in
strictly increasing order exactly the keys with the prefix at which `get` has a value. -/
theorem trie_update_iter_matches_get (trie : TrieNode V) (htrie : Reachable trie)
    (ops : List (Op V C)) (keyPrefix : Bytes) :
    (((TrieUpdate.new trie).run ops).iter keyPrefix).Pairwise (· < ·) ∧
      ∀ key, key ∈ ((TrieUpdate.new trie).run ops).iter keyPrefix ↔
        keyPrefix <+: key ∧ (((TrieUpdate.new trie).run ops).get key).isSome := by
  have hrun : Reachable ((TrieUpdate.new trie).run ops).trie := by
    rw [run_trie]
    exact htrie
  exact iter_spec _ hrun keyPrefix

/-- A run that sets, removes, commits and rolls back keys under the prefix `[0x12]` and beside
it. -/
def sampleOps : List (Op Nat Unit) :=
  [.set [0x12, 0x56] 10, .remove [0x12], .commit (), .set [0x12, 0x34, 0x01] 11,
    .remove [0x12, 0x34], .rollback, .set [0x13, 0x01] 12]

/-- The run over a trie built from the empty trie by one batch, iterated from `[0x12]`. -/
theorem trie_update_iter_matches_get_built : ∃ root : TrieNode Nat,
    MemTrieUpdate.applyChanges .empty [([0x12], some 7), ([0x13], some 8), ([0x12, 0x34], some 9)] =
      some root ∧ Reachable root ∧
    (((TrieUpdate.new root).run sampleOps).iter [0x12]).Pairwise (· < ·) ∧
      ∀ key, key ∈ ((TrieUpdate.new root).run sampleOps).iter [0x12] ↔
        [0x12] <+: key ∧ (((TrieUpdate.new root).run sampleOps).get key).isSome := by
  obtain ⟨root, hroot, -, -⟩ := MemTrieUpdate.applyChanges_spec CanonicalTrie.empty
    [([0x12], some 7), ([0x13], some 8), ([0x12, 0x34], some (9 : Nat))]
  have hreach : Reachable root := .memTrieUpdate _ .empty hroot
  exact ⟨root, hroot, hreach, trie_update_iter_matches_get root hreach sampleOps [0x12]⟩

end TrieUpdate

end Unc
