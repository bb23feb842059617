import Mathlib

/-!
# Weighted totals of association lists

`RecordSum.total w s` adds the weight `w a b` of every entry `⟨a, b⟩` of the map `s`. A counter
kept in step with such a map changes, at an update, by the weight of what the update writes less
the weight of the entry it replaces.

* `total_insert_add`, `total_erase_add`: the two updates, stated additively so that no
  subtraction appears;
* `weightAt_le_total`: one entry weighs at most the total.
-/

namespace RecordSum

variable {α : Type*} {β : α → Type*}

/-- The total weight of the entries of `s`. -/
def total (w : (a : α) → β a → Nat) (s : AList β) : Nat :=
  (s.entries.map fun e => w e.1 e.2).sum

@[simp] theorem total_empty {w : (a : α) → β a → Nat} : total w (∅ : AList β) = 0 := rfl

variable [DecidableEq α]

/-- The weight of the entry at `a`, zero when there is none. -/
def weightAt (w : (a : α) → β a → Nat) (s : AList β) (a : α) : Nat :=
  ((s.lookup a).map (w a)).getD 0

variable {w : (a : α) → β a → Nat} {s : AList β} {a : α}

@[simp] theorem weightAt_empty : weightAt w (∅ : AList β) a = 0 := rfl

theorem weightAt_of_lookup {b : β a} (h : s.lookup a = some b) : weightAt w s a = w a b := by
  simp [weightAt, h]

theorem weightAt_of_notMem (h : a ∉ s) : weightAt w s a = 0 := by
  simp [weightAt, AList.lookup_eq_none.mpr h]

theorem total_erase_add : total w (s.erase a) + weightAt w s a = total w s := by
  by_cases ha : a ∈ s
  · obtain ⟨b, l₁, l₂, hnot, hs, hk⟩ := List.exists_of_kerase (AList.mem_keys.mp ha)
    have hlookup : s.lookup a = some b := by
      simp [AList.lookup, hs, List.dlookup_eq_none.mpr hnot, List.dlookup_cons_eq]
    rw [weightAt_of_lookup hlookup]
    simp only [total, AList.erase]
    rw [hk, hs]
    simp only [List.map_append, List.map_cons, List.sum_append, List.sum_cons]
    omega
  · rw [weightAt_of_notMem ha]
    simp [total, AList.erase, List.kerase_of_notMem_keys (AList.mem_keys.not.mp ha)]

theorem total_insert (b : β a) : total w (s.insert a b) = w a b + total w (s.erase a) := by
  simp [total, AList.erase]

theorem total_insert_add (b : β a) :
    total w (s.insert a b) + weightAt w s a = total w s + w a b := by
  have herase := @total_erase_add α β _ w s a
  rw [total_insert]
  omega

theorem weightAt_le_total : weightAt w s a ≤ total w s := by
  have herase := @total_erase_add α β _ w s a
  omega

end RecordSum
