import Mathlib

/-!
# Partial maps as functions to `Option`

A map with keys `α` and values `β` is a function `α → Option β`. Programs that aggregate
statistics combine two such maps in one of two ways:

* `mergeWith f m n` keeps the keys of both and combines the two values of a common key with `f`;
* `overlay m n` keeps `n`'s value where `n` has one and `m`'s elsewhere.

Both are associative with `empty` as identity, and `mergeWith f` is commutative when `f` is.
A one-key update is a combination with a one-key map (`upsert_eq_mergeWith`,
`insertIfAbsent_eq_overlay`), so a loop of updates run from a map `n` is the same loop run from
`empty` and then combined with `n` (`foldl_upsert_eq_mergeWith`,
`foldl_insertIfAbsent_eq_overlay`).
-/

namespace PartialMap

variable {α β γ : Type*}

/-- The map with no keys. -/
def empty : α → Option β := fun _ => none

/-- The keys of both maps; the values of a common key combined by `f`. -/
def mergeWith (f : β → β → β) (m n : α → Option β) : α → Option β :=
  fun a => (m a).merge f (n a)

/-- `n`'s value where it has one, `m`'s elsewhere. -/
def overlay (m n : α → Option β) : α → Option β :=
  fun a => (n a).or (m a)

section Laws

variable {f : β → β → β} {m n p : α → Option β} {a : α}

@[simp] theorem empty_apply : (empty : α → Option β) a = none := rfl

@[simp] theorem mergeWith_apply : mergeWith f m n a = (m a).merge f (n a) := rfl

@[simp] theorem overlay_apply : overlay m n a = (n a).or (m a) := rfl

theorem mergeWith_assoc [Std.Associative f] (m n p : α → Option β) :
    mergeWith f (mergeWith f m n) p = mergeWith f m (mergeWith f n p) := by
  funext a
  exact Std.Associative.assoc (m a) (n a) (p a)

theorem mergeWith_comm [Std.Commutative f] (m n : α → Option β) :
    mergeWith f m n = mergeWith f n m := by
  funext a
  exact Std.Commutative.comm (m a) (n a)

@[simp] theorem mergeWith_empty_left : mergeWith f empty m = m := by
  funext a
  simp

@[simp] theorem mergeWith_empty_right : mergeWith f m empty = m := by
  funext a
  simp

instance [Std.Associative f] : Std.Associative (mergeWith (α := α) f) := ⟨mergeWith_assoc⟩

instance [Std.Commutative f] : Std.Commutative (mergeWith (α := α) f) := ⟨mergeWith_comm⟩

theorem overlay_assoc (m n p : α → Option β) :
    overlay (overlay m n) p = overlay m (overlay n p) := by
  funext a
  simp [Option.or_assoc]

@[simp] theorem overlay_empty_left : overlay empty m = m := by
  funext a
  simp

@[simp] theorem overlay_empty_right : overlay m empty = m := by
  funext a
  simp

/-- Where both maps merge a common operand, the order in which it joins does not matter. -/
theorem mergeWith_right_comm [Std.Associative f] [Std.Commutative f] (m n p : α → Option β) :
    mergeWith f (mergeWith f m n) p = mergeWith f (mergeWith f m p) n := by
  rw [mergeWith_assoc, mergeWith_comm n p, ← mergeWith_assoc]

end Laws

variable [DecidableEq α]

/-- The map with the one key `k`, at `v`. -/
def single (k : α) (v : β) : α → Option β :=
  fun a => if a = k then some v else none

/-- `m.entry(k).and_modify(|e| *e = f(*e, v)).or_insert(v)`. -/
def upsert (f : β → β → β) (m : α → Option β) (k : α) (v : β) : α → Option β :=
  Function.update m k (some ((m k).elim v fun old => f old v))

/-- `m.entry(k).or_insert(v)`: a key already present keeps its value. -/
def insertIfAbsent (m : α → Option β) (k : α) (v : β) : α → Option β :=
  match m k with
  | some _ => m
  | none => Function.update m k (some v)

section Updates

variable {f : β → β → β} {m n : α → Option β} {k : α} {v : β}

@[simp] theorem single_self : single k v k = some v := by
  simp [single]

@[simp] theorem single_of_ne {a : α} (h : a ≠ k) : single k v a = none := by
  simp [single, h]

theorem upsert_eq_mergeWith : upsert f m k v = mergeWith f m (single k v) := by
  funext a
  by_cases h : a = k
  · subst h
    cases hm : m a <;> simp [upsert, hm]
  · simp [upsert, h]

theorem insertIfAbsent_eq_overlay : insertIfAbsent m k v = overlay (single k v) m := by
  funext a
  by_cases h : a = k
  · subst h
    cases hk : m a <;> simp [insertIfAbsent, hk]
  · cases hk : m k <;> simp [insertIfAbsent, hk, h]

/-- `entry(i).or_insert_with(new)` followed by an update of the inner map is an update of the
outer map by the one-key inner map, merged with `mergeWith f`. -/
theorem update_upsert_getD (st : α → Option (γ → Option β)) (i : α) [DecidableEq γ]
    (k : γ) (v : β) :
    Function.update st i (some (upsert f ((st i).getD empty) k v)) =
      upsert (mergeWith f) st i (single k v) := by
  have hinner : upsert f ((st i).getD empty) k v =
      (st i).elim (single k v) fun old => mergeWith f old (single k v) := by
    cases st i <;> simp [upsert_eq_mergeWith]
  rw [hinner]
  rfl

variable (key : γ → α) (val : γ → β)

theorem foldl_upsert_mergeWith [Std.Associative f] [Std.Commutative f] (xs : List γ)
    (m n : α → Option β) :
    xs.foldl (fun acc x => upsert f acc (key x) (val x)) (mergeWith f m n) =
      mergeWith f (xs.foldl (fun acc x => upsert f acc (key x) (val x)) m) n := by
  induction xs generalizing m with
  | nil => rfl
  | cons x xs ih =>
    simp only [List.foldl_cons, upsert_eq_mergeWith] at ih ⊢
    rw [mergeWith_right_comm, ih]

/-- A loop of `upsert`s from `n` is the loop from `empty`, merged with `n`. -/
theorem foldl_upsert_eq_mergeWith [Std.Associative f] [Std.Commutative f] (xs : List γ)
    (n : α → Option β) :
    xs.foldl (fun acc x => upsert f acc (key x) (val x)) n =
      mergeWith f (xs.foldl (fun acc x => upsert f acc (key x) (val x)) empty) n := by
  simpa using foldl_upsert_mergeWith key val xs empty n

theorem foldl_insertIfAbsent_overlay (xs : List γ) (m n : α → Option β) :
    xs.foldl (fun acc x => insertIfAbsent acc (key x) (val x)) (overlay m n) =
      overlay (xs.foldl (fun acc x => insertIfAbsent acc (key x) (val x)) m) n := by
  induction xs generalizing m with
  | nil => rfl
  | cons x xs ih =>
    simp only [List.foldl_cons, insertIfAbsent_eq_overlay] at ih ⊢
    rw [← overlay_assoc, ih]

/-- A loop of `insertIfAbsent`s from `n` is the loop from `empty`, under `n`: what `n` has
wins. -/
theorem foldl_insertIfAbsent_eq_overlay (xs : List γ) (n : α → Option β) :
    xs.foldl (fun acc x => insertIfAbsent acc (key x) (val x)) n =
      overlay (xs.foldl (fun acc x => insertIfAbsent acc (key x) (val x)) empty) n := by
  simpa using foldl_insertIfAbsent_overlay key val xs empty n

end Updates

end PartialMap
