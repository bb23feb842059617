import Mathlib

/-!
# The seat threshold

`find_threshold` (`chain/epoch-manager/src/proposals.rs`) finds the pledge per seat of the old
validator selection by a binary search on `u128`: `left` always has enough seats, `right` too
few, and the loop stops when they are adjacent. The old `proposals_to_epoch_info` then repeats
each proposal of at least the threshold `pledge / threshold` times and asserts that this gives
every seat a proposal.

The release profile keeps `overflow-checks` on, so every `u128` addition may panic (`none`).

* `reachesSeats_eq`: the early-exiting inner loop decides `num_seats ≤ Σ p / mid`;
* `ThresholdInv.step`, `thresholdLoop_spec`: the step and run lemmas of the search;
* **`find_threshold_greatest`**: `find_threshold` fails exactly when the pledges are fewer than
  the seats, and otherwise returns the largest threshold, as long as `2 * Σ p < 2 ^ 128`;
* **`find_threshold_mid_overflow`**: with a larger sum `left + right` can overflow.
-/

set_option autoImplicit false

namespace Unc

namespace Proposals

/-- `a + b` on `u128`. -/
def addU128 (a b : Nat) : Option Nat :=
  if a + b < 2 ^ 128 then some (a + b) else none

/-- `EpochError::ThresholdError`. -/
inductive EpochError where
  | thresholdError (pledgeSum numSeats : Nat)
  deriving DecidableEq, Repr

/-- `pledges.iter().sum()`. -/
def pledgeSum (pledges : List Nat) : Option Nat :=
  pledges.foldlM addU128 0

/-- The `for` loop of `find_threshold`: `true` when the running sum of `item / mid` reaches
`num_seats` (the `continue 'outer` after `left = mid`), `false` when the pledges run out. -/
def reachesSeats (mid numSeats : Nat) : List Nat → Nat → Option Bool
  | [], _ => some false
  | item :: rest, currentSum =>
    (addU128 currentSum (item / mid)).bind fun currentSum =>
      if numSeats ≤ currentSum then some true else reachesSeats mid numSeats rest currentSum

/-- The `'outer` loop, with `fuel` passes; `find_threshold` gives it as many as the initial
distance from `left` to `right`, which each pass shrinks. -/
def thresholdLoop (pledges : List Nat) (numSeats : Nat) : Nat → Nat → Nat → Option Nat
  | 0, _, _ => none
  | fuel + 1, left, right =>
    if left = right - 1 then some left
    else
      (addU128 left right).bind fun s =>
        (reachesSeats (s / 2) numSeats pledges 0).bind fun enough =>
          if enough then thresholdLoop pledges numSeats fuel (s / 2) right
          else thresholdLoop pledges numSeats fuel left (s / 2)

/-- `find_threshold`. -/
def findThreshold (pledges : List Nat) (numSeats : Nat) : Option (Except EpochError Nat) :=
  (pledgeSum pledges).bind fun pledgeSum =>
    if pledgeSum < numSeats then some (.error (.thresholdError pledgeSum numSeats))
    else (addU128 pledgeSum 1).bind fun right =>
      (thresholdLoop pledges numSeats pledgeSum 1 right).map .ok

/-- `dup_proposals` of the old `proposals_to_epoch_info`: the indices of the proposals of at least
`threshold`, each repeated `pledge / threshold` times. -/
def dupProposals (pledges : List Nat) (threshold : Nat) : List Nat :=
  ((pledges.filter (threshold ≤ ·)).zipIdx).flatMap fun (p, i) => List.replicate (p / threshold) i

/-- The seats the pledges fill at pledge `t` per seat. -/
def seatsAt (pledges : List Nat) (t : Nat) : Nat :=
  (pledges.map (· / t)).sum

/-! ## Sums -/

theorem foldlM_addU128 (pledges : List Nat) :
    ∀ acc, acc + pledges.sum < 2 ^ 128 → pledges.foldlM addU128 acc = some (acc + pledges.sum) := by
  induction pledges with
  | nil => intro acc _; rfl
  | cons p ps ih =>
    intro acc h
    rw [List.sum_cons] at h
    rw [List.foldlM_cons, addU128, if_pos (by omega), Option.bind_eq_bind, Option.bind_some,
      ih (acc + p) (by omega), List.sum_cons, Nat.add_assoc]

theorem pledgeSum_eq {pledges : List Nat} (h : pledges.sum < 2 ^ 128) :
    pledgeSum pledges = some pledges.sum := by
  have h := foldlM_addU128 pledges 0 (by omega)
  rwa [Nat.zero_add] at h

@[simp] theorem seatsAt_nil (t : Nat) : seatsAt [] t = 0 := rfl

@[simp] theorem seatsAt_cons (p : Nat) (ps : List Nat) (t : Nat) :
    seatsAt (p :: ps) t = p / t + seatsAt ps t := by simp [seatsAt]

theorem seatsAt_one (pledges : List Nat) : seatsAt pledges 1 = pledges.sum := by
  simp [seatsAt]

theorem seatsAt_le_sum (pledges : List Nat) (t : Nat) : seatsAt pledges t ≤ pledges.sum := by
  induction pledges with
  | nil => rfl
  | cons p ps ih =>
    rw [seatsAt_cons, List.sum_cons]
    exact Nat.add_le_add (Nat.div_le_self p t) ih

/-- Fewer seats at a larger threshold. -/
theorem seatsAt_anti (pledges : List Nat) {t t' : Nat} (ht : 0 < t) (h : t ≤ t') :
    seatsAt pledges t' ≤ seatsAt pledges t := by
  induction pledges with
  | nil => rfl
  | cons p ps ih =>
    rw [seatsAt_cons, seatsAt_cons]
    exact Nat.add_le_add (Nat.div_le_div_left h ht) ih

theorem seatsAt_eq_zero {pledges : List Nat} {t : Nat} (h : pledges.sum < t) :
    seatsAt pledges t = 0 := by
  induction pledges with
  | nil => rfl
  | cons p ps ih =>
    rw [List.sum_cons] at h
    rw [seatsAt_cons, Nat.div_eq_of_lt (by omega), ih (by omega)]

/-- The proposals under the threshold fill no seat. -/
theorem seatsAt_filter (pledges : List Nat) (t : Nat) :
    ((pledges.filter (t ≤ ·)).map (· / t)).sum = seatsAt pledges t := by
  induction pledges with
  | nil => rfl
  | cons p ps ih =>
    by_cases hp : t ≤ p
    · simp [hp, ih]
    · simp [hp, ih, Nat.div_eq_of_lt (Nat.lt_of_not_le hp)]

/-- `dup_proposals` has one entry per seat the pledges fill. -/
theorem length_dupProposals (pledges : List Nat) (t : Nat) :
    (dupProposals pledges t).length = seatsAt pledges t := by
  have hmap : ((pledges.filter (t ≤ ·)).zipIdx.map fun x : Nat × Nat => x.1 / t) =
      (pledges.filter (t ≤ ·)).map (· / t) := by
    rw [show (fun x : Nat × Nat => x.1 / t) = (· / t) ∘ Prod.fst from rfl, ← List.map_map,
      List.zipIdx_map_fst]
  simp only [dupProposals, List.length_flatMap, List.length_replicate, hmap, seatsAt_filter]

/-! ## The inner loop -/

/-- The early exit of the inner loop does not change what it decides, since the running sums only
grow. -/
theorem reachesSeats_eq (mid numSeats : Nat) (rest : List Nat) :
    ∀ currentSum, currentSum < numSeats → currentSum + seatsAt rest mid < 2 ^ 128 →
      reachesSeats mid numSeats rest currentSum =
        some (decide (numSeats ≤ currentSum + seatsAt rest mid)) := by
  induction rest with
  | nil => intro currentSum hlt _; simp [reachesSeats, hlt]
  | cons item rest ih =>
    intro currentSum hlt hbound
    rw [seatsAt_cons] at hbound ⊢
    rw [reachesSeats, addU128, if_pos (by omega), Option.bind_some]
    by_cases henough : numSeats ≤ currentSum + item / mid
    · rw [if_pos henough]
      exact congrArg some (decide_eq_true (by omega)).symm
    · rw [if_neg henough, ih _ (by omega) (by omega), Nat.add_assoc]

/-! ## The search -/

section Search

variable {pledges : List Nat} {numSeats : Nat}

/-- The invariant of the `'outer` loop: `left` fills the seats and `right` does not. -/
structure ThresholdInv (pledges : List Nat) (numSeats left right : Nat) : Prop where
  one_le : 1 ≤ left
  lt : left < right
  le_sum : right ≤ pledges.sum + 1
  enough : numSeats ≤ seatsAt pledges left
  short : seatsAt pledges right < numSeats

theorem thresholdInv_init (hseats : 1 ≤ numSeats) (hle : numSeats ≤ pledges.sum) :
    ThresholdInv pledges numSeats 1 (pledges.sum + 1) where
  one_le := le_rfl
  lt := by omega
  le_sum := le_rfl
  enough := by rw [seatsAt_one]; exact hle
  short := by rw [seatsAt_eq_zero (by omega)]; omega

/-- Once the ends are adjacent, `left` is the largest threshold that fills the seats. -/
theorem ThresholdInv.isGreatest {left right : Nat} (h : ThresholdInv pledges numSeats left right)
    (hstop : left = right - 1) :
    IsGreatest {t | 1 ≤ t ∧ numSeats ≤ seatsAt pledges t} left := by
  refine ⟨⟨h.one_le, h.enough⟩, fun t ht => ?_⟩
  have hlr := h.lt
  by_contra hlt
  have hanti := seatsAt_anti pledges (by omega : 0 < right) (by omega : right ≤ t)
  have := h.short
  have := ht.2
  omega

/-- The step lemma: a pass that does not stop moves one end to the midpoint, without overflow,
and keeps the invariant. -/
theorem ThresholdInv.step (hsum : 2 * pledges.sum < 2 ^ 128) (hseats : 1 ≤ numSeats)
    {left right : Nat} (h : ThresholdInv pledges numSeats left right) (hne : left ≠ right - 1)
    (fuel : Nat) :
    ∃ left' right', ThresholdInv pledges numSeats left' right' ∧ right' - left' < right - left ∧
      thresholdLoop pledges numSeats (fuel + 1) left right =
        thresholdLoop pledges numSeats fuel left' right' := by
  have hlt := h.lt
  have hright := h.le_sum
  have hadd : addU128 left right = some (left + right) := if_pos (by omega)
  have hreach := reachesSeats_eq ((left + right) / 2) numSeats pledges 0 (by omega)
    (by have := seatsAt_le_sum pledges ((left + right) / 2); omega)
  rw [thresholdLoop, if_neg hne, hadd, Option.bind_some, hreach, Option.bind_some, Nat.zero_add]
  by_cases henough : numSeats ≤ seatsAt pledges ((left + right) / 2)
  · refine ⟨(left + right) / 2, right, ⟨by omega, by omega, hright, henough, h.short⟩, by omega, ?_⟩
    simp [henough]
  · refine ⟨left, (left + right) / 2, ⟨h.one_le, by omega, by omega, h.enough, by omega⟩, by omega,
      ?_⟩
    simp [henough]

/-- The run lemma: from the invariant, with as many passes as the ends are apart, the loop returns
the largest threshold. -/
theorem thresholdLoop_spec (hsum : 2 * pledges.sum < 2 ^ 128) (hseats : 1 ≤ numSeats)
    (fuel : Nat) : ∀ left right, ThresholdInv pledges numSeats left right → right - left ≤ fuel →
      ∃ t, thresholdLoop pledges numSeats fuel left right = some t ∧
        IsGreatest {t | 1 ≤ t ∧ numSeats ≤ seatsAt pledges t} t := by
  induction fuel with
  | zero => intro left right h hfuel; exact absurd h.lt (by omega)
  | succ fuel ih =>
    intro left right h hfuel
    by_cases hstop : left = right - 1
    · exact ⟨left, by rw [thresholdLoop, if_pos hstop], h.isGreatest hstop⟩
    · obtain ⟨left', right', h', hgap, hpass⟩ := h.step hsum hseats hstop fuel
      rw [hpass]
      exact ih left' right' h' (by omega)

end Search

/-- `find_threshold` fails exactly when the pledges are fewer than the seats; otherwise it returns
the largest threshold that fills them, and the old selection's `dup_proposals` has an entry for
every seat. -/
theorem find_threshold_greatest (pledges : List Nat) (numSeats : Nat) (hseats : 1 ≤ numSeats)
    (hsum : 2 * pledges.sum < 2 ^ 128) :
    (pledges.sum < numSeats →
      findThreshold pledges numSeats = some (.error (.thresholdError pledges.sum numSeats))) ∧
    (numSeats ≤ pledges.sum → ∃ t, findThreshold pledges numSeats = some (.ok t) ∧
      IsGreatest {t | 1 ≤ t ∧ numSeats ≤ seatsAt pledges t} t ∧
      numSeats ≤ (dupProposals pledges t).length) := by
  have hpledgeSum := pledgeSum_eq (by omega : pledges.sum < 2 ^ 128)
  refine ⟨fun hlt => ?_, fun hle => ?_⟩
  · rw [findThreshold, hpledgeSum, Option.bind_some, if_pos hlt]
  · obtain ⟨t, hloop, hgreatest⟩ := thresholdLoop_spec hsum hseats pledges.sum 1
      (pledges.sum + 1) (thresholdInv_init hseats hle) (by omega)
    refine ⟨t, ?_, hgreatest, ?_⟩
    · rw [findThreshold, hpledgeSum, Option.bind_some, if_neg (by omega), addU128, if_pos (by omega),
        Option.bind_some, hloop, Option.map_some]
    · rw [length_dupProposals]
      exact hgreatest.1.2

/-- Pledges `3, 5, 2` and four seats: the threshold is `2`. -/
theorem find_threshold_greatest_sample :
    1 ≤ 4 ∧ 2 * [3, 5, 2].sum < 2 ^ 128 ∧
      ([3, 5, 2].sum < 4 →
        findThreshold [3, 5, 2] 4 = some (.error (.thresholdError [3, 5, 2].sum 4))) ∧
      (4 ≤ [3, 5, 2].sum → ∃ t, findThreshold [3, 5, 2] 4 = some (.ok t) ∧
        IsGreatest {t | 1 ≤ t ∧ 4 ≤ seatsAt [3, 5, 2] t} t ∧
        4 ≤ (dupProposals [3, 5, 2] t).length) :=
  ⟨by decide, by decide, find_threshold_greatest [3, 5, 2] 4 (by decide) (by decide)⟩

/-- A sum of `u128::MAX - 1` fits, but the first `left + right` is `2 ^ 128`: the search panics. -/
theorem find_threshold_mid_overflow :
    [2 ^ 128 - 2].sum < 2 ^ 128 - 1 ∧ findThreshold [2 ^ 128 - 2] 1 = none := by
  decide

end Proposals

end Unc
