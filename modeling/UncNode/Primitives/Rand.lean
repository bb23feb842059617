import Mathlib
import UncNode.Primitives.U64

/-!
# `WeightedIndex` — Vose's alias method on `u64` weights

`core/primitives/src/rand.rs`. `WeightedIndex::new` scales every weight by the number `n` of
weights, so that a column of the table holds exactly `weight_sum` units. Indices below the
average (`odds < weight_sum`) go on the stack `smalls`, the others on `bigs`; while both are
non-empty, a small index is topped up from a big one, which becomes its alias. `sample` draws a
column and a weight below `weight_sum` from the seed, and picks the column or its alias.

`Power` is `u64`, and both build profiles keep overflow checks, so every addition,
multiplication and subtraction of `new` is checked: an overflow or underflow, like the remainder
by zero of `sample`, is a panic, `none` here. The stacks are lists whose head is the top.
`Vec` indexing is `getD`: every index used is below `n`.

* `PairInv`: the invariant of the pairing loop; `PairInv.pairLoop` keeps it to the end;
* `PairInv.done`: the loop ends with no small index left and every big one at `weight_sum`;
* **`card_choose_eq`**: whenever `new` returns a table, exactly `n * w i` of the
  `n * weight_sum` pairs of a column and a weight select `i`;
* `new_isSome`: `new` returns a table when `n * weight_sum` fits in `u64`;
* `sample_eq_none_of_weightSum_eq_zero`: with weights summing to zero, `sample` always panics.
-/

set_option autoImplicit false

namespace Unc

/-- `u64::from_le_bytes` (and `usize::from_le_bytes` on a 64-bit target). -/
def fromLeBytes (bytes : List UInt8) : Nat :=
  bytes.foldr (fun b acc => b.toNat + 256 * acc) 0

/-! ## The table and its construction -/

/-- `WeightedIndex`. -/
structure WeightedIndex where
  weightSum : Nat
  aliases : List Nat
  noAliasOdds : List Nat
deriving DecidableEq, Repr

/-- `aliases::Aliases`: the alias of each index and the stacks `smalls` and `bigs`. -/
structure Aliases where
  aliases : List Nat
  smalls : List Nat
  bigs : List Nat
deriving DecidableEq, Repr

namespace WeightedIndex

/-- The first loop of `new`: `weight_sum += *w; *w *= n` for every weight. -/
def scaleWeights (n : Nat) : List Nat → Nat → Option (List Nat × Nat)
  | [], weightSum => some ([], weightSum)
  | w :: ws, weightSum => do
    let weightSum ← addU64 weightSum w
    let w' ← mulU64 w n
    let (ws', weightSum) ← scaleWeights n ws weightSum
    pure (w' :: ws', weightSum)

/-- The second loop: every `(odds, index)` goes on `smalls` or on `bigs`. -/
def classify (weightSum : Nat) (a : Aliases) : List (Nat × Nat) → Aliases
  | [] => a
  | (odds, index) :: rest =>
    classify weightSum
      (if odds < weightSum then { a with smalls := index :: a.smalls }
       else { a with bigs := index :: a.bigs }) rest

/-- The loop `while !smalls_is_empty() && !bigs_is_empty()`, with `fuel` turns: the small top
`s` takes the big top `b` as alias, and `b` gives up `weight_sum - odds[s]` of its odds. -/
def pairLoop (weightSum : Nat) : Nat → Aliases → List Nat → Option (Aliases × List Nat)
  | 0, a, odds => some (a, odds)
  | fuel + 1, a, odds =>
    match a.smalls, a.bigs with
    | s :: smalls, b :: bigs => do
      let rest ← subU64 (odds.getD b 0) weightSum
      let oddsB ← addU64 rest (odds.getD s 0)
      let a' : Aliases := { aliases := a.aliases.set s b, smalls := smalls, bigs := bigs }
      pairLoop weightSum fuel
        (if oddsB < weightSum then { a' with smalls := b :: smalls }
         else { a' with bigs := b :: bigs })
        (odds.set b oddsB)
    | _, _ => some (a, odds)

/-- The last two loops: every index left on a stack gets the odds `weight_sum`. -/
def fillOdds (weightSum : Nat) (odds stack : List Nat) : List Nat :=
  stack.foldl (fun odds i => odds.set i weightSum) odds

/-- `WeightedIndex::new`. -/
def new (weights : List Nat) : Option WeightedIndex := do
  let n := weights.length
  let (noAliasOdds, weightSum) ← scaleWeights n weights 0
  let a := classify weightSum ⟨List.replicate n 0, [], []⟩ noAliasOdds.zipIdx
  let (a, noAliasOdds) ← pairLoop weightSum n a noAliasOdds
  let noAliasOdds := fillOdds weightSum noAliasOdds a.smalls
  let noAliasOdds := fillOdds weightSum noAliasOdds a.bigs
  pure { weightSum, aliases := a.aliases, noAliasOdds }

/-- The choice of `sample` for `uniform_index` and `uniform_weight`: the column itself below its
odds, its alias above. -/
def choose (w : WeightedIndex) (uniformIndex uniformWeight : Nat) : Nat :=
  if uniformWeight < w.noAliasOdds.getD uniformIndex 0 then uniformIndex
  else w.aliases.getD uniformIndex 0

/-- `sample(seed)`: the column from the first eight bytes of the seed, the weight from the next
eight; the remainders by `aliases.len()` and by `weight_sum` panic on zero. -/
def sample (w : WeightedIndex) (seed : List UInt8) : Option Nat :=
  let usizeSeed := fromLeBytes (seed.take 8)
  let powerSeed := fromLeBytes ((seed.drop 8).take 8)
  if w.aliases.length = 0 ∨ w.weightSum = 0 then none
  else some (w.choose (usizeSeed % w.aliases.length) (powerSeed % w.weightSum))

-- the table of `test_should_correctly_compute_odds_and_aliases`
example : new [5, 8, 4, 10, 4, 4, 5] =
    some ⟨40, [1, 0, 3, 1, 3, 3, 3], [35, 40, 28, 29, 28, 28, 35]⟩ := by
  decide

/-! ## The steps of `new` -/

theorem getD_set_eq (l : List Nat) (i j v : Nat) :
    (l.set i v).getD j 0 = if i = j ∧ i < l.length then v else l.getD j 0 := by
  simp only [List.getD_eq_getElem?_getD, List.getElem?_set]
  by_cases hij : i = j
  · subst hij
    by_cases hi : i < l.length
    · simp [hi]
    · simp [hi]
  · simp [hij]

theorem scaleWeights_eq_some {n : Nat} :
    ∀ {ws : List Nat} {weightSum : Nat} {r : List Nat × Nat}, scaleWeights n ws weightSum = some r →
      r = (ws.map (· * n), weightSum + ws.sum) ∧ ∀ w ∈ ws, w * n < 2 ^ 64
  | [], _, r, h => by
    cases h
    simp
  | w :: ws, weightSum, r, h => by
    simp only [scaleWeights, addU64, mulU64] at h
    split_ifs at h with h₁ h₂
    · obtain ⟨⟨ws', s'⟩, hr, hr'⟩ := Option.bind_eq_some_iff.mp (by simpa using h)
      cases hr'
      obtain ⟨hws, hb⟩ := scaleWeights_eq_some hr
      cases hws
      refine ⟨by simp [Nat.add_assoc], ?_⟩
      intro x hx
      rcases List.mem_cons.mp hx with rfl | hx
      · exact h₂
      · exact hb x hx
    all_goals simp at h

theorem scaleWeights_isSome (n : Nat) :
    ∀ (ws : List Nat) (weightSum : Nat), weightSum + ws.sum < 2 ^ 64 → (∀ w ∈ ws, w * n < 2 ^ 64) →
      (scaleWeights n ws weightSum).isSome
  | [], _, _, _ => rfl
  | w :: ws, weightSum, hsum, hmul => by
    have h₁ : weightSum + w < 2 ^ 64 := by simp at hsum; omega
    have h₂ : w * n < 2 ^ 64 := hmul w (by simp)
    have hrest := scaleWeights_isSome n ws (weightSum + w)
      (by simp at hsum; omega) (fun x hx => hmul x (List.mem_cons_of_mem w hx))
    obtain ⟨r, hr⟩ := Option.isSome_iff_exists.mp hrest
    unfold scaleWeights addU64 mulU64
    rw [if_pos h₁, if_pos h₂]
    simp [hr]

@[simp] theorem classify_aliases (weightSum : Nat) :
    ∀ (a : Aliases) (l : List (Nat × Nat)), (classify weightSum a l).aliases = a.aliases
  | _, [] => rfl
  | a, (odds, index) :: rest => by
    rw [classify, classify_aliases]
    split_ifs <;> rfl

/-- `classify` puts every index of the list on exactly one stack. -/
theorem classify_perm (weightSum : Nat) :
    ∀ (a : Aliases) (l : List (Nat × Nat)),
      ((classify weightSum a l).smalls ++ (classify weightSum a l).bigs).Perm
        (l.map Prod.snd ++ (a.smalls ++ a.bigs))
  | _, [] => by simp [classify]
  | a, (odds, index) :: rest => by
    rw [classify]
    split_ifs with h
    · refine (classify_perm weightSum _ rest).trans ?_
      simp only [List.map_cons, List.cons_append]
      exact List.perm_middle
    · refine (classify_perm weightSum _ rest).trans ?_
      simp only [List.map_cons]
      exact (List.perm_middle.append_left _).trans List.perm_middle

theorem mem_classify_smalls (weightSum : Nat) :
    ∀ (a : Aliases) (l : List (Nat × Nat)) {j : Nat}, j ∈ (classify weightSum a l).smalls →
      j ∈ a.smalls ∨ ∃ odds, (odds, j) ∈ l ∧ odds < weightSum
  | _, [], _, h => .inl h
  | a, (odds, index) :: rest, j, h => by
    rw [classify] at h
    rcases mem_classify_smalls weightSum _ rest h with h | ⟨o, ho, hlt⟩
    · split_ifs at h with hw
      · rcases List.mem_cons.mp h with rfl | h
        · exact .inr ⟨odds, by simp, hw⟩
        · exact .inl h
      · exact .inl h
    · exact .inr ⟨o, List.mem_cons_of_mem _ ho, hlt⟩

theorem mem_classify_bigs (weightSum : Nat) :
    ∀ (a : Aliases) (l : List (Nat × Nat)) {j : Nat}, j ∈ (classify weightSum a l).bigs →
      j ∈ a.bigs ∨ ∃ odds, (odds, j) ∈ l ∧ weightSum ≤ odds
  | _, [], _, h => .inl h
  | a, (odds, index) :: rest, j, h => by
    rw [classify] at h
    rcases mem_classify_bigs weightSum _ rest h with h | ⟨o, ho, hle⟩
    · split_ifs at h with hw
      · exact .inl h
      · rcases List.mem_cons.mp h with rfl | h
        · exact .inr ⟨odds, by simp, Nat.le_of_not_lt hw⟩
        · exact .inl h
    · exact .inr ⟨o, List.mem_cons_of_mem _ ho, hle⟩

/-! ## The pairing loop -/

section Pairing

variable (n W : Nat) (ws : List Nat)

/-- What the columns off both stacks lend to `i`: such a column `j` sends the weights from its
odds up to `W`, `W - odds[j]` of them, to its alias. -/
def lent (a : Aliases) (odds : List Nat) (i : Nat) : Nat :=
  ∑ j ∈ Finset.range n,
    if j ∉ a.smalls ∧ j ∉ a.bigs ∧ a.aliases.getD j 0 = i then W - odds.getD j 0 else 0

/-- The invariant of `pairLoop` for `n` weights `ws` that sum to `W`: the stacks hold distinct
indices below `n`, the small ones below `W` and the big ones at least `W`, and the columns off
both stacks stay below `W`; the stacked odds average `W`; and the odds of column `i` with what
the other columns lend it make up its `n * ws[i]`. -/
structure PairInv (a : Aliases) (odds : List Nat) : Prop where
  length_odds : odds.length = n
  length_aliases : a.aliases.length = n
  nodup : (a.smalls ++ a.bigs).Nodup
  lt : ∀ j ∈ a.smalls ++ a.bigs, j < n
  small : ∀ j ∈ a.smalls, odds.getD j 0 < W
  big : ∀ j ∈ a.bigs, W ≤ odds.getD j 0
  retired : ∀ j < n, j ∉ a.smalls → j ∉ a.bigs → odds.getD j 0 < W
  bounded : ∀ j, odds.getD j 0 < 2 ^ 64
  total : ((a.smalls ++ a.bigs).map fun j => odds.getD j 0).sum = W * (a.smalls ++ a.bigs).length
  mass : ∀ i < n, n * ws.getD i 0 = odds.getD i 0 + lent n W a odds i

variable {n W ws}

/-- One turn of the loop keeps the invariant, for any placement of `b` that follows its new odds
`v`: `s` leaves the stacks with alias `b`, and `b` keeps `v = odds[b] - W + odds[s]`. -/
theorem PairInv.step {a : Aliases} {odds : List Nat} (h : PairInv n W ws a odds)
    {s b : Nat} {smalls bigs smalls' bigs' : List Nat}
    (hs : a.smalls = s :: smalls) (hb : a.bigs = b :: bigs)
    (hperm : (smalls' ++ bigs').Perm (b :: (smalls ++ bigs)))
    (hsmall : ∀ j ∈ smalls', j = b ∧ odds.getD b 0 - W + odds.getD s 0 < W ∨ j ∈ smalls)
    (hbig : ∀ j ∈ bigs', j = b ∧ W ≤ odds.getD b 0 - W + odds.getD s 0 ∨ j ∈ bigs)
    (hb' : b ∈ smalls' ∨ b ∈ bigs')
    (hcover : ∀ j ∈ smalls ++ bigs, j ∈ smalls' ∨ j ∈ bigs') :
    PairInv n W ws ⟨a.aliases.set s b, smalls', bigs'⟩
      (odds.set b (odds.getD b 0 - W + odds.getD s 0)) := by
  set v := odds.getD b 0 - W + odds.getD s 0 with hv
  -- what the old stacks say about `s` and `b`
  have hnd : (s :: (smalls ++ b :: bigs)).Nodup := by simpa [hs, hb] using h.nodup
  obtain ⟨hsnot, hnd'⟩ := List.nodup_cons.mp hnd
  obtain ⟨hbnot, hnd''⟩ := List.nodup_cons.mp (List.nodup_middle.mp hnd')
  have hsb : s ≠ b := fun hsb => hsnot (by simp [hsb])
  have hsS : s ∉ smalls := fun h' => hsnot (by simp [h'])
  have hsB : s ∉ bigs := fun h' => hsnot (by simp [h'])
  have hbS : b ∉ smalls := fun h' => hbnot (by simp [h'])
  have hbB : b ∉ bigs := fun h' => hbnot (by simp [h'])
  have hsn : s < n := h.lt s (by simp [hs])
  have hbn : b < n := h.lt b (by simp [hb])
  have hos : odds.getD s 0 < W := h.small s (by simp [hs])
  have hob : W ≤ odds.getD b 0 := h.big b (by simp [hb])
  have hodds : ∀ j, (odds.set b v).getD j 0 = if b = j then v else odds.getD j 0 := by
    intro j
    rw [getD_set_eq, h.length_odds]
    simp [hbn]
  have haliases : ∀ j, (a.aliases.set s b).getD j 0 = if s = j then b else a.aliases.getD j 0 := by
    intro j
    rw [getD_set_eq, h.length_aliases]
    simp [hsn]
  -- membership in the new stacks, away from `s`
  have hmem : ∀ j, j ≠ s → ((j ∈ smalls' ∨ j ∈ bigs') ↔ (j ∈ a.smalls ∨ j ∈ a.bigs)) := by
    intro j hjs
    rw [hs, hb]
    constructor
    · rintro (hj | hj)
      · rcases hsmall j hj with ⟨rfl, -⟩ | hj
        · simp
        · simp [hj]
      · rcases hbig j hj with ⟨rfl, -⟩ | hj
        · simp
        · simp [hj]
    · intro hj
      simp only [List.mem_cons] at hj
      rcases hj with (rfl | hj) | (rfl | hj)
      · exact absurd rfl hjs
      · exact hcover j (List.mem_append_left _ hj)
      · exact hb'
      · exact hcover j (List.mem_append_right _ hj)
  have hsmem : s ∉ smalls' ∧ s ∉ bigs' := by
    constructor
    · intro h'
      rcases hsmall s h' with ⟨rfl, -⟩ | h'
      · exact hsb rfl
      · exact hsS h'
    · intro h'
      rcases hbig s h' with ⟨rfl, -⟩ | h'
      · exact hsb rfl
      · exact hsB h'
  -- the lending only gains the turn's `W - odds[s]` at `b`
  have hlent : ∀ i, lent n W ⟨a.aliases.set s b, smalls', bigs'⟩ (odds.set b v) i =
      lent n W a odds i + if b = i then W - odds.getD s 0 else 0 := by
    intro i
    have hterm : ∀ j ∈ Finset.range n,
        (if j ∉ smalls' ∧ j ∉ bigs' ∧ (a.aliases.set s b).getD j 0 = i then
          W - (odds.set b v).getD j 0 else 0) =
        (if j ∉ a.smalls ∧ j ∉ a.bigs ∧ a.aliases.getD j 0 = i then W - odds.getD j 0 else 0) +
          if j = s then (if b = i then W - odds.getD s 0 else 0) else 0 := by
      intro j _
      by_cases hjs : j = s
      · subst hjs
        rw [haliases, hodds, if_pos rfl, if_neg (Ne.symm hsb), if_pos rfl]
        have hin : j ∈ a.smalls := by simp [hs]
        simp only [hsmem.1, hsmem.2, hin, not_true_eq_false, not_false_eq_true, true_and,
          false_and, if_false, Nat.zero_add]
      · rw [if_neg hjs, Nat.add_zero, haliases, if_neg (Ne.symm hjs)]
        have hm := hmem j hjs
        by_cases hin : j ∈ a.smalls ∨ j ∈ a.bigs
        · have hin' := hm.mpr hin
          rw [if_neg (by tauto), if_neg (by tauto)]
        · have hjb : b ≠ j := fun hbj => hin (.inr (by simp [hb, hbj]))
          rw [hodds, if_neg hjb]
          have hout : j ∉ smalls' ∧ j ∉ bigs' := by
            constructor <;> intro h' <;> exact hin (hm.mp (by tauto))
          obtain ⟨hinS, hinB⟩ := not_or.mp hin
          simp only [hout.1, hout.2, hinS, hinB, not_false_eq_true, true_and]
    unfold lent
    rw [Finset.sum_congr rfl hterm, Finset.sum_add_distrib, Finset.sum_ite_eq']
    simp [hsn]
  -- the stacked odds lose `s` and move `b` to `v`
  have hsum : ((smalls ++ bigs).map fun j => (odds.set b v).getD j 0) =
      (smalls ++ bigs).map fun j => odds.getD j 0 := by
    apply List.map_congr_left
    intro j hj
    rw [hodds, if_neg]
    rintro rfl
    exact hbnot hj
  have htotal := h.total
  rw [hs, hb, List.cons_append, List.map_cons, List.sum_cons,
    (List.perm_middle.map _).sum_eq] at htotal
  simp only [List.map_cons, List.sum_cons, List.length_cons, List.length_append] at htotal
  refine
    { length_odds := by rw [List.length_set, h.length_odds]
      length_aliases := by rw [List.length_set, h.length_aliases]
      nodup := hperm.nodup_iff.mpr (List.nodup_cons.mpr ⟨hbnot, hnd''⟩)
      lt := fun j hj => ?_
      small := fun j hj => ?_
      big := fun j hj => ?_
      retired := fun j hj hjS hjB => ?_
      bounded := fun j => ?_
      total := ?_
      mass := fun i hi => ?_ }
  · rcases List.mem_cons.mp (hperm.subset hj) with rfl | hj
    · exact hbn
    · exact h.lt j (by rw [hs, hb]; simp at hj ⊢; tauto)
  · rcases hsmall j hj with ⟨rfl, hlt⟩ | hj
    · rw [hodds, if_pos rfl]
      exact hlt
    · have hjb : b ≠ j := fun hbj => hbS (hbj ▸ hj)
      rw [hodds, if_neg hjb]
      exact h.small j (by simp [hs, hj])
  · rcases hbig j hj with ⟨rfl, hle⟩ | hj
    · rw [hodds, if_pos rfl]
      exact hle
    · have hjb : b ≠ j := fun hbj => hbB (hbj ▸ hj)
      rw [hodds, if_neg hjb]
      exact h.big j (by simp [hb, hj])
  · have hjb : b ≠ j := by
      rintro rfl
      rcases hb' with h' | h'
      · exact hjS h'
      · exact hjB h'
    rw [hodds, if_neg hjb]
    by_cases hjs' : j = s
    · subst hjs'
      exact hos
    · have hout : ¬(j ∈ a.smalls ∨ j ∈ a.bigs) := fun h' => by
        rcases (hmem j hjs').mpr h' with h' | h'
        · exact hjS h'
        · exact hjB h'
      exact h.retired j hj (not_or.mp hout).1 (not_or.mp hout).2
  · rw [hodds]
    split_ifs
    · have := h.bounded b
      omega
    · exact h.bounded j
  · rw [(hperm.map _).sum_eq, List.map_cons, List.sum_cons, hsum, hperm.length_eq,
      List.length_cons]
    rw [hodds, if_pos rfl]
    simp only [List.length_append]
    have hW : W * (smalls.length + (bigs.length + 1) + 1) =
        W * (smalls.length + bigs.length + 1) + W := by ring
    omega
  · have hm := h.mass i hi
    rw [hlent, hodds]
    by_cases hbi : b = i
    · subst hbi
      simp only [if_true]
      omega
    · simp only [hbi, if_false, Nat.add_zero]
      exact hm

/-- **The loop runs to its end within `n` turns** and keeps the invariant: it stops with one
stack empty, and no subtraction or addition of a turn overflows. -/
theorem PairInv.pairLoop : ∀ (fuel : Nat) {a : Aliases} {odds : List Nat},
    PairInv n W ws a odds → (a.smalls ++ a.bigs).length ≤ fuel →
    ∃ a' odds', WeightedIndex.pairLoop W fuel a odds = some (a', odds') ∧
      PairInv n W ws a' odds' ∧ (a'.smalls = [] ∨ a'.bigs = [])
  | 0, a, odds, h, hlen => by
    have hnil : a.smalls = [] := by
      simp only [List.length_append, Nat.le_zero, Nat.add_eq_zero_iff, List.length_eq_zero_iff] at hlen
      exact hlen.1
    exact ⟨a, odds, rfl, h, .inl hnil⟩
  | fuel + 1, a, odds, h, hlen => by
    cases hs : a.smalls with
    | nil => exact ⟨a, odds, by simp [WeightedIndex.pairLoop, hs], h, .inl hs⟩
    | cons s smalls =>
      cases hb : a.bigs with
      | nil => exact ⟨a, odds, by simp [WeightedIndex.pairLoop, hs, hb], h, .inr hb⟩
      | cons b bigs =>
        have hos : odds.getD s 0 < W := h.small s (by simp [hs])
        have hob : W ≤ odds.getD b 0 := h.big b (by simp [hb])
        have hbd := h.bounded b
        have hsub : subU64 (odds.getD b 0) W = some (odds.getD b 0 - W) := by
          unfold subU64
          rw [if_pos hob]
        have hadd : addU64 (odds.getD b 0 - W) (odds.getD s 0) =
            some (odds.getD b 0 - W + odds.getD s 0) := by
          unfold addU64
          rw [if_pos (by omega)]
        -- `b` goes back on the stack that its new odds choose
        have hnext : PairInv n W ws
            (if odds.getD b 0 - W + odds.getD s 0 < W then ⟨a.aliases.set s b, b :: smalls, bigs⟩
             else ⟨a.aliases.set s b, smalls, b :: bigs⟩)
            (odds.set b (odds.getD b 0 - W + odds.getD s 0)) := by
          split_ifs with hv
          · refine h.step hs hb (by simp) ?_ (fun j hj => .inr hj) (.inl (by simp)) ?_
            · intro j hj
              rcases List.mem_cons.mp hj with rfl | hj
              · exact .inl ⟨rfl, hv⟩
              · exact .inr hj
            · intro j hj
              rcases List.mem_append.mp hj with hj | hj
              · exact .inl (List.mem_cons_of_mem _ hj)
              · exact .inr hj
          · refine h.step hs hb List.perm_middle (fun j hj => .inr hj) ?_ (.inr (by simp)) ?_
            · intro j hj
              rcases List.mem_cons.mp hj with rfl | hj
              · exact .inl ⟨rfl, Nat.le_of_not_lt hv⟩
              · exact .inr hj
            · intro j hj
              rcases List.mem_append.mp hj with hj | hj
              · exact .inl hj
              · exact .inr (List.mem_cons_of_mem _ hj)
        have hlen' : (smalls.length + bigs.length + 1) ≤ fuel := by
          rw [hs, hb] at hlen
          simp only [List.length_append, List.length_cons] at hlen
          omega
        obtain ⟨a', odds', heq, h', hdone⟩ := PairInv.pairLoop fuel hnext (by
          split_ifs <;> simp only [List.length_append, List.length_cons] <;> omega)
        refine ⟨a', odds', ?_, h', hdone⟩
        simp only [WeightedIndex.pairLoop, hs, hb, hsub, hadd, Option.bind_eq_bind,
          Option.bind_some]
        rw [← heq]

theorem sum_lt_mul_length {f : Nat → Nat} :
    ∀ {l : List Nat}, l ≠ [] → (∀ x ∈ l, f x < W) → (l.map f).sum < W * l.length
  | [], hne, _ => absurd rfl hne
  | [x], _, h => by simpa using h x (by simp)
  | x :: y :: l, _, h => by
    have hx := h x (by simp)
    have ih := sum_lt_mul_length (l := y :: l) (by simp) fun z hz => h z (List.mem_cons_of_mem x hz)
    simp only [List.map_cons, List.sum_cons, List.length_cons] at ih ⊢
    have hW : W * (l.length + 1 + 1) = W * (l.length + 1) + W := by ring
    omega

theorem mul_length_le_sum {f : Nat → Nat} :
    ∀ {l : List Nat}, (∀ x ∈ l, W ≤ f x) → W * l.length ≤ (l.map f).sum
  | [], _ => by simp
  | y :: l, h => by
    have ih := mul_length_le_sum (l := l) fun z hz => h z (List.mem_cons_of_mem y hz)
    have hy := h y (by simp)
    simp only [List.map_cons, List.sum_cons, List.length_cons]
    have hW : W * (l.length + 1) = W * l.length + W := by ring
    omega

theorem eq_of_sum_eq_mul_length {f : Nat → Nat} :
    ∀ {l : List Nat}, (∀ x ∈ l, W ≤ f x) → (l.map f).sum = W * l.length → ∀ x ∈ l, f x = W
  | [], _, _, x, hx => absurd hx List.not_mem_nil
  | y :: l, h, hsum, x, hx => by
    have hy := h y (by simp)
    have hrest := mul_length_le_sum (l := l) fun z hz => h z (List.mem_cons_of_mem y hz)
    simp only [List.map_cons, List.sum_cons, List.length_cons] at hsum
    have hW : W * (l.length + 1) = W * l.length + W := by ring
    have hfy : f y = W := by omega
    rcases List.mem_cons.mp hx with rfl | hx
    · exact hfy
    · exact eq_of_sum_eq_mul_length (fun z hz => h z (List.mem_cons_of_mem y hz)) (by omega) x hx

/-- When the loop stops, no small index is left and every big one is at exactly `W`: the
stacked odds average `W`, which a stack of small ones alone, or big ones above `W`, cannot. -/
theorem PairInv.done {a : Aliases} {odds : List Nat} (h : PairInv n W ws a odds)
    (hstop : a.smalls = [] ∨ a.bigs = []) : a.smalls = [] ∧ ∀ j ∈ a.bigs, odds.getD j 0 = W := by
  rcases hstop with hs | hb
  · refine ⟨hs, eq_of_sum_eq_mul_length h.big ?_⟩
    simpa [hs] using h.total
  · refine ⟨?_, by simp [hb]⟩
    by_contra hne
    have hlt := sum_lt_mul_length hne h.small
    have ht := h.total
    simp only [hb, List.append_nil] at ht
    omega

end Pairing

/-! ## The table `new` builds -/

/-- `classify` over `odds.zipIdx` stacks every index of `odds` once. -/
theorem classify_zipIdx_perm (weightSum : Nat) (aliases odds : List Nat) :
    ((classify weightSum ⟨aliases, [], []⟩ odds.zipIdx).smalls ++
      (classify weightSum ⟨aliases, [], []⟩ odds.zipIdx).bigs).Perm (List.range odds.length) := by
  have := classify_perm weightSum ⟨aliases, [], []⟩ odds.zipIdx
  simpa [List.zipIdx_map_snd, List.range_eq_range'] using this

theorem map_getD_range (l : List Nat) : (List.range l.length).map (l.getD · 0) = l := by
  apply List.ext_getElem (by simp)
  intro i h₁ h₂
  simp [List.getD_eq_getElem?_getD, List.getElem?_eq_getElem h₂]

/-- The stacks `classify` builds over the scaled weights start the invariant. -/
theorem pairInv_classify {ws : List Nat} (hmul : ∀ w ∈ ws, w * ws.length < 2 ^ 64) :
    PairInv ws.length ws.sum ws
      (classify ws.sum ⟨List.replicate ws.length 0, [], []⟩ (ws.map (· * ws.length)).zipIdx)
      (ws.map (· * ws.length)) := by
  have hperm := classify_zipIdx_perm ws.sum (List.replicate ws.length 0) (ws.map (· * ws.length))
  rw [List.length_map] at hperm
  have hmem : ∀ j, j ∈ (classify ws.sum ⟨List.replicate ws.length 0, [], []⟩
      (ws.map (· * ws.length)).zipIdx).smalls ++ (classify ws.sum ⟨List.replicate ws.length 0, [], []⟩
      (ws.map (· * ws.length)).zipIdx).bigs ↔ j < ws.length := fun j => by
    simpa using hperm.mem_iff
  have hodds : ∀ j, (ws.map (· * ws.length)).getD j 0 = ws.getD j 0 * ws.length := by
    intro j
    simp only [List.getD_eq_getElem?_getD, List.getElem?_map]
    cases ws[j]? <;> simp
  -- an index's entry of `zipIdx` carries its odds
  have hzip : ∀ o j, (o, j) ∈ (ws.map (· * ws.length)).zipIdx →
      (ws.map (· * ws.length)).getD j 0 = o := by
    intro o j h
    rw [List.mem_zipIdx_iff_getElem?] at h
    simp [List.getD_eq_getElem?_getD, h]
  refine
    { length_odds := List.length_map _
      length_aliases := by simp
      nodup := hperm.nodup_iff.mpr List.nodup_range
      lt := fun j hj => (hmem j).mp hj
      small := fun j hj => ?_
      big := fun j hj => ?_
      retired := fun j hj hjs hjb => absurd ((hmem j).mpr hj) (by simp [hjs, hjb])
      bounded := fun j => ?_
      total := ?_
      mass := fun i hi => ?_ }
  · rcases mem_classify_smalls _ _ _ hj with h | ⟨o, ho, hlt⟩
    · simp at h
    · rw [hzip o j ho]
      exact hlt
  · rcases mem_classify_bigs _ _ _ hj with h | ⟨o, ho, hle⟩
    · simp at h
    · rw [hzip o j ho]
      exact hle
  · rw [hodds]
    by_cases hj : j < ws.length
    · rw [List.getD_eq_getElem?_getD, List.getElem?_eq_getElem hj, Option.getD_some]
      exact hmul _ (List.getElem_mem hj)
    · rw [List.getD_eq_getElem?_getD, List.getElem?_eq_none (Nat.le_of_not_lt hj)]
      simp
  · have hsum : ((List.range ws.length).map fun j => (ws.map (· * ws.length)).getD j 0).sum =
        ws.sum * ws.length := by
      have := map_getD_range (ws.map (· * ws.length))
      rw [List.length_map] at this
      rw [this, List.sum_map_mul_right, List.map_id']
    rw [(hperm.map _).sum_eq, hperm.length_eq, List.length_range, hsum, Nat.mul_comm]
  · have hzero : lent ws.length ws.sum (classify ws.sum ⟨List.replicate ws.length 0, [], []⟩
        (ws.map (· * ws.length)).zipIdx) (ws.map (· * ws.length)) i = 0 := by
      apply Finset.sum_eq_zero
      intro j hj
      have := (hmem j).mpr (Finset.mem_range.mp hj)
      rw [if_neg]
      rcases List.mem_append.mp this with h | h <;> simp [h]
    rw [hzero, hodds, Nat.add_zero, Nat.mul_comm]

theorem set_self_of_getD {l : List Nat} {i v : Nat} (hi : i < l.length) (hv : l.getD i 0 = v) :
    l.set i v = l := by
  subst hv
  rw [List.getD_eq_getElem?_getD, List.getElem?_eq_getElem hi, Option.getD_some]
  exact List.set_getElem_self hi

/-- The last loops change nothing when every index left on the stack is at `W` already. -/
theorem fillOdds_of_forall {W : Nat} :
    ∀ {odds stack : List Nat}, (∀ j ∈ stack, j < odds.length ∧ odds.getD j 0 = W) →
      fillOdds W odds stack = odds
  | _, [], _ => rfl
  | odds, i :: is, h => by
    have hi := h i (by simp)
    rw [fillOdds, List.foldl_cons, set_self_of_getD hi.1 hi.2]
    exact fillOdds_of_forall fun j hj => h j (List.mem_cons_of_mem i hj)

/-- What `new` returns: the sum of the weights, and the odds and aliases of a pairing loop that
ran to its end, with no small index left and every big one at the sum. -/
theorem new_eq_some {ws : List Nat} {w : WeightedIndex} (h : new ws = some w) :
    w.weightSum = ws.sum ∧ ∃ a : Aliases, PairInv ws.length ws.sum ws a w.noAliasOdds ∧
      w.aliases = a.aliases ∧ a.smalls = [] ∧ ∀ j ∈ a.bigs, w.noAliasOdds.getD j 0 = ws.sum := by
  unfold new at h
  cases hsc : scaleWeights ws.length ws 0 with
  | none => simp [hsc] at h
  | some r =>
    obtain ⟨rfl, hmul⟩ := scaleWeights_eq_some hsc
    have hinv := pairInv_classify hmul
    have hlen := (classify_zipIdx_perm ws.sum (List.replicate ws.length 0)
      (ws.map (· * ws.length))).length_eq
    obtain ⟨a', odds', hloop, h', hstop⟩ := hinv.pairLoop ws.length (by simp [hlen])
    obtain ⟨hsm, hbig⟩ := h'.done hstop
    simp only [hsc, Nat.zero_add, Option.bind_eq_bind, Option.bind_some, hloop] at h
    -- both stacks are left as they are: the small one is empty, the big one at `weight_sum`
    have hfill : fillOdds ws.sum (fillOdds ws.sum odds' a'.smalls) a'.bigs = odds' := by
      rw [hsm]
      exact fillOdds_of_forall fun j hj => ⟨h'.length_odds ▸ h'.lt j (by simp [hj]), hbig j hj⟩
    rw [hfill] at h
    cases h
    exact ⟨rfl, a', h', rfl, hsm, hbig⟩

/-- Column `j` of the table: of the weights below `weight_sum`, those below the column's odds
select `j` and the others its alias. -/
theorem card_filter_choose (w : WeightedIndex) (j i : Nat)
    (hle : w.noAliasOdds.getD j 0 ≤ w.weightSum) :
    ((Finset.range w.weightSum).filter fun uw => w.choose j uw = i).card =
      (if j = i then w.noAliasOdds.getD j 0 else 0) +
        if w.aliases.getD j 0 = i then w.weightSum - w.noAliasOdds.getD j 0 else 0 := by
  rw [Finset.card_filter]
  have hsplit : Finset.range w.weightSum =
      Finset.range (w.noAliasOdds.getD j 0 + (w.weightSum - w.noAliasOdds.getD j 0)) := by
    rw [Nat.add_sub_cancel' hle]
  have hbelow : ∀ x ∈ Finset.range (w.noAliasOdds.getD j 0),
      (if w.choose j x = i then 1 else 0) = if j = i then 1 else 0 := by
    intro x hx
    rw [choose, if_pos (Finset.mem_range.mp hx)]
  have habove : ∀ x ∈ Finset.range (w.weightSum - w.noAliasOdds.getD j 0),
      (if w.choose j (w.noAliasOdds.getD j 0 + x) = i then 1 else 0) =
        if w.aliases.getD j 0 = i then 1 else 0 := by
    intro x _
    rw [choose, if_neg (show ¬w.noAliasOdds.getD j 0 + x < w.noAliasOdds.getD j 0 by omega)]
  rw [hsplit, Finset.sum_range_add, Finset.sum_congr rfl hbelow, Finset.sum_congr rfl habove]
  split_ifs <;> simp

/-- **The alias table is exact.** For weights `ws` on which `new` does not panic, exactly
`n * ws[i]` of the `n * weight_sum` pairs `(uniform_index, uniform_weight)` in
`[0, n) × [0, weight_sum)` make `sample` choose the index `i`. -/
theorem card_choose_eq {ws : List Nat} {w : WeightedIndex} (h : new ws = some w) {i : Nat}
    (hi : i < ws.length) :
    ((Finset.range ws.length ×ˢ Finset.range w.weightSum).filter
      fun p => w.choose p.1 p.2 = i).card = ws.length * ws.getD i 0 := by
  obtain ⟨hW, a, hinv, hal, hsm, hbig⟩ := new_eq_some h
  -- no column holds more than `weight_sum`
  have hle : ∀ j < ws.length, w.noAliasOdds.getD j 0 ≤ w.weightSum := by
    intro j hj
    rw [hW]
    by_cases hjb : j ∈ a.bigs
    · exact (hbig j hjb).le
    · exact (hinv.retired j hj (by simp [hsm]) hjb).le
  have hcol : ∀ j ∈ Finset.range ws.length,
      ∑ uw ∈ Finset.range w.weightSum, (if w.choose j uw = i then 1 else 0) =
        (if j = i then w.noAliasOdds.getD j 0 else 0) +
          if w.aliases.getD j 0 = i then w.weightSum - w.noAliasOdds.getD j 0 else 0 := by
    intro j hj
    rw [← Finset.card_filter]
    exact card_filter_choose w j i (hle j (Finset.mem_range.mp hj))
  -- the alias parts of the columns are what the retired columns lend to `i`
  have hlent : ∑ j ∈ Finset.range ws.length,
      (if w.aliases.getD j 0 = i then w.weightSum - w.noAliasOdds.getD j 0 else 0) =
        lent ws.length ws.sum a w.noAliasOdds i := by
    apply Finset.sum_congr rfl
    intro j _
    rw [hal, hW]
    by_cases hjb : j ∈ a.bigs
    · rw [hbig j hjb, Nat.sub_self]
      simp [hjb]
    · simp [hsm, hjb]
  rw [Finset.card_filter, Finset.sum_product]
  dsimp only
  rw [Finset.sum_congr rfl hcol, Finset.sum_add_distrib, Finset.sum_ite_eq',
    if_pos (Finset.mem_range.mpr hi), hlent, hinv.mass i hi]

/-- **`new` does not overflow** when `n` times the sum of the weights fits in `u64`. -/
theorem new_isSome {ws : List Nat} (h : ws.length * ws.sum < 2 ^ 64) : (new ws).isSome := by
  have hmul : ∀ w ∈ ws, w * ws.length < 2 ^ 64 := by
    intro w hw
    calc w * ws.length ≤ ws.sum * ws.length := Nat.mul_le_mul_right _ (List.le_sum_of_mem hw)
      _ = ws.length * ws.sum := Nat.mul_comm _ _
      _ < 2 ^ 64 := h
  have hsum : 0 + ws.sum < 2 ^ 64 := by
    cases ws with
    | nil => simp
    | cons x xs =>
      have : (x :: xs).sum ≤ (x :: xs).length * (x :: xs).sum :=
        Nat.le_mul_of_pos_left _ (by simp)
      omega
  obtain ⟨r, hsc⟩ := Option.isSome_iff_exists.mp (scaleWeights_isSome ws.length ws 0 hsum hmul)
  obtain ⟨rfl, -⟩ := scaleWeights_eq_some hsc
  have hlen := (classify_zipIdx_perm ws.sum (List.replicate ws.length 0)
    (ws.map (· * ws.length))).length_eq
  obtain ⟨a', odds', hloop, -, -⟩ := (pairInv_classify hmul).pairLoop ws.length (by simp [hlen])
  simp [new, hsc, hloop]

/-- With weights summing to zero, every draw panics on `% weight_sum`. -/
theorem sample_eq_none_of_weightSum_eq_zero {w : WeightedIndex} (hw : w.weightSum = 0)
    (seed : List UInt8) : w.sample seed = none := by
  simp [sample, hw]


end WeightedIndex

end Unc
