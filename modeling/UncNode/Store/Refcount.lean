import Mathlib
import UncNode.Lib.LittleEndian

/-!
# Reference counted values

The reference counted columns (`core/store/src/db/refcount.rs`) store a value followed by its
reference count as a little-endian `i64`. RocksDB merges the values of a key with
`refcount_merge`, as a full and as a partial merge operator, so it may group the operands of a
key in any way.

The release profile keeps `overflow-checks` on, so the `rc += delta` of `refcount_merge` panics
when the sum leaves `i64` (`none` below).

* `refcountMerge_eq`: when every positive count carries the payload `P` and the counts' absolute
  values add up to less than `2 ^ 63`, the merge is the payload `P` with the sum of the counts;
* **`refcount_merge_associative`**: so the three groupings agree and decode to the sum;
* **`refcount_merge_grouping_overflow`**: with larger counts one grouping panics where another
  does not.
-/

set_option autoImplicit false

namespace Unc

namespace Refcount

/-- `i64::from_le_bytes`. -/
def i64FromLeBytes (tail : List UInt8) : Int := LittleEndian.ofBytesSigned tail

/-- `i64::to_le_bytes`. -/
def i64ToLeBytes (x : Int) : List UInt8 := LittleEndian.toBytesSigned 8 x

/-- The values of `i64`. -/
def InI64 (x : Int) : Prop := -2 ^ 63 ≤ x ∧ x < 2 ^ 63

instance (x : Int) : Decidable (InI64 x) := inferInstanceAs (Decidable (_ ∧ _))

/-- `i64` addition with `overflow-checks`: `none` is the panic. -/
def checkedAddI64 (a b : Int) : Option Int :=
  if InI64 (a + b) then some (a + b) else none

/-- `split_last_chunk::<8>`: the bytes before the last eight and the last eight. -/
def splitLastChunk (bytes : List UInt8) : Option (List UInt8 × List UInt8) :=
  if 8 ≤ bytes.length then some (bytes.take (bytes.length - 8), bytes.drop (bytes.length - 8))
  else none

/-- `decode_value_with_rc`: a payload only for a positive count; fewer than eight bytes (the
empty value, or what the `debug_assert!` rejects) decode as no payload and count zero. -/
def decodeValueWithRc (bytes : List UInt8) : Option (List UInt8) × Int :=
  match splitLastChunk bytes with
  | none => (none, 0)
  | some (head, tail) =>
    let rc := i64FromLeBytes tail
    if rc ≤ 0 then (none, rc) else (some head, rc)

/-- A `NonZeroU32`. -/
def NonZeroU32 : Type := { n : Nat // 0 < n ∧ n < 2 ^ 32 }

/-- `add_positive_refcount`. -/
def addPositiveRefcount (data : List UInt8) (rc : NonZeroU32) : List UInt8 :=
  data ++ i64ToLeBytes rc.1

/-- `encode_negative_refcount`. -/
def encodeNegativeRefcount (rc : NonZeroU32) : List UInt8 :=
  i64ToLeBytes (-rc.1)

/-- One pass of the loop of `refcount_merge`: keep the first payload and add the count. -/
def mergeOperand (acc : Option (List UInt8) × Int) (operand : List UInt8) :
    Option (Option (List UInt8) × Int) :=
  let (newPayload, delta) := decodeValueWithRc operand
  let payload := if acc.1.isNone then newPayload else acc.1
  (checkedAddI64 acc.2 delta).map fun rc => (payload, rc)

/-- The value `refcount_merge` writes for a payload and a summed count. -/
def encodeMerged (payload : Option (List UInt8)) (rc : Int) : List UInt8 :=
  match compare rc 0 with
  | .lt => i64ToLeBytes rc
  | .eq => []
  | .gt => payload.getD [] ++ i64ToLeBytes rc

/-- `refcount_merge`. -/
def refcountMerge (existing : Option (List UInt8)) (operands : List (List UInt8)) :
    Option (List UInt8) :=
  (operands.foldlM mergeOperand ((existing.map decodeValueWithRc).getD (none, 0))).map
    fun acc => encodeMerged acc.1 acc.2

/-- The sum of the counts of some values. -/
def rcTotal (values : List (List UInt8)) : Int :=
  (values.map fun v => (decodeValueWithRc v).2).sum

/-- The sum of the absolute values of the counts of some values. -/
def rcAbsTotal (values : List (List UInt8)) : Nat :=
  (values.map fun v => (decodeValueWithRc v).2.natAbs).sum

@[simp] theorem rcTotal_nil : rcTotal [] = 0 := rfl
@[simp] theorem rcTotal_cons (v : List UInt8) (vs : List (List UInt8)) :
    rcTotal (v :: vs) = (decodeValueWithRc v).2 + rcTotal vs := by simp [rcTotal]
@[simp] theorem rcTotal_append (vs ws : List (List UInt8)) :
    rcTotal (vs ++ ws) = rcTotal vs + rcTotal ws := by simp [rcTotal]
@[simp] theorem rcAbsTotal_nil : rcAbsTotal [] = 0 := rfl
@[simp] theorem rcAbsTotal_cons (v : List UInt8) (vs : List (List UInt8)) :
    rcAbsTotal (v :: vs) = (decodeValueWithRc v).2.natAbs + rcAbsTotal vs := by simp [rcAbsTotal]
@[simp] theorem rcAbsTotal_append (vs ws : List (List UInt8)) :
    rcAbsTotal (vs ++ ws) = rcAbsTotal vs + rcAbsTotal ws := by simp [rcAbsTotal]

section Decode

theorem splitLastChunk_append {head tail : List UInt8} (h : tail.length = 8) :
    splitLastChunk (head ++ tail) = some (head, tail) := by
  simp [splitLastChunk, h]

@[simp] theorem length_i64ToLeBytes (x : Int) : (i64ToLeBytes x).length = 8 :=
  LittleEndian.length_toBytesSigned 8 x

theorem i64FromLeBytes_i64ToLeBytes {x : Int} (hx : InI64 x) :
    i64FromLeBytes (i64ToLeBytes x) = x :=
  LittleEndian.ofBytesSigned_toBytesSigned (by decide) hx.1 hx.2

theorem decodeValueWithRc_append (head : List UInt8) {x : Int} (hx : InI64 x) :
    decodeValueWithRc (head ++ i64ToLeBytes x) = (if x ≤ 0 then none else some head, x) := by
  simp only [decodeValueWithRc, splitLastChunk_append (length_i64ToLeBytes x),
    i64FromLeBytes_i64ToLeBytes hx]
  by_cases h : x ≤ 0 <;> simp [h]

theorem decodeValueWithRc_nil : decodeValueWithRc [] = (none, 0) := rfl

/-- `add_positive_refcount` writes a value that decodes to its data and count. -/
theorem decodeValueWithRc_addPositiveRefcount (data : List UInt8) (rc : NonZeroU32) :
    decodeValueWithRc (addPositiveRefcount data rc) = (some data, (rc.1 : Int)) := by
  have hrc : InI64 (rc.1 : Int) := by unfold InI64; have := rc.2; omega
  rw [addPositiveRefcount, decodeValueWithRc_append data hrc, if_neg (by have := rc.2; omega)]

/-- `encode_negative_refcount` writes a value that decodes to its negative count. -/
theorem decodeValueWithRc_encodeNegativeRefcount (rc : NonZeroU32) :
    decodeValueWithRc (encodeNegativeRefcount rc) = (none, -(rc.1 : Int)) := by
  have hrc : InI64 (-(rc.1 : Int)) := by unfold InI64; have := rc.2; omega
  rw [encodeNegativeRefcount, ← List.nil_append (i64ToLeBytes _), decodeValueWithRc_append [] hrc,
    if_pos (by omega)]

theorem decodeValueWithRc_payload_eq_none_iff (v : List UInt8) :
    (decodeValueWithRc v).1 = none ↔ (decodeValueWithRc v).2 ≤ 0 := by
  unfold decodeValueWithRc
  split
  · simp
  next head tail _ => by_cases h : i64FromLeBytes tail ≤ 0 <;> simp [h]

theorem encodeMerged_of_neg (payload : Option (List UInt8)) {x : Int} (h : x < 0) :
    encodeMerged payload x = i64ToLeBytes x := by
  simp [encodeMerged, compare_lt_iff_lt.mpr h]

theorem encodeMerged_zero (payload : Option (List UInt8)) : encodeMerged payload 0 = [] := rfl

theorem encodeMerged_of_pos (payload : Option (List UInt8)) {x : Int} (h : 0 < x) :
    encodeMerged payload x = payload.getD [] ++ i64ToLeBytes x := by
  simp [encodeMerged, compare_gt_iff_gt.mpr h]

/-- What `refcount_merge` writes decodes to the count it summed, with the payload exactly when
the count is positive. -/
theorem decodeValueWithRc_encodeMerged (payload : Option (List UInt8)) {x : Int} (hx : InI64 x) :
    decodeValueWithRc (encodeMerged payload x) = (if 0 < x then some (payload.getD []) else none, x) := by
  rcases lt_trichotomy x 0 with h | rfl | h
  · rw [encodeMerged_of_neg payload h, ← List.nil_append (i64ToLeBytes _),
      decodeValueWithRc_append [] hx, if_pos h.le, if_neg (by omega)]
  · rfl
  · rw [encodeMerged_of_pos payload h, decodeValueWithRc_append _ hx, if_neg (by omega), if_pos h]

end Decode

/-! ## The merge loop -/

section Merge

variable {P : List UInt8}

/-- A value whose positive count carries the payload `P`. -/
def CarriesPayload (P v : List UInt8) : Prop :=
  0 < (decodeValueWithRc v).2 → (decodeValueWithRc v).1 = some P

instance (P v : List UInt8) : Decidable (CarriesPayload P v) :=
  inferInstanceAs (Decidable (_ → _))

/-- What the loop of `refcount_merge` keeps when every value carries `P`: the payload is `P`, or
no payload has been seen and the count is not positive. -/
def AccGood (P : List UInt8) (acc : Option (List UInt8) × Int) : Prop :=
  acc.1 = some P ∨ (acc.1 = none ∧ acc.2 ≤ 0)

theorem accGood_decodeValueWithRc {v : List UInt8} (hv : CarriesPayload P v) :
    AccGood P (decodeValueWithRc v) := by
  by_cases h : 0 < (decodeValueWithRc v).2
  · exact Or.inl (hv h)
  · exact Or.inr ⟨(decodeValueWithRc_payload_eq_none_iff v).mpr (by omega), by omega⟩

theorem rc_encodeMerged (payload : Option (List UInt8)) {x : Int} (hx : InI64 x) :
    (decodeValueWithRc (encodeMerged payload x)).2 = x := by
  rw [decodeValueWithRc_encodeMerged _ hx]

theorem carriesPayload_encodeMerged {x : Int} (hx : InI64 x) :
    CarriesPayload P (encodeMerged (some P) x) := by
  intro hpos
  rw [decodeValueWithRc_encodeMerged _ hx] at hpos ⊢
  simp_all

/-- The payload is read only for a positive count, where the invariant makes it `P`. -/
theorem encodeMerged_of_accGood {payload : Option (List UInt8)} {x : Int}
    (h : AccGood P (payload, x)) : encodeMerged payload x = encodeMerged (some P) x := by
  rcases h with h | ⟨-, hx⟩
  · rw [show payload = some P from h]
  · rcases hx.lt_or_eq with hx | rfl
    · rw [encodeMerged_of_neg _ hx, encodeMerged_of_neg _ hx]
    · rfl

theorem inI64_of_natAbs_lt {x : Int} (h : x.natAbs < 2 ^ 63) : InI64 x := by
  unfold InI64; omega

theorem natAbs_rcTotal_le (vs : List (List UInt8)) : (rcTotal vs).natAbs ≤ rcAbsTotal vs := by
  induction vs with
  | nil => simp
  | cons v vs ih => simp only [rcTotal_cons, rcAbsTotal_cons]; omega

/-- The step lemma: within `i64`, one operand adds its count and keeps the invariant. -/
theorem mergeOperand_spec {acc : Option (List UInt8) × Int} {v : List UInt8} (hacc : AccGood P acc)
    (hv : CarriesPayload P v) (hrange : InI64 (acc.2 + (decodeValueWithRc v).2)) :
    ∃ payload, mergeOperand acc v = some (payload, acc.2 + (decodeValueWithRc v).2) ∧
      AccGood P (payload, acc.2 + (decodeValueWithRc v).2) := by
  have hgood := accGood_decodeValueWithRc hv
  obtain ⟨p, r⟩ := acc
  rcases hdec : decodeValueWithRc v with ⟨q, d⟩
  rw [hdec] at hgood hrange
  refine ⟨if p.isNone then q else p, by simp [mergeOperand, hdec, checkedAddI64, hrange], ?_⟩
  rcases hacc with rfl | ⟨rfl, hr⟩
  · exact Or.inl rfl
  · rcases hgood with hq | ⟨hq, hd⟩
    · exact Or.inl (by simpa using hq)
    · exact Or.inr ⟨by simpa using hq, by simp only at hr hd ⊢; omega⟩

/-- The run lemma: the whole loop adds the operands' counts and keeps the invariant, as long as
the absolute counts stay below `2 ^ 63`. -/
theorem foldlM_mergeOperand_spec (ops : List (List UInt8)) :
    ∀ acc : Option (List UInt8) × Int, AccGood P acc → (∀ v ∈ ops, CarriesPayload P v) →
      acc.2.natAbs + rcAbsTotal ops < 2 ^ 63 →
      ∃ payload, ops.foldlM mergeOperand acc = some (payload, acc.2 + rcTotal ops) ∧
        AccGood P (payload, acc.2 + rcTotal ops) := by
  induction ops with
  | nil => intro acc hacc _ _; exact ⟨acc.1, by simp, by simpa using hacc⟩
  | cons v vs ih =>
    intro acc hacc hops hbound
    rw [rcAbsTotal_cons] at hbound
    have hrange : InI64 (acc.2 + (decodeValueWithRc v).2) := inI64_of_natAbs_lt (by omega)
    obtain ⟨p₁, hstep, hgood₁⟩ := mergeOperand_spec hacc (hops v List.mem_cons_self) hrange
    obtain ⟨p₂, hrest, hgood₂⟩ := ih _ hgood₁ (fun w hw => hops w (List.mem_cons_of_mem v hw))
      (by simp only; omega)
    refine ⟨p₂, ?_, ?_⟩
    · rw [List.foldlM_cons, hstep, rcTotal_cons, ← add_assoc]
      exact hrest
    · rw [rcTotal_cons, ← add_assoc]
      exact hgood₂

/-- Within `i64`, `refcount_merge` writes the payload `P` with the sum of all counts. -/
theorem refcountMerge_eq (e : Option (List UInt8)) (ops : List (List UInt8))
    (hP : ∀ v ∈ e.toList ++ ops, CarriesPayload P v)
    (hbound : rcAbsTotal (e.toList ++ ops) < 2 ^ 63) :
    refcountMerge e ops = some (encodeMerged (some P) (rcTotal (e.toList ++ ops))) := by
  have hops : ∀ v ∈ ops, CarriesPayload P v := fun v hv => hP v (List.mem_append_right _ hv)
  rw [rcAbsTotal_append] at hbound
  -- the loop starts from the existing value, decoded
  obtain ⟨acc, hinit, hgood, hrc, hacc⟩ : ∃ acc, (e.map decodeValueWithRc).getD (none, 0) = acc ∧
      AccGood P acc ∧ acc.2 = rcTotal e.toList ∧ acc.2.natAbs ≤ rcAbsTotal e.toList := by
    cases e with
    | none => exact ⟨_, rfl, Or.inr ⟨rfl, le_rfl⟩, rfl, le_rfl⟩
    | some v =>
      exact ⟨_, rfl, accGood_decodeValueWithRc (hP v (by simp)), by simp, by simp⟩
  obtain ⟨payload, hfold, hend⟩ := foldlM_mergeOperand_spec ops acc hgood hops (by omega)
  rw [refcountMerge, hinit, hfold, Option.map_some, encodeMerged_of_accGood hend, hrc,
    rcTotal_append]

end Merge

/-! ## Groupings of the operands -/

/-- Within `i64`, the groupings RocksDB may choose write the same value, and it decodes to the sum
of all counts, with the payload exactly when the sum is positive. -/
theorem refcount_merge_associative (e : Option (List UInt8)) (A B : List (List UInt8))
    (P : List UInt8) (hP : ∀ v ∈ e.toList ++ A ++ B, CarriesPayload P v)
    (hbound : rcAbsTotal (e.toList ++ A ++ B) < 2 ^ 63) :
    ∃ r, refcountMerge e (A ++ B) = some r ∧
      (refcountMerge e A).bind (fun m => refcountMerge (some m) B) = some r ∧
      (refcountMerge none A).bind (fun m => refcountMerge e (m :: B)) = some r ∧
      decodeValueWithRc r = (if 0 < rcTotal (e.toList ++ A ++ B) then some P else none,
        rcTotal (e.toList ++ A ++ B)) := by
  have hrange : ∀ vs, rcAbsTotal vs < 2 ^ 63 → InI64 (rcTotal vs) := fun vs h =>
    inI64_of_natAbs_lt ((natAbs_rcTotal_le vs).trans_lt h)
  have hsplit := hbound
  simp only [rcAbsTotal_append] at hsplit
  have hPB : ∀ v ∈ B, CarriesPayload P v := fun v hv => hP v (List.mem_append_right _ hv)
  -- the partial merges `refcount_merge(e, A)` and `refcount_merge(None, A)`
  have hEA := refcountMerge_eq e A (fun v hv => hP v (List.mem_append_left _ hv))
    (by rw [rcAbsTotal_append]; omega)
  have hA : refcountMerge none A = some (encodeMerged (some P) (rcTotal A)) := by
    simpa using refcountMerge_eq none A
      (fun v hv => hP v (List.mem_append_left _ (List.mem_append_right _ (by simpa using hv))))
      (by simp only [Option.toList_none, List.nil_append]; omega)
  have hrangeEA := hrange (e.toList ++ A) (by rw [rcAbsTotal_append]; omega)
  have hrangeA := hrange A (by omega)
  refine ⟨encodeMerged (some P) (rcTotal (e.toList ++ A ++ B)), ?_, ?_, ?_, ?_⟩
  · rw [refcountMerge_eq e (A ++ B) (by simpa [List.append_assoc] using hP)
      (by simpa [List.append_assoc] using hbound), List.append_assoc]
  · rw [hEA, Option.bind_some, refcountMerge_eq (some _) B ?carries ?bound]
    case carries =>
      simp only [Option.toList_some, List.singleton_append, List.mem_cons]
      rintro v (rfl | hv)
      exacts [carriesPayload_encodeMerged hrangeEA, hPB v hv]
    case bound =>
      simp only [Option.toList_some, List.singleton_append, rcAbsTotal_cons,
        rc_encodeMerged _ hrangeEA]
      have := natAbs_rcTotal_le (e.toList ++ A)
      rw [rcAbsTotal_append] at this
      omega
    simp only [Option.toList_some, List.singleton_append, rcTotal_cons]
    rw [rc_encodeMerged _ hrangeEA]
    simp only [rcTotal_append]
  · rw [hA, Option.bind_some, refcountMerge_eq e _ ?carries ?bound]
    case carries =>
      simp only [List.mem_append, List.mem_cons]
      rintro v (hv | rfl | hv)
      exacts [hP v (List.mem_append_left _ (List.mem_append_left _ hv)),
        carriesPayload_encodeMerged hrangeA, hPB v hv]
    case bound =>
      simp only [rcAbsTotal_append, rcAbsTotal_cons, rc_encodeMerged _ hrangeA]
      have := natAbs_rcTotal_le A
      omega
    simp only [rcTotal_append, rcTotal_cons]
    rw [rc_encodeMerged _ hrangeA, add_assoc]
  · simpa using decodeValueWithRc_encodeMerged (some P) (hrange _ hbound)

/-- The example of the source's tests: `foo` with count two, a decrement, and `foo` once more. -/
theorem refcount_merge_associative_foo :
    (∀ v ∈ [[102, 111, 111] ++ i64ToLeBytes 2] ++ [i64ToLeBytes (-1)] ++
        [[102, 111, 111] ++ i64ToLeBytes 1], CarriesPayload [102, 111, 111] v) ∧
      rcAbsTotal ([[102, 111, 111] ++ i64ToLeBytes 2] ++ [i64ToLeBytes (-1)] ++
        [[102, 111, 111] ++ i64ToLeBytes 1]) < 2 ^ 63 ∧
      ∃ r, refcountMerge (some ([102, 111, 111] ++ i64ToLeBytes 2))
          ([i64ToLeBytes (-1)] ++ [[102, 111, 111] ++ i64ToLeBytes 1]) = some r ∧
        (refcountMerge (some ([102, 111, 111] ++ i64ToLeBytes 2)) [i64ToLeBytes (-1)]).bind
          (fun m => refcountMerge (some m) [[102, 111, 111] ++ i64ToLeBytes 1]) = some r ∧
        (refcountMerge none [i64ToLeBytes (-1)]).bind (fun m =>
          refcountMerge (some ([102, 111, 111] ++ i64ToLeBytes 2))
            (m :: [[102, 111, 111] ++ i64ToLeBytes 1])) = some r ∧
        decodeValueWithRc r = (if 0 < rcTotal ([[102, 111, 111] ++ i64ToLeBytes 2] ++
            [i64ToLeBytes (-1)] ++ [[102, 111, 111] ++ i64ToLeBytes 1]) then some [102, 111, 111]
            else none, rcTotal ([[102, 111, 111] ++ i64ToLeBytes 2] ++ [i64ToLeBytes (-1)] ++
            [[102, 111, 111] ++ i64ToLeBytes 1])) :=
  ⟨by decide, by decide, refcount_merge_associative (some ([102, 111, 111] ++ i64ToLeBytes 2))
    [i64ToLeBytes (-1)] [[102, 111, 111] ++ i64ToLeBytes 1] [102, 111, 111] (by decide)
    (by decide)⟩

/-- Without the bound the groupings differ: adding `i64::MAX` to a count of one panics, while
merging `i64::MAX` with `-i64::MAX` first gives the empty value, which adds nothing. -/
theorem refcount_merge_grouping_overflow :
    refcountMerge (some ([7] ++ i64ToLeBytes 1))
        ([[7] ++ i64ToLeBytes (2 ^ 63 - 1), i64ToLeBytes (-(2 ^ 63 - 1))] ++ []) = none ∧
      (refcountMerge none [[7] ++ i64ToLeBytes (2 ^ 63 - 1), i64ToLeBytes (-(2 ^ 63 - 1))]).bind
          (fun m => refcountMerge (some ([7] ++ i64ToLeBytes 1)) (m :: [])) =
        some ([7] ++ i64ToLeBytes 1) := by
  decide +kernel

end Refcount

end Unc
