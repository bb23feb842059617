import UncNode.Primitives.U64

/-!
# The gas counter of a contract call

`GasCounter` of `runtime/unc-vm-runner/src/logic/gas_counter.rs`. A contract call starts with
`prepaid_gas` (the gas of its `FunctionCall` action) and a hard limit `max_gas_burnt`. Host
functions burn gas (`burn_gas`, `pay_per`, `pay_base`), and promises reserve gas for the
receipts they create (`pay_action_accumulated`, `prepay_gas`, which burn the send fees and
reserve the rest). `fast_counter.gas_limit` is the bound the compiled code checks burnt gas
against; a successful `deduct_gas` with a reservation lowers it to what the reservations leave.
Crossing a limit goes through `process_gas_limit`, which clamps the counters and returns the
error that stops the call.

A host function returns the `HostError` of its first failing counter operation with `?`, and
the call then traps, so a call's counter is the result of `run`: the operations up to the first
error. The `ExtCostsConfig` is a function from the costs `C` to their gas; the profile of the
counter is not modelled.

* `GasInv`: while no operation has failed, `gas_limit = min(max_gas_burnt, prepaid_gas -
  promises_gas)` and burnt gas is below it; `GasInv.step` keeps it;
* `Settled`: burnt gas is below both limits and burnt and reserved gas fit in `prepaid_gas`;
  `process_gas_limit` makes it true from any state;
* **`run_settled`**: every run from `GasCounter::new` ends `Settled`, so `used_gas` and
  `unused_gas` neither overflow nor underflow;
* `prepay_gas_error_breaks_gas_limit`: the error of `prepay_gas` leaves `gas_limit` above
  `prepaid_gas - promises_gas`, and a `burn_gas` after it breaks every bound.
-/

set_option autoImplicit false

namespace Unc

/-- The `HostError`s that the gas counter returns. -/
inductive HostError where
  | integerOverflow
  | gasExceeded
  | gasLimitExceeded
  deriving DecidableEq, Repr

/-- `FastGasCounter`. -/
structure FastGasCounter where
  burntGas : Nat
  gasLimit : Nat
  opcodeCost : Nat
  deriving DecidableEq, Repr

/-- `GasCounter`, over the costs `C` of its `ExtCostsConfig`. -/
structure GasCounter (C : Type) where
  fastCounter : FastGasCounter
  promisesGas : Nat
  maxGasBurnt : Nat
  prepaidGas : Nat
  isView : Bool
  extCostsConfig : C → Nat

namespace GasCounter

variable {C : Type}

/-- `GasCounter::new`: a view call may burn up to `max_gas_burnt` whatever it prepaid. -/
def new (extCostsConfig : C → Nat) (maxGasBurnt opcodeCost prepaidGas : Nat) (isView : Bool) :
    GasCounter C :=
  let prepaidGas := if isView then 2 ^ 64 - 1 else prepaidGas
  { extCostsConfig
    fastCounter := { burntGas := 0, gasLimit := min maxGasBurnt prepaidGas, opcodeCost }
    maxGasBurnt
    promisesGas := 0
    prepaidGas
    isView }

/-- `burnt_gas`. -/
def burntGas (c : GasCounter C) : Nat :=
  c.fastCounter.burntGas

/-- `used_gas`: `promises_gas + burnt_gas`, which panics on overflow. -/
def usedGas (c : GasCounter C) : Option Nat :=
  addU64 c.promisesGas c.fastCounter.burntGas

/-- `unused_gas`: `prepaid_gas - used_gas()`, which panics on underflow. -/
def unusedGas (c : GasCounter C) : Option Nat := do
  let usedGas ← c.usedGas
  subU64 c.prepaidGas usedGas

/-- `process_gas_limit`: burnt gas is clamped to both limits, reserved gas to what `prepaid_gas`
leaves of it; `gas_limit` stays as it is. -/
def processGasLimit (c : GasCounter C) (newBurntGas newUsedGas : Nat) : GasCounter C × HostError :=
  let hardBurntLimit := min c.prepaidGas c.maxGasBurnt
  let burntGas := min newBurntGas hardBurntLimit
  let usedGasLimit := min c.prepaidGas newUsedGas
  ({ c with
      fastCounter := { c.fastCounter with burntGas }
      promisesGas := usedGasLimit - burntGas },
    if newBurntGas > c.maxGasBurnt then .gasLimitExceeded else .gasExceeded)

/-- The error branch of `deduct_gas` and `burn_gas`. -/
def exceed (c : GasCounter C) (newBurntGas newUsedGas : Nat) :
    GasCounter C × Except HostError Unit :=
  let r := c.processGasLimit newBurntGas newUsedGas
  (r.1, .error r.2)

/-- `burn_gas`. Past `gas_limit` the used gas is a wrapping sum, as in the source. -/
def burnGas (c : GasCounter C) (gasBurnt : Nat) : GasCounter C × Except HostError Unit :=
  match addU64 c.fastCounter.burntGas gasBurnt with
  | none => (c, .error .integerOverflow)
  | some newBurntGas =>
    if newBurntGas ≤ c.fastCounter.gasLimit then
      ({ c with fastCounter := { c.fastCounter with burntGas := newBurntGas } }, .ok ())
    else
      c.exceed newBurntGas ((newBurntGas + c.promisesGas) % 2 ^ 64)

/-- The checked sums of `deduct_gas`: the new reserved, burnt and used gas. -/
def deductGasSums (c : GasCounter C) (gasBurnt promisesGas : Nat) : Option (Nat × Nat × Nat) := do
  let newPromisesGas ← addU64 c.promisesGas promisesGas
  let newBurntGas ← addU64 c.fastCounter.burntGas gasBurnt
  let newUsedGas ← addU64 newBurntGas newPromisesGas
  pure (newPromisesGas, newBurntGas, newUsedGas)

/-- `deduct_gas`, which panics (`none`) unless `gas_burnt <= gas_used`. -/
def deductGas (c : GasCounter C) (gasBurnt gasUsed : Nat) :
    Option (GasCounter C × Except HostError Unit) :=
  if gasBurnt ≤ gasUsed then
    let promisesGas := gasUsed - gasBurnt
    some <| match c.deductGasSums gasBurnt promisesGas with
      | none => (c, .error .integerOverflow)
      | some (newPromisesGas, newBurntGas, newUsedGas) =>
        if newBurntGas ≤ c.maxGasBurnt ∧ newUsedGas ≤ c.prepaidGas then
          let gasLimit := if promisesGas ≠ 0 ∧ c.isView = false then
              min c.maxGasBurnt (c.prepaidGas - newPromisesGas)
            else c.fastCounter.gasLimit
          ({ c with
              fastCounter := { c.fastCounter with gasLimit, burntGas := newBurntGas }
              promisesGas := newPromisesGas }, .ok ())
        else
          c.exceed newBurntGas newUsedGas
  else none

/-- `pay_per`. -/
def payPer (c : GasCounter C) (cost : C) (num : Nat) : GasCounter C × Except HostError Unit :=
  match mulU64 num (c.extCostsConfig cost) with
  | none => (c, .error .integerOverflow)
  | some useGas => c.burnGas useGas

/-- `pay_base`. -/
def payBase (c : GasCounter C) (cost : C) : GasCounter C × Except HostError Unit :=
  c.burnGas (c.extCostsConfig cost)

/-- `pay_action_accumulated`; the action only names the profile entry. -/
def payActionAccumulated (c : GasCounter C) (burnGas useGas : Nat) :
    Option (GasCounter C × Except HostError Unit) :=
  c.deductGas burnGas useGas

/-- `prepay_gas`. -/
def prepayGas (c : GasCounter C) (useGas : Nat) : Option (GasCounter C × Except HostError Unit) :=
  c.deductGas 0 useGas

end GasCounter

/-- The operations on a gas counter. -/
inductive GasOp (C : Type) where
  | burnGas (gasBurnt : Nat)
  | payPer (cost : C) (num : Nat)
  | payBase (cost : C)
  | payActionAccumulated (burnGas useGas : Nat)
  | prepayGas (useGas : Nat)
  | processGasLimit (newBurntGas newUsedGas : Nat)

namespace GasCounter

variable {C : Type}

/-- One operation; `process_gas_limit` always ends in its error. -/
def step (c : GasCounter C) : GasOp C → Option (GasCounter C × Except HostError Unit)
  | .burnGas gasBurnt => some (c.burnGas gasBurnt)
  | .payPer cost num => some (c.payPer cost num)
  | .payBase cost => some (c.payBase cost)
  | .payActionAccumulated burnGas useGas => c.payActionAccumulated burnGas useGas
  | .prepayGas useGas => c.prepayGas useGas
  | .processGasLimit newBurntGas newUsedGas => some (c.exceed newBurntGas newUsedGas)

/-- A call's operations up to the first error, which stops it. -/
def run (c : GasCounter C) : List (GasOp C) → Option (GasCounter C × Except HostError Unit)
  | [] => some (c, .ok ())
  | op :: ops => do
    let (c', r) ← c.step op
    match r with
    | .ok () => c'.run ops
    | .error e => some (c', .error e)

end GasCounter

/-! ## Invariants -/

namespace GasCounter

variable {C : Type} {c : GasCounter C}

/-- The counter while no operation of the call has failed: `gas_limit` is what `deduct_gas` sets
it to, and burnt gas is below it. -/
structure GasInv (c : GasCounter C) : Prop where
  notView : c.isView = false
  prepaid_lt : c.prepaidGas < 2 ^ 64
  promises_le : c.promisesGas ≤ c.prepaidGas
  gasLimit_eq : c.fastCounter.gasLimit = min c.maxGasBurnt (c.prepaidGas - c.promisesGas)
  burnt_le : c.fastCounter.burntGas ≤ c.fastCounter.gasLimit

/-- Burnt gas within both limits, and burnt and reserved gas within `prepaid_gas`. -/
structure Settled (c : GasCounter C) : Prop where
  prepaid_lt : c.prepaidGas < 2 ^ 64
  burnt_le : c.fastCounter.burntGas ≤ min c.maxGasBurnt c.prepaidGas
  used_le : c.fastCounter.burntGas + c.promisesGas ≤ c.prepaidGas

/-- What an operation leaves: a settled counter, and the invariant unless it failed. -/
def WithinLimits (p : GasCounter C × Except HostError Unit) : Prop :=
  Settled p.1 ∧ (p.2 = .ok () → GasInv p.1)

theorem gasInv_new (extCostsConfig : C → Nat) (maxGasBurnt opcodeCost : Nat) {prepaidGas : Nat}
    (h : prepaidGas < 2 ^ 64) : GasInv (new extCostsConfig maxGasBurnt opcodeCost prepaidGas false) where
  notView := rfl
  prepaid_lt := h
  promises_le := Nat.zero_le _
  gasLimit_eq := rfl
  burnt_le := Nat.zero_le _

theorem GasInv.settled (h : GasInv c) : Settled c where
  prepaid_lt := h.prepaid_lt
  burnt_le := by have := h.burnt_le; have := h.gasLimit_eq; omega
  used_le := by have := h.burnt_le; have := h.gasLimit_eq; have := h.promises_le; omega

theorem withinLimits_ok (h : GasInv c) : WithinLimits (c, .ok ()) :=
  ⟨h.settled, fun _ => h⟩

theorem withinLimits_error (h : Settled c) (e : HostError) : WithinLimits (c, .error e) :=
  ⟨h, fun h' => nomatch h'⟩

/-- `process_gas_limit` settles any counter. -/
theorem withinLimits_exceed (h : c.prepaidGas < 2 ^ 64) (newBurntGas newUsedGas : Nat) :
    WithinLimits (c.exceed newBurntGas newUsedGas) := by
  refine withinLimits_error (c := (c.processGasLimit newBurntGas newUsedGas).1) ⟨h, ?_, ?_⟩ _ <;>
  · simp only [processGasLimit]
    omega

theorem GasInv.burnGas (h : GasInv c) (gasBurnt : Nat) : WithinLimits (c.burnGas gasBurnt) := by
  unfold GasCounter.burnGas
  cases hadd : addU64 c.fastCounter.burntGas gasBurnt with
  | none => exact withinLimits_error h.settled _
  | some newBurntGas =>
    dsimp only
    split_ifs with hle
    · exact withinLimits_ok
        { notView := h.notView, prepaid_lt := h.prepaid_lt, promises_le := h.promises_le,
          gasLimit_eq := h.gasLimit_eq, burnt_le := hle }
    · exact withinLimits_exceed h.prepaid_lt _ _

theorem deductGasSums_eq_some {gasBurnt promisesGas newPromisesGas newBurntGas newUsedGas : Nat}
    (h : c.deductGasSums gasBurnt promisesGas = some (newPromisesGas, newBurntGas, newUsedGas)) :
    newPromisesGas = c.promisesGas + promisesGas ∧ newBurntGas = c.fastCounter.burntGas + gasBurnt ∧
      newUsedGas = newBurntGas + newPromisesGas := by
  simp only [deductGasSums, Option.bind_eq_bind, Option.bind_eq_some_iff, addU64_eq_some] at h
  obtain ⟨_, ⟨-, rfl⟩, _, ⟨-, rfl⟩, _, ⟨-, rfl⟩, h⟩ := h
  simp only [pure, Option.some.injEq, Prod.mk.injEq] at h
  omega

/-- A successful `deduct_gas` sets `gas_limit` to what the reservations leave; with nothing new
reserved, the limit it keeps already is that. -/
theorem GasInv.deductGas (h : GasInv c) {gasBurnt gasUsed : Nat} {p : GasCounter C × Except HostError Unit}
    (hd : c.deductGas gasBurnt gasUsed = some p) : WithinLimits p := by
  unfold GasCounter.deductGas at hd
  split_ifs at hd with hle
  rw [Option.some.injEq] at hd
  subst hd
  cases hsums : c.deductGasSums gasBurnt (gasUsed - gasBurnt) with
  | none => exact withinLimits_error h.settled _
  | some sums =>
    obtain ⟨newPromisesGas, newBurntGas, newUsedGas⟩ := sums
    obtain ⟨hp, hb, hu⟩ := deductGasSums_eq_some hsums
    dsimp only
    by_cases hok : newBurntGas ≤ c.maxGasBurnt ∧ newUsedGas ≤ c.prepaidGas
    · rw [if_pos hok]
      -- the limit left is `min max_gas_burnt (prepaid_gas - new_promises_gas)` in both branches
      have hlimit : (if gasUsed - gasBurnt ≠ 0 ∧ c.isView = false then
            min c.maxGasBurnt (c.prepaidGas - newPromisesGas) else c.fastCounter.gasLimit) =
          min c.maxGasBurnt (c.prepaidGas - newPromisesGas) := by
        split_ifs with hnew
        · rfl
        · have hz : gasUsed - gasBurnt = 0 := by simpa [h.notView] using hnew
          rw [h.gasLimit_eq, hp, hz, Nat.add_zero]
      refine withinLimits_ok
        { notView := h.notView, prepaid_lt := h.prepaid_lt, promises_le := ?_,
          gasLimit_eq := hlimit, burnt_le := ?_ }
      · show newPromisesGas ≤ c.prepaidGas
        omega
      · show newBurntGas ≤ _
        rw [hlimit]
        dsimp only
        omega
    · rw [if_neg hok]
      exact withinLimits_exceed h.prepaid_lt _ _

/-- `pay_action_accumulated` and `prepay_gas` panic only on `burn_gas > use_gas`. -/
theorem deductGas_isSome {gasBurnt gasUsed : Nat} (h : gasBurnt ≤ gasUsed) :
    (c.deductGas gasBurnt gasUsed).isSome := by
  unfold GasCounter.deductGas
  rw [if_pos h]
  rfl

theorem GasInv.payPer (h : GasInv c) (cost : C) (num : Nat) : WithinLimits (c.payPer cost num) := by
  unfold GasCounter.payPer
  cases mulU64 num (c.extCostsConfig cost) with
  | none => exact withinLimits_error h.settled _
  | some useGas => exact h.burnGas useGas

theorem Settled.usedGas (h : Settled c) :
    c.usedGas = some (c.promisesGas + c.fastCounter.burntGas) :=
  addU64_of_lt (by have := h.used_le; have := h.prepaid_lt; omega)

theorem Settled.unusedGas (h : Settled c) :
    c.unusedGas = some (c.prepaidGas - (c.promisesGas + c.fastCounter.burntGas)) := by
  have := h.used_le
  rw [GasCounter.unusedGas, h.usedGas, Option.bind_eq_bind, Option.bind_some]
  exact subU64_eq_some.mpr ⟨by omega, rfl⟩

/-! ## Runs -/

/-- The limits of a counter, which no operation changes. -/
def SameLimits (c c' : GasCounter C) : Prop :=
  c'.prepaidGas = c.prepaidGas ∧ c'.maxGasBurnt = c.maxGasBurnt

-- every branch of `burn_gas` and `deduct_gas` keeps both limits
theorem sameLimits_burnGas (gasBurnt : Nat) : SameLimits c (c.burnGas gasBurnt).1 := by
  unfold GasCounter.burnGas
  cases addU64 c.fastCounter.burntGas gasBurnt with
  | none => exact ⟨rfl, rfl⟩
  | some newBurntGas =>
    dsimp only
    split_ifs <;> exact ⟨rfl, rfl⟩

theorem sameLimits_deductGas {gasBurnt gasUsed : Nat} {p : GasCounter C × Except HostError Unit}
    (hd : c.deductGas gasBurnt gasUsed = some p) : SameLimits c p.1 := by
  unfold GasCounter.deductGas at hd
  split_ifs at hd
  rw [Option.some.injEq] at hd
  subst hd
  cases c.deductGasSums gasBurnt (gasUsed - gasBurnt) with
  | none => exact ⟨rfl, rfl⟩
  | some sums =>
    dsimp only
    split_ifs <;> exact ⟨rfl, rfl⟩

end GasCounter

/-- `pay_action_accumulated` gets `burn_gas <= use_gas`, as `pay_action_base` and
`pay_action_per_byte` compute them. -/
def GasOp.BurnLeUse {C : Type} : GasOp C → Prop
  | .payActionAccumulated burn use => burn ≤ use
  | _ => True

namespace GasCounter

variable {C : Type} {c : GasCounter C}

/-- **One operation keeps the invariant or settles the counter**, and panics only on a
`pay_action_accumulated` with `burn_gas > use_gas`. -/
theorem GasInv.step (h : GasInv c) (op : GasOp C) (hop : op.BurnLeUse) :
    ∃ p, c.step op = some p ∧ SameLimits c p.1 ∧ WithinLimits p := by
  cases op with
  | burnGas gasBurnt => exact ⟨_, rfl, sameLimits_burnGas gasBurnt, h.burnGas gasBurnt⟩
  | payPer cost num =>
    refine ⟨_, rfl, ?_, h.payPer cost num⟩
    unfold GasCounter.payPer
    cases mulU64 num (c.extCostsConfig cost) with
    | none => exact ⟨rfl, rfl⟩
    | some useGas => exact sameLimits_burnGas useGas
  | payBase cost => exact ⟨_, rfl, sameLimits_burnGas _, h.burnGas _⟩
  | payActionAccumulated burnGas useGas =>
    obtain ⟨p, hp⟩ := Option.isSome_iff_exists.mp
      (deductGas_isSome (c := c) (show burnGas ≤ useGas from hop))
    exact ⟨p, hp, sameLimits_deductGas hp, h.deductGas hp⟩
  | prepayGas useGas =>
    obtain ⟨p, hp⟩ := Option.isSome_iff_exists.mp (deductGas_isSome (c := c) (Nat.zero_le useGas))
    exact ⟨p, hp, sameLimits_deductGas hp, h.deductGas hp⟩
  | processGasLimit newBurntGas newUsedGas =>
    exact ⟨_, rfl, ⟨rfl, rfl⟩, withinLimits_exceed h.prepaid_lt _ _⟩

/-- Every run of operations with `burn_gas <= use_gas` ends without a panic, within the limits,
and with the invariant unless it stopped at an error. -/
theorem GasInv.run :
    ∀ {c : GasCounter C}, GasInv c → ∀ (ops : List (GasOp C)), (∀ op ∈ ops, op.BurnLeUse) →
      ∃ p, c.run ops = some p ∧ SameLimits c p.1 ∧ WithinLimits p
  | _, h, [], _ => ⟨_, rfl, ⟨rfl, rfl⟩, withinLimits_ok h⟩
  | c, h, op :: ops, hops => by
    obtain ⟨⟨c', r⟩, hs, ⟨hp, hm⟩, hc', hr⟩ := h.step op (hops op List.mem_cons_self)
    dsimp only at hp hm hc' hr
    cases r with
    | ok u =>
      obtain ⟨p, hrun, ⟨hp', hm'⟩, hlim⟩ :=
        (hr rfl).run ops fun o ho => hops o (List.mem_cons_of_mem _ ho)
      refine ⟨p, ?_, ⟨hp'.trans hp, hm'.trans hm⟩, hlim⟩
      simp only [GasCounter.run, hs, Option.bind_eq_bind, Option.bind_some, hrun]
    | error e =>
      refine ⟨(c', .error e), ?_, ⟨hp, hm⟩, hc', fun h => nomatch h⟩
      simp only [GasCounter.run, hs, Option.bind_eq_bind, Option.bind_some]

/-- **Every call stays within its limits**: from `GasCounter::new` with `prepaid_gas` below
`2^64`, any operations with `burn_gas <= use_gas` leave burnt gas within `max_gas_burnt` and
`prepaid_gas`, and burnt and reserved gas within `prepaid_gas`; `used_gas` and `unused_gas`
neither overflow nor underflow; and while no operation has failed, `gas_limit` is at most
`prepaid_gas - promises_gas`. -/
theorem run_settled (extCostsConfig : C → Nat) (maxGasBurnt opcodeCost : Nat) {prepaidGas : Nat}
    (hprepaid : prepaidGas < 2 ^ 64) (ops : List (GasOp C)) (hops : ∀ op ∈ ops, op.BurnLeUse) :
    ∃ c r, (new extCostsConfig maxGasBurnt opcodeCost prepaidGas false).run ops = some (c, r) ∧
      c.prepaidGas = prepaidGas ∧ c.maxGasBurnt = maxGasBurnt ∧
      c.fastCounter.burntGas ≤ min maxGasBurnt prepaidGas ∧
      c.fastCounter.burntGas + c.promisesGas ≤ prepaidGas ∧
      c.usedGas = some (c.promisesGas + c.fastCounter.burntGas) ∧
      c.unusedGas = some (prepaidGas - (c.promisesGas + c.fastCounter.burntGas)) ∧
      (r = .ok () → c.fastCounter.gasLimit ≤ prepaidGas - c.promisesGas) := by
  obtain ⟨⟨c, r⟩, hrun, ⟨hp, hm⟩, hs, hinv⟩ :=
    (gasInv_new extCostsConfig maxGasBurnt opcodeCost hprepaid).run ops hops
  replace hp : c.prepaidGas = prepaidGas := hp
  replace hm : c.maxGasBurnt = maxGasBurnt := hm
  dsimp only at hs hinv
  refine ⟨c, r, hrun, hp, hm, ?_, ?_, hs.usedGas, ?_, ?_⟩
  · rw [← hp, ← hm]
    exact hs.burnt_le
  · rw [← hp]
    exact hs.used_le
  · rw [← hp]
    exact hs.unusedGas
  · intro hr
    have := (hinv hr).gasLimit_eq
    omega

/-- From `new` with both limits `100`: `prepay_gas(200)` fails, settles `promises_gas` at `100`
and leaves `gas_limit` at `100`, above `prepaid_gas - promises_gas = 0`. A `burn_gas(50)` after
the error then succeeds, and `unused_gas` underflows. -/
theorem prepay_gas_error_breaks_gas_limit :
    ∃ c, (new (fun _ : Unit => 0) 100 1 100 false).prepayGas 200 = some (c, .error .gasExceeded) ∧
      c.fastCounter.gasLimit = 100 ∧ c.prepaidGas - c.promisesGas = 0 ∧
      (c.burnGas 50).2 = .ok () ∧ (c.burnGas 50).1.usedGas = some 150 ∧
      (c.burnGas 50).1.unusedGas = none :=
  ⟨_, rfl, rfl, rfl, rfl, rfl, rfl⟩

end GasCounter

end Unc
