import Mathlib
import UncNode.Runtime.Fees
import UncNode.Runtime.GasCounter

/-!
# The unused gas of a contract call

`ReceiptManager` of `runtime/runtime/src/receipt_manager.rs` and the end of
`execute_function_call` (`runtime/runtime/src/actions.rs`). The receipts a contract creates are
kept in the manager; a `FunctionCall` added with a positive `gas_weight` is recorded in
`gas_weights`. When the call returns, `distribute_gas` shares the gas the call neither burnt
nor reserved among those function calls in proportion to their weights (the floor of each
share, and the rest to the last), and the call's used gas grows by what was shared.

The manager's receipts keep their receiver and actions; their data dependencies are not read
here. `append_action` and `create_receipt` panic on a receipt index past the end, as their
`expect` does.

* `WellFormed`: every recorded weight names a `FunctionCall`; appending actions and creating
  receipts keep it (`WellFormed.appendActionFunctionCallWeight`, ...);
* `distributeGas_spec`: `distribute_gas` of a well-formed manager never panics, shares exactly
  the unused gas, and adds it to the function calls' gas;
* **`function_call_gas_within_limits`**: over every run of the gas counter of a call and every
  well-formed manager, the counters stay within their limits, and after the distribution
  `burnt_gas <= used_gas <= function_call.gas`.
-/

set_option autoImplicit false

namespace Unc

/-- `List.modify` changes the sum of a map by what it changes at its index. -/
theorem sum_map_modify {α : Type} (g : α → Nat) (f : α → α) :
    ∀ (l : List α) (i : Nat) {x : α}, l[i]? = some x →
      ((l.modify i f).map g).sum + g x = (l.map g).sum + g (f x)
  | [], _, _, h => by simp at h
  | y :: l, 0, x, h => by
    simp only [List.getElem?_cons_zero, Option.some.injEq] at h
    subst h
    simp only [List.modify_zero_cons, List.map_cons, List.sum_cons]
    omega
  | y :: l, i + 1, x, h => by
    simp only [List.getElem?_cons_succ] at h
    simp only [List.modify_succ_cons, List.map_cons, List.sum_cons]
    have := sum_map_modify g f l i h
    omega

/-- `FunctionCallActionIndex`. -/
structure FunctionCallActionIndex where
  receiptIndex : Nat
  actionIndex : Nat
  deriving DecidableEq, Repr

/-- `ReceiptMetadata`, with the actions of the receipt. -/
structure ReceiptMetadata (A K : Type) where
  actions : List (Fees.Action A K)

/-- `ReceiptManager`. -/
structure ReceiptManager (A K : Type) where
  actionReceipts : List (A × ReceiptMetadata A K)
  gasWeights : List (FunctionCallActionIndex × Nat)

/-- The fields of `VMOutcome` that the distribution reads and writes. -/
structure VMOutcome where
  burntGas : Nat
  usedGas : Nat
  deriving DecidableEq, Repr

/-- `VMLogic::compute_outcome`: the outcome has the counter's burnt and used gas. -/
def GasCounter.computeOutcome {C : Type} (c : GasCounter C) : Option VMOutcome := do
  let usedGas ← c.usedGas
  pure { burntGas := c.burntGas, usedGas }

namespace ReceiptManager

variable {A K : Type}

/-- `ReceiptManager::default`. -/
def default : ReceiptManager A K :=
  { actionReceipts := [], gasWeights := [] }

/-- The gas of the `FunctionCall` at `index`, if there is one there. -/
def functionCallGas (receipts : List (A × ReceiptMetadata A K)) (index : FunctionCallActionIndex) :
    Option Nat :=
  match receipts[index.receiptIndex]? with
  | some (_, receipt) =>
    match receipt.actions[index.actionIndex]? with
    | some (.functionCall _ _ gas _) => some gas
    | _ => none
  | none => none

/-- Sets the gas of the `FunctionCall` at `index`. -/
def setFunctionCallGas (receipts : List (A × ReceiptMetadata A K)) (index : FunctionCallActionIndex)
    (gas : Nat) : List (A × ReceiptMetadata A K) :=
  receipts.modify index.receiptIndex fun r =>
    (r.1,
      { actions := r.2.actions.modify index.actionIndex fun
          | .functionCall methodName args _ deposit => .functionCall methodName args gas deposit
          | action => action })

/-- The gas attached to all the function calls of the receipts. -/
def totalFunctionCallGas (receipts : List (A × ReceiptMetadata A K)) : Nat :=
  (receipts.map fun r => (r.2.actions.map Fees.Action.getPrepaidGas).sum).sum

/-- The loop of `distribute_gas` over the weights left, from `distributed`: each function call
gets the floor of its share, and the last one also what the floors leave of `unused_gas`
(`wrapping_sub`). An index that names no `FunctionCall`, and an overflow of `distributed`,
panic. -/
def distributeLoop (unusedGas gasWeightSum : Nat) :
    List (FunctionCallActionIndex × Nat) → List (A × ReceiptMetadata A K) → Nat →
      Option (Except Fees.IntegerOverflowError (List (A × ReceiptMetadata A K) × Nat))
  | [], receipts, distributed => some (.ok (receipts, distributed))
  | (index, weight) :: rest, receipts, distributed => do
    let gas ← functionCallGas receipts index
    let toAssign := unusedGas * weight / gasWeightSum % 2 ^ 64
    match Fees.safeAddGas gas toAssign with
    | .error e => some (.error e)
    | .ok gas =>
      let distributed ← addU64 distributed toAssign
      if rest = [] then
        let remainder := (unusedGas + 2 ^ 64 - distributed) % 2 ^ 64
        let distributed ← addU64 distributed remainder
        match Fees.safeAddGas gas remainder with
        | .error e => some (.error e)
        | .ok gas => some (.ok (setFunctionCallGas receipts index gas, distributed))
      else distributeLoop unusedGas gasWeightSum rest (setFunctionCallGas receipts index gas) distributed

/-- `distribute_gas`: the amount shared, `0` or `unused_gas`, after `assert_eq!`. -/
def distributeGas (rm : ReceiptManager A K) (unusedGas : Nat) :
    Option (Except Fees.IntegerOverflowError (ReceiptManager A K × Nat)) :=
  let gasWeightSum := (rm.gasWeights.map (·.2)).sum
  if gasWeightSum = 0 ∨ unusedGas = 0 then some (.ok (rm, 0)) else
    match distributeLoop unusedGas gasWeightSum rm.gasWeights rm.actionReceipts 0 with
    | none => none
    | some (.error e) => some (.error e)
    | some (.ok (receipts, distributed)) =>
      if unusedGas = distributed then some (.ok ({ rm with actionReceipts := receipts }, distributed))
      else none

/-- `append_action`: the index of the new action. -/
def appendAction (rm : ReceiptManager A K) (receiptIndex : Nat) (action : Fees.Action A K) :
    Option (ReceiptManager A K × Nat) := do
  let (_, receipt) ← rm.actionReceipts[receiptIndex]?
  pure ({ rm with
      actionReceipts := rm.actionReceipts.modify receiptIndex fun r =>
        (r.1, { actions := r.2.actions ++ [action] }) },
    receipt.actions.length)

/-- `append_action_function_call_weight`: the call is recorded when its weight is positive. -/
def appendActionFunctionCallWeight (rm : ReceiptManager A K) (receiptIndex : Nat)
    (methodName : String) (args : List UInt8) (attachedDeposit prepaidGas gasWeight : Nat) :
    Option (ReceiptManager A K) := do
  let (rm, actionIndex) ←
    rm.appendAction receiptIndex (.functionCall methodName args prepaidGas attachedDeposit)
  if gasWeight > 0 then
    pure { rm with gasWeights := rm.gasWeights ++ [(⟨receiptIndex, actionIndex⟩, gasWeight)] }
  else pure rm

/-- `create_receipt`, without the data dependencies: the index of the new receipt, or
`InvalidReceiptIndex` for a dependency on a receipt past the end. -/
def createReceipt (rm : ReceiptManager A K) (receiptIndices : List Nat) (receiverId : A) :
    Except Nat (ReceiptManager A K × Nat) :=
  match receiptIndices.find? (rm.actionReceipts.length ≤ ·) with
  | some receiptIndex => .error receiptIndex
  | none => .ok ({ rm with actionReceipts := rm.actionReceipts ++ [(receiverId, { actions := [] })] },
      rm.actionReceipts.length)

/-- The end of `execute_function_call` outside a view call: what the call left of the gas of
its `FunctionCall` (`saturating_sub`) is shared, and counts as used. -/
def distributeUnusedGas (rm : ReceiptManager A K) (gas : Nat) (outcome : VMOutcome) :
    Option (Except Fees.IntegerOverflowError (VMOutcome × ReceiptManager A K)) :=
  match rm.distributeGas (gas - outcome.usedGas) with
  | none => none
  | some (.error e) => some (.error e)
  | some (.ok (rm', distributed)) =>
    match Fees.safeAddGas outcome.usedGas distributed with
    | .error e => some (.error e)
    | .ok usedGas => some (.ok ({ outcome with usedGas }, rm'))

/-! ## Well-formed managers -/

/-- Every recorded weight names a `FunctionCall` of the manager's receipts. -/
def WellFormed (rm : ReceiptManager A K) : Prop :=
  ∀ w ∈ rm.gasWeights, (functionCallGas rm.actionReceipts w.1).isSome

theorem functionCallGas_eq_some {receipts : List (A × ReceiptMetadata A K)}
    {index : FunctionCallActionIndex} {gas : Nat} (h : functionCallGas receipts index = some gas) :
    ∃ receiverId receipt methodName args deposit,
      receipts[index.receiptIndex]? = some (receiverId, receipt) ∧
      receipt.actions[index.actionIndex]? = some (.functionCall methodName args gas deposit) := by
  unfold functionCallGas at h
  split at h
  · rename_i receiverId receipt hr
    split at h
    · rename_i methodName args gas' deposit ha
      cases h
      exact ⟨receiverId, receipt, methodName, args, deposit, hr, ha⟩
    · cases h
  · cases h

/-- Setting the gas of one function call leaves every index naming a function call. -/
theorem isSome_functionCallGas_set (receipts : List (A × ReceiptMetadata A K))
    (index j : FunctionCallActionIndex) (gas : Nat) :
    (functionCallGas (setFunctionCallGas receipts index gas) j).isSome =
      (functionCallGas receipts j).isSome := by
  unfold functionCallGas setFunctionCallGas
  rw [List.getElem?_modify]
  cases hr : receipts[j.receiptIndex]? with
  | none => rfl
  | some r =>
    obtain ⟨receiverId, receipt⟩ := r
    by_cases hi : index.receiptIndex = j.receiptIndex
    · simp only [Option.map_eq_map, Option.map_some, if_pos hi]
      rw [List.getElem?_modify]
      cases ha : receipt.actions[j.actionIndex]? with
      | none => rfl
      | some action =>
        by_cases hj : index.actionIndex = j.actionIndex
        · cases action <;> simp [hj]
        · simp [hj]
    · simp [hi]

/-- Setting the gas of a function call changes the total by the change of its gas. -/
theorem totalFunctionCallGas_set {receipts : List (A × ReceiptMetadata A K)}
    {index : FunctionCallActionIndex} {gas : Nat} (h : functionCallGas receipts index = some gas)
    (gas' : Nat) :
    totalFunctionCallGas (setFunctionCallGas receipts index gas') + gas =
      totalFunctionCallGas receipts + gas' := by
  obtain ⟨receiverId, receipt, methodName, args, deposit, hr, ha⟩ := functionCallGas_eq_some h
  have houter := sum_map_modify (fun r : A × ReceiptMetadata A K =>
      (r.2.actions.map Fees.Action.getPrepaidGas).sum) (fun r =>
        (r.1, { actions := r.2.actions.modify index.actionIndex fun
          | .functionCall methodName args _ deposit => .functionCall methodName args gas' deposit
          | action => action })) receipts index.receiptIndex hr
  have hinner := sum_map_modify Fees.Action.getPrepaidGas (fun
      | .functionCall methodName args _ deposit => .functionCall methodName args gas' deposit
      | action => action) receipt.actions index.actionIndex ha
  dsimp only at houter hinner
  unfold totalFunctionCallGas setFunctionCallGas
  simp only [Fees.Action.getPrepaidGas] at hinner
  omega

theorem wellFormed_default : WellFormed (default : ReceiptManager A K) :=
  fun _ h => nomatch h

/-- Appending an action to a receipt keeps every function call where it was. -/
theorem functionCallGas_append {receipts : List (A × ReceiptMetadata A K)} {j : FunctionCallActionIndex}
    {gas : Nat} (h : functionCallGas receipts j = some gas) (receiptIndex : Nat)
    (action : Fees.Action A K) :
    functionCallGas (receipts.modify receiptIndex fun r => (r.1, { actions := r.2.actions ++ [action] }))
      j = some gas := by
  obtain ⟨receiverId, receipt, methodName, args, deposit, hr, ha⟩ := functionCallGas_eq_some h
  have hlt : j.actionIndex < receipt.actions.length := (List.getElem?_eq_some_iff.mp ha).1
  by_cases hi : receiptIndex = j.receiptIndex
  · simp [functionCallGas, hr, hi, List.getElem?_append_left hlt, ha]
  · simp [functionCallGas, hr, hi, ha]

theorem WellFormed.appendAction {rm : ReceiptManager A K} (h : rm.WellFormed) {receiptIndex : Nat}
    {action : Fees.Action A K} {p : ReceiptManager A K × Nat}
    (ha : rm.appendAction receiptIndex action = some p) : p.1.WellFormed := by
  unfold ReceiptManager.appendAction at ha
  simp only [Option.bind_eq_bind, Option.bind_eq_some_iff] at ha
  obtain ⟨⟨receiverId, receipt⟩, -, ha⟩ := ha
  cases ha
  intro w hw
  obtain ⟨gas, hgas⟩ := Option.isSome_iff_exists.mp (h w hw)
  rw [functionCallGas_append hgas]
  rfl

/-- A function call recorded with a positive weight is the action just appended. -/
theorem WellFormed.appendActionFunctionCallWeight {rm rm' : ReceiptManager A K} (h : rm.WellFormed)
    {receiptIndex : Nat} {methodName : String} {args : List UInt8}
    {attachedDeposit prepaidGas gasWeight : Nat}
    (ha : rm.appendActionFunctionCallWeight receiptIndex methodName args attachedDeposit prepaidGas
      gasWeight = some rm') : rm'.WellFormed := by
  unfold ReceiptManager.appendActionFunctionCallWeight at ha
  simp only [Option.bind_eq_bind, Option.bind_eq_some_iff] at ha
  obtain ⟨⟨rm₁, actionIndex⟩, happ, ha⟩ := ha
  have h₁ := h.appendAction happ
  unfold ReceiptManager.appendAction at happ
  simp only [Option.bind_eq_bind, Option.bind_eq_some_iff] at happ
  obtain ⟨⟨receiverId, receipt⟩, hr, happ⟩ := happ
  cases happ
  split_ifs at ha
  · cases ha
    intro w hw
    rcases List.mem_append.mp hw with hw | hw
    · exact h₁ w hw
    · simp only [List.mem_singleton] at hw
      subst hw
      simp [functionCallGas, hr]
  · cases ha
    exact h₁

theorem WellFormed.createReceipt {rm : ReceiptManager A K} (h : rm.WellFormed)
    {receiptIndices : List Nat} {receiverId : A} {p : ReceiptManager A K × Nat}
    (hc : rm.createReceipt receiptIndices receiverId = .ok p) : p.1.WellFormed := by
  unfold ReceiptManager.createReceipt at hc
  split at hc
  · cases hc
  · cases hc
    intro w hw
    obtain ⟨gas, hgas⟩ := Option.isSome_iff_exists.mp (h w hw)
    obtain ⟨receiverId', receipt, methodName, args, deposit, hr, ha⟩ := functionCallGas_eq_some hgas
    simp [functionCallGas, List.getElem?_append_left (List.getElem?_eq_some_iff.mp hr).1, hr, ha]

/-! ## `distribute_gas` shares exactly the unused gas -/

/-- The floor of one share keeps `distributed` within `unused_gas`: `distributed * S` and the
unused gas of the weights left, `unused_gas * rest`, stay within `unused_gas * S`. -/
theorem share_le {unusedGas gasWeightSum distributed weight rest : Nat} (hS : 0 < gasWeightSum)
    (h : distributed * gasWeightSum + unusedGas * (weight + rest) ≤ unusedGas * gasWeightSum) :
    distributed + unusedGas * weight / gasWeightSum ≤ unusedGas ∧
      (distributed + unusedGas * weight / gasWeightSum) * gasWeightSum + unusedGas * rest ≤
        unusedGas * gasWeightSum := by
  have hfloor := Nat.div_mul_le_self (unusedGas * weight) gasWeightSum
  rw [Nat.mul_add] at h
  have hsum : (distributed + unusedGas * weight / gasWeightSum) * gasWeightSum + unusedGas * rest ≤
      unusedGas * gasWeightSum := by
    rw [Nat.add_mul]
    omega
  exact ⟨Nat.le_of_mul_le_mul_right (by omega) hS, hsum⟩

/-- The loop shares what is left of `unused_gas`: it never panics on weights that name function
calls, and when no gas of a call overflows, `distributed` ends at `unused_gas` and the total gas
of the function calls grows by what the loop shared. -/
theorem distributeLoop_spec {unusedGas gasWeightSum : Nat} (hu : unusedGas < 2 ^ 64)
    (hS : 0 < gasWeightSum) :
    ∀ (weights : List (FunctionCallActionIndex × Nat)) (receipts : List (A × ReceiptMetadata A K))
      (distributed : Nat), weights ≠ [] →
      (∀ w ∈ weights, (functionCallGas receipts w.1).isSome) →
      distributed * gasWeightSum + unusedGas * (weights.map (·.2)).sum ≤ unusedGas * gasWeightSum →
      ∃ r, distributeLoop unusedGas gasWeightSum weights receipts distributed = some r ∧
        ∀ receipts' distributed', r = .ok (receipts', distributed') →
          distributed' = unusedGas ∧
            totalFunctionCallGas receipts' + distributed = totalFunctionCallGas receipts + distributed'
  | [], _, _, hne, _, _ => absurd rfl hne
  | (index, weight) :: rest, receipts, distributed, _, hvalid, hinv => by
    obtain ⟨gas, hgas⟩ := Option.isSome_iff_exists.mp (hvalid _ List.mem_cons_self)
    replace hgas : functionCallGas receipts index = some gas := hgas
    simp only [List.map_cons, List.sum_cons] at hinv
    obtain ⟨hle, hinv'⟩ := share_le hS hinv
    -- the share is at most `unused_gas`, so the cast to `u64` keeps it
    have hmod : unusedGas * weight / gasWeightSum % 2 ^ 64 = unusedGas * weight / gasWeightSum :=
      Nat.mod_eq_of_lt (by omega)
    have hadd : addU64 distributed (unusedGas * weight / gasWeightSum) =
        some (distributed + unusedGas * weight / gasWeightSum) :=
      addU64_of_lt (by omega)
    simp only [distributeLoop, hgas, Option.bind_eq_bind, Option.bind_some, hmod]
    cases hsafe : Fees.safeAddGas gas (unusedGas * weight / gasWeightSum) with
    | error e => exact ⟨_, rfl, fun _ _ h => nomatch h⟩
    | ok gas₁ =>
      have hgas₁ := (Fees.safeAddGas_eq_ok.mp hsafe).2
      simp only [hadd, Option.bind_some]
      by_cases hrest : rest = []
      · -- the last weight takes what the floors left, and `distributed` reaches `unused_gas`
        have hrem : (unusedGas + 2 ^ 64 - (distributed + unusedGas * weight / gasWeightSum)) %
            2 ^ 64 = unusedGas - (distributed + unusedGas * weight / gasWeightSum) := by
          rw [show unusedGas + 2 ^ 64 - (distributed + unusedGas * weight / gasWeightSum) =
            unusedGas - (distributed + unusedGas * weight / gasWeightSum) + 2 ^ 64 by omega,
            Nat.add_mod_right]
          exact Nat.mod_eq_of_lt (by omega)
        have hadd' : addU64 (distributed + unusedGas * weight / gasWeightSum)
            (unusedGas - (distributed + unusedGas * weight / gasWeightSum)) = some unusedGas := by
          rw [addU64_of_lt (by omega)]
          congr 1
          omega
        simp only [if_pos hrest, hrem, hadd', Option.bind_some]
        cases hsafe' : Fees.safeAddGas gas₁ (unusedGas - (distributed + unusedGas * weight / gasWeightSum)) with
        | error e => exact ⟨_, rfl, fun _ _ h => nomatch h⟩
        | ok gas₂ =>
          have hgas₂ := (Fees.safeAddGas_eq_ok.mp hsafe').2
          refine ⟨_, rfl, fun receipts' distributed' h => ?_⟩
          simp only [Except.ok.injEq, Prod.mk.injEq] at h
          obtain ⟨rfl, rfl⟩ := h
          have htotal := totalFunctionCallGas_set hgas gas₂
          exact ⟨rfl, by omega⟩
      · simp only [if_neg hrest]
        have hvalid' : ∀ w ∈ rest, (functionCallGas (setFunctionCallGas receipts index gas₁) w.1).isSome :=
          fun w hw => (isSome_functionCallGas_set receipts index w.1 gas₁).trans
            (hvalid w (List.mem_cons_of_mem _ hw))
        obtain ⟨r, hr, hspec⟩ := distributeLoop_spec hu hS rest (setFunctionCallGas receipts index gas₁)
          (distributed + unusedGas * weight / gasWeightSum) hrest hvalid' hinv'
        refine ⟨r, hr, fun receipts' distributed' h => ?_⟩
        obtain ⟨hd, htotal⟩ := hspec receipts' distributed' h
        have hset := totalFunctionCallGas_set hgas gas₁
        exact ⟨hd, by omega⟩

/-- **`distribute_gas` shares exactly the unused gas**: for a well-formed manager it never
panics, and unless the gas of a function call overflows it shares all of `unused_gas` (nothing
without weights or unused gas), adding it to the gas of the function calls. -/
theorem distributeGas_spec {rm : ReceiptManager A K} (hrm : rm.WellFormed) {unusedGas : Nat}
    (hu : unusedGas < 2 ^ 64) :
    ∃ r, rm.distributeGas unusedGas = some r ∧ ∀ rm' distributed, r = .ok (rm', distributed) →
      distributed =
          (if (rm.gasWeights.map (·.2)).sum = 0 ∨ unusedGas = 0 then 0 else unusedGas) ∧
        totalFunctionCallGas rm'.actionReceipts =
          totalFunctionCallGas rm.actionReceipts + distributed ∧
        rm'.gasWeights = rm.gasWeights := by
  unfold distributeGas
  dsimp only
  by_cases h0 : (rm.gasWeights.map (·.2)).sum = 0 ∨ unusedGas = 0
  · rw [if_pos h0]
    refine ⟨_, rfl, fun rm' distributed h => ?_⟩
    simp only [Except.ok.injEq, Prod.mk.injEq] at h
    obtain ⟨rfl, rfl⟩ := h
    simp [h0]
  · rw [if_neg h0]
    obtain ⟨hS, hu0⟩ := not_or.mp h0
    have hne : rm.gasWeights ≠ [] := by
      intro h
      simp [h] at hS
    obtain ⟨r, hr, hspec⟩ := distributeLoop_spec hu (Nat.pos_of_ne_zero hS) rm.gasWeights
      rm.actionReceipts 0 hne hrm (by simp)
    rw [hr]
    cases r with
    | error e => exact ⟨_, rfl, fun _ _ h => nomatch h⟩
    | ok p =>
      obtain ⟨receipts, distributed⟩ := p
      obtain ⟨hd, htotal⟩ := hspec receipts distributed rfl
      dsimp only
      rw [if_pos hd.symm]
      refine ⟨_, rfl, fun rm' d h => ?_⟩
      simp only [Except.ok.injEq, Prod.mk.injEq] at h
      obtain ⟨rfl, rfl⟩ := h
      exact ⟨by rw [if_neg h0]; exact hd, by simpa using htotal, rfl⟩

/-- The distribution at the end of a call: from an outcome with `burnt_gas <= used_gas <= gas`,
it never panics, keeps both bounds, and adds to the function calls' gas what it adds to
`used_gas`. -/
theorem distributeUnusedGas_spec {rm : ReceiptManager A K} (hrm : rm.WellFormed) {gas : Nat}
    (hgas : gas < 2 ^ 64) (outcome : VMOutcome) (hburnt : outcome.burntGas ≤ outcome.usedGas)
    (hused : outcome.usedGas ≤ gas) :
    ∃ r, rm.distributeUnusedGas gas outcome = some r ∧ ∀ outcome' rm', r = .ok (outcome', rm') →
      outcome'.burntGas ≤ outcome'.usedGas ∧ outcome'.usedGas ≤ gas ∧
        totalFunctionCallGas rm'.actionReceipts =
          totalFunctionCallGas rm.actionReceipts + (outcome'.usedGas - outcome.usedGas) := by
  obtain ⟨r, hr, hspec⟩ := distributeGas_spec hrm (show gas - outcome.usedGas < 2 ^ 64 by omega)
  unfold distributeUnusedGas
  rw [hr]
  cases r with
  | error e => exact ⟨_, rfl, fun _ _ h => nomatch h⟩
  | ok p =>
    obtain ⟨rm₁, distributed⟩ := p
    obtain ⟨hd, htotal, -⟩ := hspec rm₁ distributed rfl
    -- the call uses what it used and what it shared, at most `gas`
    have hle : outcome.usedGas + distributed ≤ gas := by
      rw [hd]
      split_ifs <;> omega
    dsimp only
    rw [Fees.safeAddGas_of_eq rfl (by omega)]
    refine ⟨_, rfl, fun outcome' rm' h => ?_⟩
    simp only [Except.ok.injEq, Prod.mk.injEq] at h
    obtain ⟨rfl, rfl⟩ := h
    refine ⟨by dsimp only; omega, hle, ?_⟩
    dsimp only
    rw [htotal]
    omega

end ReceiptManager

/-- **The gas of a contract call stays within its limits.** For a call whose `FunctionCall`
attaches `gas` (below `2^64`), over any operations on its counter from `GasCounter::new` (with
`burn_gas <= use_gas` for every `pay_action_accumulated`), up to the first error: burnt gas is
within `max_gas_burnt` and `gas`, burnt and reserved gas within `gas`, `gas_limit` within
`gas - promises_gas` while no operation has failed, and `unused_gas` does not underflow. For any
well-formed receipt manager, the distribution of the unused gas then never panics, and leaves
`burnt_gas <= used_gas <= gas` with the function calls' gas grown by what the distribution added
to `used_gas`. -/
theorem function_call_gas_within_limits {A K C : Type} (extCostsConfig : C → Nat)
    (maxGasBurnt opcodeCost : Nat) {gas : Nat} (hgas : gas < 2 ^ 64) (ops : List (GasOp C))
    (hops : ∀ op ∈ ops, op.BurnLeUse) {rm : ReceiptManager A K} (hrm : rm.WellFormed) :
    ∃ c r, (GasCounter.new extCostsConfig maxGasBurnt opcodeCost gas false).run ops = some (c, r) ∧
      c.fastCounter.burntGas ≤ min maxGasBurnt gas ∧ c.fastCounter.burntGas + c.promisesGas ≤ gas ∧
      (r = .ok () → c.fastCounter.gasLimit ≤ gas - c.promisesGas) ∧
      c.unusedGas = some (gas - (c.promisesGas + c.fastCounter.burntGas)) ∧
      ∃ outcome, c.computeOutcome = some outcome ∧
        ∃ res, rm.distributeUnusedGas gas outcome = some res ∧
          ∀ outcome' rm', res = .ok (outcome', rm') →
            outcome'.burntGas ≤ outcome'.usedGas ∧ outcome'.usedGas ≤ gas ∧
              ReceiptManager.totalFunctionCallGas rm'.actionReceipts =
                ReceiptManager.totalFunctionCallGas rm.actionReceipts +
                  (outcome'.usedGas - outcome.usedGas) := by
  obtain ⟨c, r, hrun, -, -, hburnt, hused, husedGas, hunused, hlimit⟩ :=
    GasCounter.run_settled extCostsConfig maxGasBurnt opcodeCost hgas ops hops
  have houtcome : c.computeOutcome =
      some { burntGas := c.fastCounter.burntGas, usedGas := c.promisesGas + c.fastCounter.burntGas } := by
    rw [GasCounter.computeOutcome, husedGas]
    rfl
  obtain ⟨res, hres, hspec⟩ := ReceiptManager.distributeUnusedGas_spec hrm hgas
    { burntGas := c.fastCounter.burntGas, usedGas := c.promisesGas + c.fastCounter.burntGas }
    (by dsimp only; omega) (by dsimp only; omega)
  exact ⟨c, r, hrun, hburnt, hused, hlimit, hunused, _, houtcome, res, hres, hspec⟩

/-- A call with `100` gas that burns `10` and reserves `15` for a promise, with no receipts. -/
theorem function_call_gas_within_limits_sample :
    (100 : Nat) < 2 ^ 64 ∧
      (∀ op ∈ [GasOp.burnGas 10, .payActionAccumulated 5 20], GasOp.BurnLeUse (C := Unit) op) ∧
      (ReceiptManager.default : ReceiptManager Nat Unit).WellFormed ∧
      ∃ c r, (GasCounter.new (fun _ : Unit => 1) 100 1 100 false).run
          [.burnGas 10, .payActionAccumulated 5 20] = some (c, r) ∧
        c.fastCounter.burntGas ≤ min 100 100 ∧ c.fastCounter.burntGas + c.promisesGas ≤ 100 ∧
        (r = .ok () → c.fastCounter.gasLimit ≤ 100 - c.promisesGas) ∧
        c.unusedGas = some (100 - (c.promisesGas + c.fastCounter.burntGas)) ∧
        ∃ outcome, c.computeOutcome = some outcome ∧
          ∃ res, (ReceiptManager.default : ReceiptManager Nat Unit).distributeUnusedGas 100 outcome =
              some res ∧
            ∀ outcome' rm', res = .ok (outcome', rm') →
              outcome'.burntGas ≤ outcome'.usedGas ∧ outcome'.usedGas ≤ 100 ∧
                ReceiptManager.totalFunctionCallGas rm'.actionReceipts =
                  ReceiptManager.totalFunctionCallGas
                      (ReceiptManager.default : ReceiptManager Nat Unit).actionReceipts +
                    (outcome'.usedGas - outcome.usedGas) := by
  have hops : ∀ op ∈ [GasOp.burnGas 10, .payActionAccumulated 5 20], GasOp.BurnLeUse (C := Unit) op := by
    intro op hop
    simp only [List.mem_cons, List.not_mem_nil, or_false] at hop
    rcases hop with rfl | rfl
    · trivial
    · show 5 ≤ 20
      omega
  exact ⟨by decide, hops, ReceiptManager.wellFormed_default,
    function_call_gas_within_limits (fun _ : Unit => 1) 100 1 (by decide) _ hops
      ReceiptManager.wellFormed_default⟩

end Unc
