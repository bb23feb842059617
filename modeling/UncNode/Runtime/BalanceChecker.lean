import Mathlib
import UncNode.Primitives.U64
import UncNode.Runtime.Verifier

/-!
# Validator rewards and the balance check

`Runtime::update_validator_accounts` (`runtime/runtime/src/lib.rs`) and `check_balance`
(`runtime/runtime/src/balance_checker.rs`). `Runtime::apply` runs the first before any
transaction or receipt and the second after all of them. The check sums everything that
enters the chunk (validator rewards, the touched accounts, the receipts coming in and the
receipts waiting in the state) and everything that leaves it, and fails with
`BalanceMismatch` when the two sums differ.

The update credits a reward only while it walks `pledge_info`, or to the protocol treasury when
the treasury is not in `pledge_info`. The check counts every value of `validator_rewards` as
incoming. A reward for any other account is counted but never credited.

The `HashMap`s of `ValidatorAccountsUpdate` are lists of entries in their iteration order. The
sets of account ids and of postponed receipt ids are lists without duplicates. A receipt is seen
through `ReceiptView`: its receiver, its id, its `data_id` if it is a data receipt, and
`receipt_cost`. Every `u128` sum is checked, as `checked_add` and `safe_add_balance` are: an
overflow is `UnexpectedIntegerOverflow`.
-/

set_option autoImplicit false

namespace Unc

/-- `DelayedReceiptIndices`. -/
structure DelayedReceiptIndices where
  firstIndex : Nat
  nextAvailableIndex : Nat
deriving DecidableEq, Repr

/-- `DelayedReceiptIndices::default()`. -/
def DelayedReceiptIndices.default : DelayedReceiptIndices := ⟨0, 0⟩

/-- The trie columns the update and the check read: accounts and access keys, and the delayed
and postponed receipts. -/
structure TrieState (A K H R : Type) extends RuntimeState A K where
  delayedReceiptIndices : Option DelayedReceiptIndices
  delayedReceipts : Nat → Option R
  /-- `TrieKey::PostponedReceipt { receiver_id, receipt_id }` -/
  postponedReceipts : A → H → Option R
  /-- `TrieKey::PostponedReceiptId { receiver_id, data_id }` -/
  postponedReceiptIds : A → H → Option H

/-- What `check_balance` reads of a receipt. -/
structure ReceiptView (A H R : Type) where
  receiverId : R → A
  receiptId : R → H
  /-- `some data_id` for `ReceiptEnum::Data`, `none` for `ReceiptEnum::Action` -/
  dataId : R → Option H
  /-- `receipt_cost(config, receipt)`; `none` is its `IntegerOverflowError` -/
  cost : R → Option Nat

/-- `ValidatorAccountsUpdate`. -/
structure ValidatorAccountsUpdate (A : Type) where
  pledgeInfo : List (A × Nat)
  validatorRewards : List (A × Nat)
  lastPledgeProposals : List (A × Nat)
  powerInfo : List (A × Nat)
  lastPowerProposals : List (A × Nat)
  protocolTreasuryAccountId : Option A
  slashingInfo : List (A × Option Nat)

/-- The fields of `ApplyStats` the check reads. -/
structure ApplyStats where
  txBurntAmount : Nat
  slashedBurntAmount : Nat
  otherBurntAmount : Nat
deriving DecidableEq, Repr

/-- The `StorageError::StorageInconsistentState` messages of the update and the check, with
the values each one formats. -/
inductive StorageInconsistency (A : Type) where
  /-- "FATAL: pledging invariant does not hold. Account pledge {} is less than maximum of
  pledges {} in the past three epochs" -/
  | pledgingInvariant (pledging maxOfPledges : Nat)
  /-- "Account {} with max of pledges {} is not found" -/
  | pledgedAccountNotFound (accountId : A) (maxOfPledges : Nat)
  /-- "FATAL: rent power invariant does not hold. Account power {} is less than maximum of
  powers {} in the past three epochs" -/
  | powerInvariant (power maxOfPowers : Nat)
  /-- "Account {} with max of powers {} is not found" -/
  | poweredAccountNotFound (accountId : A) (maxOfPowers : Nat)
  /-- "FATAL: staking invariant does not hold. Account pledging {} is less than slashed {}" -/
  | stakingInvariant (pledging amountToSlash : Nat)
  /-- "Account {} to slash is not found" -/
  | slashedAccountNotFound (accountId : A)
  /-- "Protocol treasury account {} is not found" -/
  | treasuryNotFound (accountId : A)
  /-- "Validator reward for the protocol treasury account {} is not found" -/
  | treasuryRewardNotFound (accountId : A)
  /-- "Delayed receipt #{} should be in the state" -/
  | delayedReceiptMissing (index : Nat)
deriving DecidableEq, Repr

/-- `BalanceMismatchError`: the inputs and the outputs of the check. -/
structure BalanceMismatchError where
  incomingValidatorRewards : Nat
  initialAccountsBalance : Nat
  incomingReceiptsBalance : Nat
  processedDelayedReceiptsBalance : Nat
  initialPostponedReceiptsBalance : Nat
  finalAccountsBalance : Nat
  outgoingReceiptsBalance : Nat
  newDelayedReceiptsBalance : Nat
  finalPostponedReceiptsBalance : Nat
  txBurntAmount : Nat
  slashedBurntAmount : Nat
  otherBurntAmount : Nat
deriving DecidableEq, Repr

/-- The variants of `RuntimeError` the update and the check return. -/
inductive RuntimeError (A : Type) where
  | unexpectedIntegerOverflow
  | storageError (error : StorageInconsistency A)
  | balanceMismatch (error : BalanceMismatchError)
deriving DecidableEq, Repr

variable {A K H R : Type} [DecidableEq A]

/-- `a.checked_add(b).ok_or(UnexpectedIntegerOverflow)?` and `safe_add_balance(a, b)?` on
`Balance`. -/
def addBalanceChecked (a b : Nat) : Except (RuntimeError A) Nat :=
  match addBalance a b with
  | some c => .ok c
  | none => .error .unexpectedIntegerOverflow

/-- `safe_add_balance_apply!(x₁, …, xₙ)`: `x₁ + (x₂ + (… + xₙ))`, each sum checked. -/
def safeAddBalanceApply : List Nat → Except (RuntimeError A) Nat
  | [] => .ok 0
  | [x] => .ok x
  | x :: rest => do addBalanceChecked x (← safeAddBalanceApply rest)

omit [DecidableEq A] in
theorem addBalanceChecked_of_lt {a b : Nat} (h : a + b < 2 ^ 128) :
    addBalanceChecked (A := A) a b = .ok (a + b) := by
  rw [addBalanceChecked, addBalance_of_lt h]

omit [DecidableEq A] in
/-- Below `2 ^ 128` the checked sum is the sum, in whatever order it is taken. -/
theorem safeAddBalanceApply_of_sum_lt (xs : List Nat) (h : xs.sum < 2 ^ 128) :
    safeAddBalanceApply (A := A) xs = .ok xs.sum := by
  fun_induction safeAddBalanceApply (A := A) xs with
  | case1 => rfl
  | case2 x => simp
  | case3 x rest _ ih =>
    rw [List.sum_cons] at h
    rw [ih (by omega)]
    exact addBalanceChecked_of_lt h

/-! ## `update_validator_accounts` -/

/-- One turn of the loop over `pledge_info`: add the account's reward, check that its pledge
covers the maximum of the last pledges, and return the excess above
`max(max_of_pledges, last_pledge_proposal)` to its amount. -/
def updatePledgedAccount (update : ValidatorAccountsUpdate A) (st : RuntimeState A K)
    (entry : A × Nat) : Except (RuntimeError A) (RuntimeState A K) :=
  let (accountId, maxOfPledges) := entry
  match st.accounts accountId with
  | some account => do
    let account ← match update.validatorRewards.lookup accountId with
      | some reward => do
        let amount ← addBalanceChecked account.amount reward
        pure { account with amount }
      | none => pure account
    if account.pledging < maxOfPledges then
      .error (.storageError (.pledgingInvariant account.pledging maxOfPledges))
    else
      let kept := max maxOfPledges ((update.lastPledgeProposals.lookup accountId).getD 0)
      -- `checked_sub` of the pledge to keep; that of `return_pledge` cannot fail
      if account.pledging < kept then .error .unexpectedIntegerOverflow
      else
        let returnPledge := account.pledging - kept
        let amount ← addBalanceChecked account.amount returnPledge
        .ok (st.setAccount accountId
          { account with
            pledging := account.pledging - returnPledge
            amount })
  | none =>
    if 0 < maxOfPledges then .error (.storageError (.pledgedAccountNotFound accountId maxOfPledges))
    else .ok st

/-- One turn of the loop over `power_info`: only checks, the account is written back as it was. -/
def updatePoweredAccount (update : ValidatorAccountsUpdate A) (st : RuntimeState A K)
    (entry : A × Nat) : Except (RuntimeError A) (RuntimeState A K) :=
  let (accountId, maxOfPowers) := entry
  match st.accounts accountId with
  | some account =>
    if account.power < maxOfPowers then
      .error (.storageError (.powerInvariant account.power maxOfPowers))
    else if account.power < max maxOfPowers ((update.lastPowerProposals.lookup accountId).getD 0) then
      .error .unexpectedIntegerOverflow
    else .ok (st.setAccount accountId account)
  | none =>
    if 0 < maxOfPowers then .error (.storageError (.poweredAccountNotFound accountId maxOfPowers))
    else .ok st

/-- One turn of the loop over `slashing_info`: burn the given amount of the pledge, or all of
it; the burnt amount goes to `slashed_burnt_amount`. -/
def slashAccount (st : RuntimeState A K × Nat) (entry : A × Option Nat) :
    Except (RuntimeError A) (RuntimeState A K × Nat) :=
  let (accountId, pledge) := entry
  match st.1.accounts accountId with
  | some account =>
    let amountToSlash := pledge.getD account.pledging
    if account.pledging < amountToSlash then
      .error (.storageError (.stakingInvariant account.pledging amountToSlash))
    else do
      let slashedBurntAmount ← addBalanceChecked st.2 amountToSlash
      .ok (st.1.setAccount accountId { account with pledging := account.pledging - amountToSlash },
        slashedBurntAmount)
  | none => .error (.storageError (.slashedAccountNotFound accountId))

/-- The protocol treasury's reward, unless the treasury is in `pledge_info` and was paid there. -/
def rewardTreasury (update : ValidatorAccountsUpdate A) (st : RuntimeState A K) :
    Except (RuntimeError A) (RuntimeState A K) :=
  match update.protocolTreasuryAccountId with
  | none => .ok st
  | some accountId =>
    if (update.pledgeInfo.lookup accountId).isSome then .ok st
    else match st.accounts accountId with
      | none => .error (.storageError (.treasuryNotFound accountId))
      | some account =>
        match update.validatorRewards.lookup accountId with
        | none => .error (.storageError (.treasuryRewardNotFound accountId))
        | some treasuryReward => do
          let amount ← addBalanceChecked account.amount treasuryReward
          .ok (st.setAccount accountId { account with amount })

/-- `update_validator_accounts`: the new state and `stats.slashed_burnt_amount`. -/
def updateValidatorAccounts (update : ValidatorAccountsUpdate A) (st : RuntimeState A K)
    (slashedBurntAmount : Nat) : Except (RuntimeError A) (RuntimeState A K × Nat) := do
  let st ← update.pledgeInfo.foldlM (updatePledgedAccount update) st
  let st ← update.powerInfo.foldlM (updatePoweredAccount update) st
  let (st, slashedBurntAmount) ← update.slashingInfo.foldlM slashAccount (st, slashedBurntAmount)
  let st ← rewardTreasury update st
  pure (st, slashedBurntAmount)

/-! ## `check_balance` -/

/-- `get_delayed_receipts(state, first..next)`. -/
def getDelayedReceipts (st : TrieState A K H R) (first next : Nat) :
    Except (RuntimeError A) (List R) :=
  (List.range' first (next - first)).mapM fun index =>
    match st.delayedReceipts index with
    | some receipt => .ok receipt
    | none => .error (.storageError (.delayedReceiptMissing index))

/-- `total_receipts_cost`. -/
def totalReceiptsCost (rv : ReceiptView A H R) (receipts : List R) : Except (RuntimeError A) Nat :=
  receipts.foldlM (fun total receipt =>
    match rv.cost receipt with
    | some cost => addBalanceChecked total cost
    | none => .error .unexpectedIntegerOverflow) 0

/-- `total_accounts_balance`: `amount + pledging` of the accounts that exist. -/
def totalAccountsBalance (st : TrieState A K H R) (accountIds : List A) :
    Except (RuntimeError A) Nat :=
  accountIds.foldlM (fun total accountId =>
    match st.accounts accountId with
    | some account => safeAddBalanceApply [total, account.amount, account.pledging]
    | none => .ok total) 0

/-- `total_postponed_receipts_cost`. -/
def totalPostponedReceiptsCost (rv : ReceiptView A H R) (st : TrieState A K H R)
    (receiptIds : List (A × H)) : Except (RuntimeError A) Nat :=
  receiptIds.foldlM (fun total item =>
    match st.postponedReceipts item.1 item.2 with
    | none => .ok total
    | some receipt =>
      match rv.cost receipt with
      | some cost => addBalanceChecked total cost
      | none => .error .unexpectedIntegerOverflow) 0

/-- The accounts `check_balance` sums: the signers, the receivers of the incoming and of the
processed delayed receipts, and with an update the keys of `pledge_info`, `validator_rewards`,
`last_pledge_proposals` and `slashing_info` and the treasury. -/
def checkedAccountIds (update : Option (ValidatorAccountsUpdate A)) (signers receivers : List A) :
    List A :=
  let updated := match update with
    | some update =>
      update.pledgeInfo.map Prod.fst ++ update.validatorRewards.map Prod.fst ++
        update.lastPledgeProposals.map Prod.fst ++ update.slashingInfo.map Prod.fst ++
        update.protocolTreasuryAccountId.toList
    | none => []
  (signers ++ receivers ++ updated).dedup

/-- The ids of the receipts that may be postponed before or after: an action receipt's own id,
and for a data receipt the receipt its data was waiting for. -/
def potentialPostponedReceiptIds [DecidableEq H] (rv : ReceiptView A H R) (initialState : TrieState A K H R)
    (receipts : List R) : List (A × H) :=
  (receipts.filterMap fun receipt =>
    match rv.dataId receipt with
    | none => some (rv.receiverId receipt, rv.receiptId receipt)
    | some dataId =>
      (initialState.postponedReceiptIds (rv.receiverId receipt) dataId).map
        fun receiptId => (rv.receiverId receipt, receiptId)).dedup

/-- `check_balance`: the state before the chunk, the state after it, the update, the incoming
receipts, the transactions, the outgoing receipts and the stats. -/
def checkBalance [DecidableEq H] (rv : ReceiptView A H R) (initialState finalState : TrieState A K H R)
    (update : Option (ValidatorAccountsUpdate A)) (incomingReceipts : List R)
    (transactions : List (Transaction A K)) (outgoingReceipts : List R) (stats : ApplyStats) :
    Except (RuntimeError A) Unit := do
  let initialIndices := initialState.delayedReceiptIndices.getD .default
  let finalIndices := finalState.delayedReceiptIndices.getD .default
  let processedDelayedReceipts ←
    getDelayedReceipts initialState initialIndices.firstIndex finalIndices.firstIndex
  let newDelayedReceipts ←
    getDelayedReceipts finalState initialIndices.nextAvailableIndex finalIndices.nextAvailableIndex
  let accountIds := checkedAccountIds update (transactions.map Transaction.signerId)
    ((incomingReceipts ++ processedDelayedReceipts).map rv.receiverId)
  let incomingValidatorRewards ← match update with
    | some update => update.validatorRewards.foldlM (fun res entry => addBalanceChecked res entry.2) 0
    | none => pure 0
  let initialAccountsBalance ← totalAccountsBalance initialState accountIds
  let finalAccountsBalance ← totalAccountsBalance finalState accountIds
  let incomingReceiptsBalance ← totalReceiptsCost rv incomingReceipts
  let outgoingReceiptsBalance ← totalReceiptsCost rv outgoingReceipts
  let processedDelayedReceiptsBalance ← totalReceiptsCost rv processedDelayedReceipts
  let newDelayedReceiptsBalance ← totalReceiptsCost rv newDelayedReceipts
  let postponedIds :=
    potentialPostponedReceiptIds rv initialState (incomingReceipts ++ processedDelayedReceipts)
  let initialPostponedReceiptsBalance ← totalPostponedReceiptsCost rv initialState postponedIds
  let finalPostponedReceiptsBalance ← totalPostponedReceiptsCost rv finalState postponedIds
  let initialBalance ← safeAddBalanceApply [incomingValidatorRewards, initialAccountsBalance,
    incomingReceiptsBalance, processedDelayedReceiptsBalance, initialPostponedReceiptsBalance]
  let finalBalance ← safeAddBalanceApply [finalAccountsBalance, outgoingReceiptsBalance,
    newDelayedReceiptsBalance, finalPostponedReceiptsBalance, stats.txBurntAmount,
    stats.slashedBurntAmount, stats.otherBurntAmount]
  if initialBalance ≠ finalBalance then
    .error (.balanceMismatch
      { incomingValidatorRewards, initialAccountsBalance, incomingReceiptsBalance,
        processedDelayedReceiptsBalance, initialPostponedReceiptsBalance, finalAccountsBalance,
        outgoingReceiptsBalance, newDelayedReceiptsBalance, finalPostponedReceiptsBalance,
        txBurntAmount := stats.txBurntAmount, slashedBurntAmount := stats.slashedBurntAmount,
        otherBurntAmount := stats.otherBurntAmount })
  else .ok ()

/-! ## A reward outside `pledge_info` -/

namespace BalanceChecker

/-- Account `0` with amount 10 and nothing else in the state. -/
def sampleState : TrieState Nat Nat Unit Unit where
  accounts := fun a => if a = 0 then some { amount := 10, pledging := 0, power := 0, storageUsage := 0 }
    else none
  accessKeys := fun _ _ => none
  contractCode := fun _ => none
  delayedReceiptIndices := none
  delayedReceipts := fun _ => none
  postponedReceipts := fun _ _ => none
  postponedReceiptIds := fun _ _ => none

/-- Receipts as `check_balance` sees them; the sample chunk has none. -/
def unitReceipts : ReceiptView Nat Unit Unit :=
  ⟨fun _ => 0, fun _ => (), fun _ => none, fun _ => some 0⟩

/-- A reward of 1 for account `0`, which is not in `pledge_info`; no treasury. -/
def rewardOnlyUpdate : ValidatorAccountsUpdate Nat where
  pledgeInfo := []
  validatorRewards := [(0, 1)]
  lastPledgeProposals := []
  powerInfo := []
  lastPowerProposals := []
  protocolTreasuryAccountId := none
  slashingInfo := []

theorem unpledged_reward_fails_balance_check :
    updateValidatorAccounts rewardOnlyUpdate sampleState.toRuntimeState 0 =
        .ok (sampleState.toRuntimeState, 0) ∧
      checkBalance unitReceipts sampleState sampleState (some rewardOnlyUpdate) [] [] [] ⟨0, 0, 0⟩ =
        .error (.balanceMismatch
          { incomingValidatorRewards := 1, initialAccountsBalance := 10,
            incomingReceiptsBalance := 0, processedDelayedReceiptsBalance := 0,
            initialPostponedReceiptsBalance := 0, finalAccountsBalance := 10,
            outgoingReceiptsBalance := 0, newDelayedReceiptsBalance := 0,
            finalPostponedReceiptsBalance := 0, txBurntAmount := 0, slashedBurntAmount := 0,
            otherBurntAmount := 0 }) :=
  ⟨rfl, by decide⟩

end BalanceChecker

end Unc
