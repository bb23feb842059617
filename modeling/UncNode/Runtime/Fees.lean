import Mathlib
import UncNode.Runtime.Verifier

/-!
# Transaction and receipt costs

`runtime/runtime/src/config.rs` and `receipt_cost` of `runtime/runtime/src/balance_checker.rs`.
`tx_cost` prices a transaction: the send fees, burnt at the gas price of the block, and the gas
the receipt will need, bought at the pessimistically inflated `receipt_gas_price`, plus the
deposits. `receipt_cost` prices the action receipt `process_transaction` makes of it, at the
receipt's `gas_price`; the balance checker counts a receipt in flight at that value.

`Action` is the whole action enum. `DelegateAction::actions` are `NonDelegateAction`s, which
`Delegate` never is; every fee function recurses into the inner actions of a `Delegate` alike,
so the model lets them be any action.

The checked operations of `config.rs` (`safe_add_gas` on `u64`, `safe_add_balance` and
`safe_gas_to_balance` on `u128`) return `IntegerOverflowError`. The fee formulas of `exec_fee`
and `total_send_fees` use unchecked `u64` arithmetic, which panics on overflow; they are `Nat`
here, and `tx_cost` and `receipt_cost` evaluate them at the same arguments. `get_account_type`
and the account id `system` of `is_system` are parameters: the `unc-account-id` crate computes
them from an id's text.

* `actionFee`: the fee of one action, which `exec_fee` and `total_send_fees` share;
* `totalSendFees`, `totalPrepaidSendFees`, `totalPrepaidExecFees`, `totalDeposit`,
  `totalPrepaidGas`, `txCost`, `receiptCost`;
* **`receipt_cost_matches_tx_cost`**: the receipt of a transaction whose signer is not `system`
  costs exactly what the signer paid beyond the burnt amount, with no overflow;
* `system_signer_receipt_cost_mismatch`: a transaction signed by `system` makes a receipt that
  `receipt_cost` prices at its deposits alone.
-/

set_option autoImplicit false

namespace Unc

namespace Fees

/-- `IntegerOverflowError`. -/
structure IntegerOverflowError where
  deriving DecidableEq, Repr

/-- `ActionCosts`. -/
inductive ActionCosts where
  | createAccount
  | deleteAccount
  | deployContractBase
  | deployContractByte
  | functionCallBase
  | functionCallByte
  | transfer
  | pledge
  | addFullAccessKey
  | addFunctionCallKeyBase
  | addFunctionCallKeyByte
  | deleteKey
  | newActionReceipt
  | newDataReceiptBase
  | newDataReceiptByte
  | delegate
  | registerRsa2048Keys
  | createRsa2048Challenge
  deriving DecidableEq, Repr

/-- `Fee`: the send fee when the sender is the receiver (`sir`) or not, and the execution fee. -/
structure Fee where
  sendSir : Nat
  sendNotSir : Nat
  execution : Nat
  deriving DecidableEq, Repr

/-- `Fee::send_fee`. -/
def Fee.sendFee (f : Fee) (sir : Bool) : Nat :=
  if sir then f.sendSir else f.sendNotSir

/-- `Fee::exec_fee`. -/
def Fee.execFee (f : Fee) : Nat :=
  f.execution

/-- `Fee::min_send_and_exec_fee`. -/
def Fee.minSendAndExecFee (f : Fee) : Nat :=
  min f.sendSir f.sendNotSir + f.execution

/-- A `Rational32` of the fee config, whose numerator is not negative. -/
structure Rational32 where
  numer : Nat
  denom : Nat
  denom_pos : 0 < denom

/-- `StorageUsageConfig`. -/
structure StorageUsageConfig where
  storageAmountPerByte : Nat
  numBytesAccount : Nat
  numExtraBytesRecord : Nat

/-- `RuntimeFeesConfig`. -/
structure RuntimeFeesConfig where
  actionFees : ActionCosts → Fee
  storageUsageConfig : StorageUsageConfig
  burntGasReward : Rational32
  pessimisticGasPriceInflationRatio : Rational32

/-- `RuntimeFeesConfig::fee`. -/
def RuntimeFeesConfig.fee (c : RuntimeFeesConfig) (cost : ActionCosts) : Fee :=
  c.actionFees cost

/-- `RuntimeFeesConfig::min_receipt_with_function_call_gas`. -/
def RuntimeFeesConfig.minReceiptWithFunctionCallGas (c : RuntimeFeesConfig) : Nat :=
  (c.fee .newActionReceipt).minSendAndExecFee + (c.fee .functionCallBase).minSendAndExecFee

/-- The parts of `RuntimeConfig` that the fee functions read. -/
structure RuntimeConfig where
  fees : RuntimeFeesConfig
  /-- `wasm_config.implicit_account_creation` -/
  implicitAccountCreation : Bool
  /-- `wasm_config.eth_implicit_accounts` -/
  ethImplicitAccounts : Bool

/-- `Action`. A `Delegate` carries its `DelegateAction` without the signature. -/
inductive Action (A K : Type) where
  | createAccount
  | deployContract (code : List UInt8)
  | functionCall (methodName : String) (args : List UInt8) (gas deposit : Nat)
  | transfer (deposit : Nat)
  | pledge (pledge : Nat) (publicKey : K)
  | addKey (publicKey : K) (accessKey : AccessKey A)
  | deleteKey (publicKey : K)
  | deleteAccount (beneficiaryId : A)
  | delegate (senderId receiverId : A) (actions : List (Action A K)) (nonce maxBlockHeight : Nat)
      (publicKey : K)
  | registerRsa2048Keys (publicKey : K) (operationType : Nat) (args : List UInt8)
  | createRsa2048Challenge (publicKey challengeKey : K) (args : List UInt8)
  deriving Repr

variable {A K : Type}

/-- `Action::get_prepaid_gas`. -/
def Action.getPrepaidGas : Action A K → Nat
  | .functionCall _ _ gas _ => gas
  | _ => 0

/-- `Action::get_deposit_balance`. -/
def Action.getDepositBalance : Action A K → Nat
  | .functionCall _ _ _ deposit => deposit
  | .transfer deposit => deposit
  | _ => 0

/-! ## Checked arithmetic -/

/-- `safe_add_gas`, on `u64`. -/
def safeAddGas (a b : Nat) : Except IntegerOverflowError Nat :=
  if a + b < 2 ^ 64 then .ok (a + b) else .error {}

/-- `safe_add_balance`, on `u128`. -/
def safeAddBalance (a b : Nat) : Except IntegerOverflowError Nat :=
  if a + b < 2 ^ 128 then .ok (a + b) else .error {}

/-- `safe_gas_to_balance`: `gas_price * gas` on `u128`. -/
def safeGasToBalance (gasPrice gas : Nat) : Except IntegerOverflowError Nat :=
  if gasPrice * gas < 2 ^ 128 then .ok (gasPrice * gas) else .error {}

/-- `safe_gas_price_inflated`: `gas_price` times `inflation_base ^ inflation_exponent`, rounded
up, on `BigUint`, then back to `u128`. -/
def safeGasPriceInflated (gasPrice : Nat) (inflationBase : Rational32) (inflationExponent : Nat) :
    Except IntegerOverflowError Nat :=
  let numer := inflationBase.numer ^ inflationExponent
  let denom := inflationBase.denom ^ inflationExponent
  let inflatedGasPrice := (numer * gasPrice + denom - 1) / denom
  if inflatedGasPrice < 2 ^ 128 then .ok inflatedGasPrice else .error {}

/-- `u8::try_from`, with `map_err(|_| IntegerOverflowError {})`. -/
def u8TryFrom (n : Nat) : Except IntegerOverflowError Nat :=
  if n < 2 ^ 8 then .ok n else .error {}

theorem safeAddGas_of_eq {a b c : Nat} (h : a + b = c) (hc : c < 2 ^ 64) : safeAddGas a b = .ok c := by
  rw [safeAddGas, if_pos (h ▸ hc), h]

theorem safeAddBalance_of_eq {a b c : Nat} (h : a + b = c) (hc : c < 2 ^ 128) :
    safeAddBalance a b = .ok c := by
  rw [safeAddBalance, if_pos (h ▸ hc), h]

theorem safeGasToBalance_of_lt {a b : Nat} (h : a * b < 2 ^ 128) :
    safeGasToBalance a b = .ok (a * b) := by
  rw [safeGasToBalance, if_pos h]

@[simp] theorem safeAddGas_eq_ok {a b c : Nat} : safeAddGas a b = .ok c ↔ a + b < 2 ^ 64 ∧ a + b = c := by
  unfold safeAddGas
  split_ifs with h
  · exact ⟨fun h' => ⟨h, Except.ok.inj h'⟩, (congrArg Except.ok ·.2)⟩
  · exact ⟨(nomatch ·), (absurd ·.1 h)⟩

@[simp] theorem safeAddBalance_eq_ok {a b c : Nat} :
    safeAddBalance a b = .ok c ↔ a + b < 2 ^ 128 ∧ a + b = c := by
  unfold safeAddBalance
  split_ifs with h
  · exact ⟨fun h' => ⟨h, Except.ok.inj h'⟩, (congrArg Except.ok ·.2)⟩
  · exact ⟨(nomatch ·), (absurd ·.1 h)⟩

@[simp] theorem safeGasToBalance_eq_ok {a b c : Nat} :
    safeGasToBalance a b = .ok c ↔ a * b < 2 ^ 128 ∧ a * b = c := by
  unfold safeGasToBalance
  split_ifs with h
  · exact ⟨fun h' => ⟨h, Except.ok.inj h'⟩, (congrArg Except.ok ·.2)⟩
  · exact ⟨(nomatch ·), (absurd ·.1 h)⟩

/-! ## Fees of actions -/

section ActionFees

variable (getAccountType : A → AccountType)

/-- `transfer_send_fee` and `transfer_exec_fee`, in the component `part` of the fees: a transfer
that creates an implicit account also pays for `CreateAccount`, and for a NEAR-implicit account
for `AddFullAccessKey`. -/
def transferFee (part : Fee → Nat) (cfg : RuntimeFeesConfig)
    (implicitAccountCreationAllowed ethImplicitAccountsEnabled : Bool)
    (receiverAccountType : AccountType) : Nat :=
  let transferFee := part (cfg.fee .transfer)
  match implicitAccountCreationAllowed, ethImplicitAccountsEnabled, receiverAccountType with
  | _, _, .namedAccount => transferFee
  | false, _, _ => transferFee
  | true, false, .ethImplicitAccount => transferFee
  | true, true, .ethImplicitAccount => transferFee + part (cfg.fee .createAccount)
  | true, _, .nearImplicitAccount =>
    transferFee + part (cfg.fee .createAccount) + part (cfg.fee .addFullAccessKey)

/-- `transfer_exec_fee`. -/
def transferExecFee (cfg : RuntimeFeesConfig)
    (implicitAccountCreationAllowed ethImplicitAccountsEnabled : Bool)
    (receiverAccountType : AccountType) : Nat :=
  transferFee (·.execFee) cfg implicitAccountCreationAllowed ethImplicitAccountsEnabled
    receiverAccountType

/-- `transfer_send_fee`. -/
def transferSendFee (cfg : RuntimeFeesConfig) (senderIsReceiver : Bool)
    (implicitAccountCreationAllowed ethImplicitAccountsEnabled : Bool)
    (receiverAccountType : AccountType) : Nat :=
  transferFee (·.sendFee senderIsReceiver) cfg implicitAccountCreationAllowed
    ethImplicitAccountsEnabled receiverAccountType

/-- The fee of one action in the component `part` of its `Fee`s: the `match` of `exec_fee`, and of
the loop of `total_send_fees` with `send_fee(sender_is_receiver)`. For `Delegate` it is the
`delegate` fee alone; `total_send_fees` adds the send fees of the inner actions. -/
def actionFee (part : Fee → Nat) (config : RuntimeConfig) (receiverId : A) : Action A K → Nat
  | .createAccount => part (config.fees.fee .createAccount)
  | .deployContract code =>
    part (config.fees.fee .deployContractBase) + part (config.fees.fee .deployContractByte) * code.length
  | .functionCall methodName args _ _ =>
    part (config.fees.fee .functionCallBase) +
      part (config.fees.fee .functionCallByte) * (methodName.utf8ByteSize + args.length)
  | .transfer _ =>
    transferFee part config.fees config.implicitAccountCreation config.ethImplicitAccounts
      (getAccountType receiverId)
  | .pledge _ _ => part (config.fees.fee .pledge)
  | .addKey _ accessKey =>
    match accessKey.permission with
    | .functionCall callPerm =>
      -- the method names are counted with their null terminators
      part (config.fees.fee .addFunctionCallKeyBase) +
        (callPerm.methodNames.map fun name => name.utf8ByteSize + 1).sum *
          part (config.fees.fee .addFunctionCallKeyByte)
    | .fullAccess => part (config.fees.fee .addFullAccessKey)
  | .deleteKey _ => part (config.fees.fee .deleteKey)
  | .deleteAccount _ => part (config.fees.fee .deleteAccount)
  | .delegate .. => part (config.fees.fee .delegate)
  | .registerRsa2048Keys .. => part (config.fees.fee .registerRsa2048Keys)
  | .createRsa2048Challenge .. => part (config.fees.fee .createRsa2048Challenge)

/-- `exec_fee`. -/
def execFee (config : RuntimeConfig) (action : Action A K) (receiverId : A) : Nat :=
  actionFee getAccountType (·.execFee) config receiverId action

mutual

/-- The `delta` of one action in `total_send_fees`. -/
def sendFeesDelta (config : RuntimeConfig) (senderIsReceiver : Bool) (receiverId : A) :
    Action A K → Except IntegerOverflowError Nat
  | .delegate _ innerReceiverId actions _ _ _ => do
    let inner ← totalSendFeesFrom config senderIsReceiver innerReceiverId 0 actions
    pure ((config.fees.fee .delegate).sendFee senderIsReceiver + inner)
  | action => pure (actionFee getAccountType (·.sendFee senderIsReceiver) config receiverId action)

/-- The loop of `total_send_fees` from the running `result`. -/
def totalSendFeesFrom (config : RuntimeConfig) (senderIsReceiver : Bool) (receiverId : A)
    (result : Nat) : List (Action A K) → Except IntegerOverflowError Nat
  | [] => pure result
  | action :: rest => do
    let delta ← sendFeesDelta config senderIsReceiver receiverId action
    let result ← safeAddGas result delta
    totalSendFeesFrom config senderIsReceiver receiverId result rest

end

/-- `total_send_fees`. -/
def totalSendFees (config : RuntimeConfig) (senderIsReceiver : Bool) (actions : List (Action A K))
    (receiverId : A) : Except IntegerOverflowError Nat :=
  totalSendFeesFrom getAccountType config senderIsReceiver receiverId 0 actions

/-- The loop of `total_prepaid_send_fees`: a `Delegate` prepays the send fees of its inner
actions, whose sender is the receiver when its `sender_id` is its `receiver_id`. -/
def totalPrepaidSendFeesFrom [DecidableEq A] (config : RuntimeConfig) (result : Nat) :
    List (Action A K) → Except IntegerOverflowError Nat
  | [] => pure result
  | action :: rest => do
    let delta ← match action with
      | .delegate senderId receiverId actions _ _ _ =>
        totalSendFees getAccountType config (decide (senderId = receiverId)) actions receiverId
      | _ => pure 0
    let result ← safeAddGas result delta
    totalPrepaidSendFeesFrom config result rest

/-- `total_prepaid_send_fees`. -/
def totalPrepaidSendFees [DecidableEq A] (config : RuntimeConfig) (actions : List (Action A K)) :
    Except IntegerOverflowError Nat :=
  totalPrepaidSendFeesFrom getAccountType config 0 actions

mutual

/-- The `delta` of one action in `total_prepaid_exec_fees`: a `Delegate` prepays the execution
of its inner actions, its own execution and the new action receipt of the inner actions. -/
def prepaidExecFeesDelta (config : RuntimeConfig) (receiverId : A) :
    Action A K → Except IntegerOverflowError Nat
  | action@(.delegate _ innerReceiverId actions _ _ _) => do
    let delta ← totalPrepaidExecFeesFrom config innerReceiverId 0 actions
    let delta ← safeAddGas delta (execFee getAccountType config action innerReceiverId)
    safeAddGas delta (config.fees.fee .newActionReceipt).execFee
  | action => pure (execFee getAccountType config action receiverId)

/-- The loop of `total_prepaid_exec_fees` from the running `result`. -/
def totalPrepaidExecFeesFrom (config : RuntimeConfig) (receiverId : A) (result : Nat) :
    List (Action A K) → Except IntegerOverflowError Nat
  | [] => pure result
  | action :: rest => do
    let delta ← prepaidExecFeesDelta config receiverId action
    let result ← safeAddGas result delta
    totalPrepaidExecFeesFrom config receiverId result rest

end

/-- `total_prepaid_exec_fees`. -/
def totalPrepaidExecFees (config : RuntimeConfig) (actions : List (Action A K)) (receiverId : A) :
    Except IntegerOverflowError Nat :=
  totalPrepaidExecFeesFrom getAccountType config receiverId 0 actions

end ActionFees

mutual

/-- The `action_balance` of one action in `total_deposit`; the relayer pays the deposits of the
inner actions of a `Delegate`. -/
def depositDelta : Action A K → Except IntegerOverflowError Nat
  | .delegate _ _ actions _ _ _ => totalDepositFrom 0 actions
  | action => pure action.getDepositBalance

/-- The loop of `total_deposit` from the running `total_balance`. -/
def totalDepositFrom (totalBalance : Nat) : List (Action A K) → Except IntegerOverflowError Nat
  | [] => pure totalBalance
  | action :: rest => do
    let actionBalance ← depositDelta action
    let totalBalance ← safeAddBalance totalBalance actionBalance
    totalDepositFrom totalBalance rest

end

/-- `total_deposit`. -/
def totalDeposit (actions : List (Action A K)) : Except IntegerOverflowError Nat :=
  totalDepositFrom 0 actions

mutual

/-- The `action_gas` of one action in `total_prepaid_gas`. -/
def prepaidGasDelta : Action A K → Except IntegerOverflowError Nat
  | .delegate _ _ actions _ _ _ => totalPrepaidGasFrom 0 actions
  | action => pure action.getPrepaidGas

/-- The loop of `total_prepaid_gas` from the running `total_gas`. -/
def totalPrepaidGasFrom (totalGas : Nat) : List (Action A K) → Except IntegerOverflowError Nat
  | [] => pure totalGas
  | action :: rest => do
    let actionGas ← prepaidGasDelta action
    let totalGas ← safeAddGas totalGas actionGas
    totalPrepaidGasFrom totalGas rest

end

/-- `total_prepaid_gas`. -/
def totalPrepaidGas (actions : List (Action A K)) : Except IntegerOverflowError Nat :=
  totalPrepaidGasFrom 0 actions

/-! ## Transactions and their receipts -/

/-- `Transaction`. -/
structure Transaction (A K : Type) where
  signerId : A
  publicKey : K
  nonce : Nat
  receiverId : A
  actions : List (Action A K)

/-- `ActionReceipt`, without the data dependencies, which `receipt_cost` does not read. -/
structure ActionReceipt (A K : Type) where
  signerId : A
  signerPublicKey : K
  gasPrice : Nat
  actions : List (Action A K)

/-- `ReceiptEnum`. -/
inductive ReceiptEnum (A K : Type) where
  | action (actionReceipt : ActionReceipt A K)
  | data

/-- `Receipt`, without its `receipt_id`. -/
structure Receipt (A K : Type) where
  predecessorId : A
  receiverId : A
  receipt : ReceiptEnum A K

section Costs

variable (getAccountType : A → AccountType) [DecidableEq A]

/-- The `receipt_gas_price` of `tx_cost`: `gas_price` inflated once for every receipt hop the
prepaid gas could pay for, and once more when the receipt leaves the signer's shard; a free
config does not inflate. -/
def txReceiptGasPrice (fees : RuntimeFeesConfig) (gasPrice prepaidGas initialReceiptHop : Nat) :
    Except IntegerOverflowError Nat :=
  let minimumNewReceiptGas := fees.minReceiptWithFunctionCallGas
  if gasPrice = 0 then pure 0 else do
    let maximumDepth :=
      if minimumNewReceiptGas > 0 then prepaidGas / minimumNewReceiptGas else 0
    let inflationExponent ← u8TryFrom (initialReceiptHop + maximumDepth)
    safeGasPriceInflated gasPrice fees.pessimisticGasPriceInflationRatio inflationExponent

/-- `tx_cost`. -/
def txCost (config : RuntimeConfig) (transaction : Transaction A K) (gasPrice : Nat)
    (senderIsReceiver : Bool) : Except IntegerOverflowError TransactionCost := do
  let fees := config.fees
  let gasBurnt ← safeAddGas ((fees.fee .newActionReceipt).sendFee senderIsReceiver)
    (← totalSendFees getAccountType config senderIsReceiver transaction.actions transaction.receiverId)
  let prepaidGas ← safeAddGas (← totalPrepaidGas transaction.actions)
    (← totalPrepaidSendFees getAccountType config transaction.actions)
  let initialReceiptHop := if transaction.signerId = transaction.receiverId then 0 else 1
  let receiptGasPrice ← txReceiptGasPrice fees gasPrice prepaidGas initialReceiptHop
  let gasRemaining ← safeAddGas prepaidGas (fees.fee .newActionReceipt).execFee
  let gasRemaining ← safeAddGas gasRemaining
    (← totalPrepaidExecFees getAccountType config transaction.actions transaction.receiverId)
  let burntAmount ← safeGasToBalance gasPrice gasBurnt
  let remainingGasAmount ← safeGasToBalance receiptGasPrice gasRemaining
  let totalCost ← safeAddBalance burntAmount remainingGasAmount
  let totalCost ← safeAddBalance totalCost (← totalDeposit transaction.actions)
  pure { gasBurnt, gasRemaining, receiptGasPrice, totalCost, burntAmount }

/-- The receipt `Runtime::process_transaction` makes of a transaction: its `gas_price` is the
`receipt_gas_price` that `verify_and_charge_transaction` takes from `tx_cost`. -/
def transactionReceipt (transaction : Transaction A K) (cost : TransactionCost) : Receipt A K where
  predecessorId := transaction.signerId
  receiverId := transaction.receiverId
  receipt := .action
    { signerId := transaction.signerId
      signerPublicKey := transaction.publicKey
      gasPrice := cost.receiptGasPrice
      actions := transaction.actions }

variable (system : A)

/-- `receipt_cost`: the deposits and, unless the predecessor is `system` (a refund), the prepaid
gas at the receipt's gas price. -/
def receiptCost (config : RuntimeConfig) (receipt : Receipt A K) : Except IntegerOverflowError Nat :=
  match receipt.receipt with
  | .action actionReceipt => do
    let totalCost ← totalDeposit actionReceipt.actions
    if receipt.predecessorId = system then pure totalCost else do
      let totalGas ← safeAddGas (config.fees.fee .newActionReceipt).execFee
        (← totalPrepaidExecFees getAccountType config actionReceipt.actions receipt.receiverId)
      let totalGas ← safeAddGas totalGas (← totalPrepaidGas actionReceipt.actions)
      let totalGas ← safeAddGas totalGas
        (← totalPrepaidSendFees getAccountType config actionReceipt.actions)
      let totalGasCost ← safeGasToBalance actionReceipt.gasPrice totalGas
      safeAddBalance totalCost totalGasCost
  | .data => pure 0

end Costs

/-! ## The receipt of a transaction costs what its signer prepaid -/

section Agreement

variable {getAccountType : A → AccountType} [DecidableEq A] {config : RuntimeConfig}

/-- What a successful `tx_cost` computed: `gas_remaining` is the prepaid gas, the prepaid send
fees, the execution of the new receipt and the prepaid execution fees, and `total_cost` adds the
burnt amount, `gas_remaining` at `receipt_gas_price` and the deposits, all within their types. -/
theorem txCost_eq_ok {transaction : Transaction A K} {gasPrice : Nat} {senderIsReceiver : Bool}
    {cost : TransactionCost}
    (h : txCost getAccountType config transaction gasPrice senderIsReceiver = .ok cost) :
    ∃ prepaidGas prepaidSendFees prepaidExecFees deposit,
      totalPrepaidGas transaction.actions = .ok prepaidGas ∧
      totalPrepaidSendFees getAccountType config transaction.actions = .ok prepaidSendFees ∧
      totalPrepaidExecFees getAccountType config transaction.actions transaction.receiverId =
        .ok prepaidExecFees ∧
      totalDeposit transaction.actions = .ok deposit ∧
      cost.gasRemaining = prepaidGas + prepaidSendFees + (config.fees.fee .newActionReceipt).execFee +
        prepaidExecFees ∧
      cost.gasRemaining < 2 ^ 64 ∧
      cost.totalCost = cost.burntAmount + cost.receiptGasPrice * cost.gasRemaining + deposit ∧
      cost.totalCost < 2 ^ 128 := by
  unfold txCost at h
  dsimp only at h
  obtain ⟨_, -, h⟩ := bind_eq_ok.mp h
  obtain ⟨_, -, h⟩ := bind_eq_ok.mp h
  obtain ⟨pg, hpg, h⟩ := bind_eq_ok.mp h
  obtain ⟨ps, hps, h⟩ := bind_eq_ok.mp h
  obtain ⟨prepaid, hprepaid, h⟩ := bind_eq_ok.mp h
  obtain ⟨_, -, h⟩ := bind_eq_ok.mp h
  obtain ⟨gr₁, hgr₁, h⟩ := bind_eq_ok.mp h
  obtain ⟨pe, hpe, h⟩ := bind_eq_ok.mp h
  obtain ⟨gr, hgr, h⟩ := bind_eq_ok.mp h
  obtain ⟨b, hb, h⟩ := bind_eq_ok.mp h
  obtain ⟨r, hr, h⟩ := bind_eq_ok.mp h
  obtain ⟨t₁, ht₁, h⟩ := bind_eq_ok.mp h
  obtain ⟨d, hd, h⟩ := bind_eq_ok.mp h
  obtain ⟨t, ht, h⟩ := bind_eq_ok.mp h
  cases h
  simp only [safeAddGas_eq_ok, safeGasToBalance_eq_ok, safeAddBalance_eq_ok] at hprepaid hgr₁ hgr hb hr ht₁ ht
  refine ⟨pg, ps, pe, d, hpg, hps, hpe, hd, ?_, ?_, ?_, ?_⟩ <;> dsimp only <;> omega

variable (system : A)

/-- **The receipt of a transaction costs what its signer prepaid**: unless the signer is
`system`, `receipt_cost` of the receipt `process_transaction` builds is `total_cost` less
`burnt_amount`, and does not overflow. -/
theorem receipt_cost_matches_tx_cost {transaction : Transaction A K} {gasPrice : Nat}
    {senderIsReceiver : Bool} {cost : TransactionCost}
    (h : txCost getAccountType config transaction gasPrice senderIsReceiver = .ok cost)
    (hs : transaction.signerId ≠ system) :
    receiptCost getAccountType system config (transactionReceipt transaction cost) =
      .ok (cost.totalCost - cost.burntAmount) := by
  obtain ⟨pg, ps, pe, d, hpg, hps, hpe, hd, hgr, hgr', htc, htc'⟩ := txCost_eq_ok h
  have hprod : cost.receiptGasPrice * cost.gasRemaining ≤ cost.totalCost := by omega
  -- `receipt_cost` adds the four terms of `gas_remaining` in another order: every partial sum
  -- is at most `gas_remaining`, and the product at most `total_cost`
  have h₁ : safeAddGas (config.fees.fee .newActionReceipt).execFee pe =
      .ok ((config.fees.fee .newActionReceipt).execFee + pe) :=
    safeAddGas_of_eq rfl (by omega)
  have h₂ : safeAddGas ((config.fees.fee .newActionReceipt).execFee + pe) pg =
      .ok ((config.fees.fee .newActionReceipt).execFee + pe + pg) :=
    safeAddGas_of_eq rfl (by omega)
  have h₃ : safeAddGas ((config.fees.fee .newActionReceipt).execFee + pe + pg) ps =
      .ok cost.gasRemaining :=
    safeAddGas_of_eq (by omega) hgr'
  have h₄ : safeGasToBalance cost.receiptGasPrice cost.gasRemaining =
      .ok (cost.receiptGasPrice * cost.gasRemaining) :=
    safeGasToBalance_of_lt (by omega)
  have h₅ : safeAddBalance d (cost.receiptGasPrice * cost.gasRemaining) =
      .ok (cost.totalCost - cost.burntAmount) :=
    safeAddBalance_of_eq (by omega) (by omega)
  simp only [receiptCost, transactionReceipt, hs, if_false, hd, hpe, hpg, hps, h₁, h₂, h₃, h₄, h₅,
    bind, Except.bind]

end Agreement

/-- A config in which every fee is `1` and the gas price is not inflated. -/
def sampleConfig : RuntimeConfig where
  fees :=
    { actionFees := fun _ => ⟨1, 1, 1⟩
      storageUsageConfig := ⟨0, 0, 0⟩
      burntGasReward := ⟨0, 1, by decide⟩
      pessimisticGasPriceInflationRatio := ⟨1, 1, by decide⟩ }
  implicitAccountCreation := false
  ethImplicitAccounts := false

/-- A transfer and a relayed function call, from account `1` to account `2`. -/
def relayedCall : Transaction Nat Unit :=
  ⟨1, (), 0, 2, [.transfer 5, .delegate 2 3 [.functionCall "f" [] 10 3] 0 0 ()]⟩

theorem receipt_cost_matches_tx_cost_relayed :
    txCost (fun _ => .namedAccount) sampleConfig relayedCall 1 false = .ok ⟨5, 18, 1, 31, 5⟩ ∧
      relayedCall.signerId ≠ 0 ∧
      receiptCost (fun _ => .namedAccount) 0 sampleConfig
        (transactionReceipt relayedCall ⟨5, 18, 1, 31, 5⟩) = .ok 26 :=
  have h : txCost (fun _ => .namedAccount) sampleConfig relayedCall 1 false =
      .ok ⟨5, 18, 1, 31, 5⟩ := by
    decide
  have hs : relayedCall.signerId ≠ 0 := by decide
  ⟨h, hs, receipt_cost_matches_tx_cost 0 h hs⟩

/-- A transfer of `5` signed by the account `system` (here `0`). -/
def systemTransfer : Transaction Nat Unit :=
  ⟨0, (), 0, 1, [.transfer 5]⟩

/-- The signer of `systemTransfer` pays `9`, of which `2` is burnt, but `receipt_cost` prices
its receipt at the deposit `5`: the prepaid gas of a receipt from `system` is not counted. -/
theorem system_signer_receipt_cost_mismatch :
    txCost (fun _ => .namedAccount) sampleConfig systemTransfer 1 false = .ok ⟨2, 2, 1, 9, 2⟩ ∧
      receiptCost (fun _ => .namedAccount) 0 sampleConfig
        (transactionReceipt systemTransfer ⟨2, 2, 1, 9, 2⟩) = .ok 5 := by
  decide

end Fees

end Unc
