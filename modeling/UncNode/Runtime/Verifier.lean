import Mathlib
import UncNode.Primitives.U64

/-!
# Transaction verification — `runtime/runtime/src/verifier.rs`

`verify_and_charge_transaction` checks a signed transaction against the state: the signer and
its access key exist, the nonce is above the key's nonce and, under the protocol feature
`AccessKeyNonceRange`, below `height * ACCESS_KEY_NONCE_RANGE_MULTIPLIER`; then it charges the
signer and a function-call key's allowance, checks the storage pledge and the key's permission,
and writes back the key with the transaction's nonce. `Runtime::process_transaction` commits
the state on success and rolls it back on an error.

The checks of `validate_transaction` (signature, size, action limits, cost) read nothing of
the state; their outcome is an input here, the transaction's cost or an error.

* `RuntimeState`, with `setAccount`, `setAccessKey`, `removeAccessKey`;
* `checkNonce`, `chargeSigner`, `chargeAllowance`, `checkStoragePledge`,
  `checkAccessKeyPermission`: the stages of the verifier;
* `verifyAndChargeTransaction`, `processTransaction`, which fail with a `VerifierError`;
* **`verifyAndChargeTransaction_ok`**: what a successful verification read and wrote.
-/

set_option autoImplicit false

namespace Unc

/-- `AccessKey::ACCESS_KEY_NONCE_RANGE_MULTIPLIER`. -/
def ACCESS_KEY_NONCE_RANGE_MULTIPLIER : Nat := 1000000

/-- `ZERO_BALANCE_ACCOUNT_STORAGE_LIMIT`. -/
def ZERO_BALANCE_ACCOUNT_STORAGE_LIMIT : Nat := 770

/-- `FunctionCallPermission`. -/
structure FunctionCallPermission (A : Type) where
  allowance : Option Nat
  receiverId : A
  methodNames : List String
  deriving DecidableEq, Repr

/-- `AccessKeyPermission`. -/
inductive AccessKeyPermission (A : Type) where
  | functionCall (permission : FunctionCallPermission A)
  | fullAccess
  deriving DecidableEq, Repr

/-- `AccessKey`. -/
structure AccessKey (A : Type) where
  nonce : Nat
  permission : AccessKeyPermission A
  deriving DecidableEq, Repr

/-- The fields of `Account` that the verifier, the key actions and the validator account update
read. -/
structure Account where
  amount : Nat
  pledging : Nat
  power : Nat
  storageUsage : Nat
  deriving DecidableEq, Repr

/-- `NonDelegateAction`: an action other than a `Delegate`, which is what a `DelegateAction`
carries. -/
inductive NonDelegateAction (A K : Type) where
  | functionCall (methodName : String) (deposit : Nat)
  | transfer (deposit : Nat)
  | addKey (publicKey : K) (accessKey : AccessKey A)
  | deleteKey (publicKey : K)
  | deleteAccount (beneficiaryId : A)
  deriving DecidableEq, Repr

/-- `DelegateAction`. -/
structure DelegateAction (A K : Type) where
  senderId : A
  receiverId : A
  actions : List (NonDelegateAction A K)
  nonce : Nat
  maxBlockHeight : Nat
  publicKey : K
  deriving DecidableEq, Repr

/-- The actions that the verifier and the account and key handling read. A `Delegate` carries
its `DelegateAction` and the outcome of `SignedDelegateAction::verify`. -/
inductive Action (A K : Type) where
  | functionCall (methodName : String) (deposit : Nat)
  | transfer (deposit : Nat)
  | addKey (publicKey : K) (accessKey : AccessKey A)
  | deleteKey (publicKey : K)
  | deleteAccount (beneficiaryId : A)
  | delegate (delegateAction : DelegateAction A K) (signatureValid : Bool)
  deriving DecidableEq, Repr

/-- `AccountType`, as `AccountId::get_account_type` returns it. -/
inductive AccountType where
  | nearImplicitAccount
  | ethImplicitAccount
  | namedAccount
  deriving DecidableEq, Repr

/-- `Transaction`: the fields the runtime reads. -/
structure Transaction (A K : Type) where
  signerId : A
  publicKey : K
  nonce : Nat
  receiverId : A
  actions : List (Action A K)
  deriving DecidableEq, Repr

/-- `TransactionCost`, as `validate_transaction` returns it. -/
structure TransactionCost where
  gasBurnt : Nat
  gasRemaining : Nat
  receiptGasPrice : Nat
  totalCost : Nat
  burntAmount : Nat
  deriving DecidableEq, Repr

/-- `VerificationResult`. -/
structure VerificationResult where
  gasBurnt : Nat
  gasRemaining : Nat
  receiptGasPrice : Nat
  burntAmount : Nat
  deriving DecidableEq, Repr

/-- `InvalidAccessKeyError`. -/
inductive InvalidAccessKeyError (A K : Type) where
  | accessKeyNotFound (accountId : A) (publicKey : K)
  | receiverMismatch (txReceiver akReceiver : A)
  | methodNameMismatch (methodName : String)
  | requiresFullAccess
  | notEnoughAllowance (accountId : A) (publicKey : K) (allowance cost : Nat)
  | depositWithFunctionCall
  deriving DecidableEq, Repr

/-- `InvalidTxError`: the variants the verifier and `validate_transaction` return. -/
inductive InvalidTxError (A K : Type) where
  | invalidAccessKeyError (error : InvalidAccessKeyError A K)
  | invalidSignature
  | signerDoesNotExist (signerId : A)
  | invalidNonce (txNonce akNonce : Nat)
  | nonceTooLarge (txNonce upperBound : Nat)
  | notEnoughBalance (signerId : A) (balance cost : Nat)
  | lackBalanceForState (signerId : A) (amount : Nat)
  | costOverflow
  | transactionSizeExceeded (size limit : Nat)
  deriving DecidableEq, Repr

/-- `StorageStakingError`. -/
inductive StorageStakingError where
  | lackBalanceForStorageStaking (amount : Nat)
  /-- the message of a `u128` overflow -/
  | storageError (message : String)
  deriving DecidableEq, Repr

/-- The variants of `RuntimeError` that `verify_and_charge_transaction` returns: an
`InvalidTxError`, or the `StorageError::StorageInconsistentState` of `check_storage_pledge`. -/
inductive VerifierError (A K : Type) where
  | invalidTxError (error : InvalidTxError A K)
  | storageInconsistentState (message : String)
  deriving DecidableEq, Repr

/-- `?` on a stage that fails with an `InvalidTxError`, which the source converts with `into`. -/
instance {A K : Type} : MonadLift (Except (InvalidTxError A K)) (Except (VerifierError A K)) where
  monadLift x := x.mapError .invalidTxError

/-- The protocol features, by `checked_feature!`, that the verifier and the actions read. -/
structure ProtocolFeatures where
  accessKeyNonceRange : Bool
  zeroBalanceAccount : Bool
  /-- `current_protocol_version >= DELETE_KEY_STORAGE_USAGE_PROTOCOL_VERSION`. -/
  deleteKeyStorageUsage : Bool
  accessKeyNonceForImplicitAccounts : Bool
  ethImplicitAccounts : Bool
  deleteActionRestriction : Bool
  deriving DecidableEq, Repr

/-- The parts of `RuntimeConfig` that the verifier and the actions read. -/
structure RuntimeConfig (A K : Type) where
  storageAmountPerByte : Nat
  /-- `borsh::object_length(public_key) + borsh::object_length(access_key)
  + num_extra_bytes_record`: the storage of one access key record. -/
  accessKeyRecordBytes : K → AccessKey A → Nat
  /-- `storage_usage_config.num_bytes_account` -/
  numBytesAccount : Nat
  /-- `storage_usage_config.num_extra_bytes_record` -/
  numExtraBytesRecord : Nat
  /-- `PublicKey::len` -/
  publicKeyLen : K → Nat
  /-- `borsh::object_length(access_key)` -/
  accessKeyLength : AccessKey A → Nat
  /-- `wallet_contract_magic_bytes().code().len()` -/
  walletContractMagicBytesLen : Nat
  /-- `wasm_config.implicit_account_creation` -/
  implicitAccountCreation : Bool
  /-- `wasm_config.eth_implicit_accounts` -/
  ethImplicitAccounts : Bool

/-- The accounts, access keys and contract codes of the trie; of a code only its length is
read. -/
structure RuntimeState (A K : Type) where
  accounts : A → Option Account
  accessKeys : A → K → Option (AccessKey A)
  contractCode : A → Option Nat

variable {A K : Type}

namespace RuntimeState

/-- `set_account`. -/
def setAccount [DecidableEq A] (st : RuntimeState A K) (accountId : A) (account : Account) : RuntimeState A K :=
  { st with accounts := Function.update st.accounts accountId (some account) }

/-- `set_access_key`. -/
def setAccessKey [DecidableEq A] [DecidableEq K] (st : RuntimeState A K) (accountId : A) (publicKey : K) (accessKey : AccessKey A) :
    RuntimeState A K :=
  { st with
    accessKeys := Function.update st.accessKeys accountId
      (Function.update (st.accessKeys accountId) publicKey (some accessKey)) }

/-- `remove_access_key`. -/
def removeAccessKey [DecidableEq A] [DecidableEq K] (st : RuntimeState A K) (accountId : A) (publicKey : K) : RuntimeState A K :=
  { st with
    accessKeys := Function.update st.accessKeys accountId
      (Function.update (st.accessKeys accountId) publicKey none) }

/-- `set_code`, with the code's length. -/
def setContractCode [DecidableEq A] (st : RuntimeState A K) (accountId : A) (codeLen : Nat) :
    RuntimeState A K :=
  { st with contractCode := Function.update st.contractCode accountId (some codeLen) }

/-- `remove_account`: the account, its code and all its access keys. -/
def removeAccount [DecidableEq A] (st : RuntimeState A K) (accountId : A) : RuntimeState A K :=
  { accounts := Function.update st.accounts accountId none
    accessKeys := Function.update st.accessKeys accountId fun _ => none
    contractCode := Function.update st.contractCode accountId none }

variable [DecidableEq A] [DecidableEq K] (st : RuntimeState A K) (a a' : A) (k k' : K)

omit [DecidableEq K] in
@[simp] theorem setAccount_accessKeys (acc : Account) :
    (st.setAccount a acc).accessKeys = st.accessKeys := rfl

omit [DecidableEq K] in
@[simp] theorem setAccount_accounts (acc : Account) :
    (st.setAccount a acc).accounts a' = if a' = a then some acc else st.accounts a' := by
  simp [setAccount, Function.update_apply]

@[simp] theorem setAccessKey_accounts (ak : AccessKey A) :
    (st.setAccessKey a k ak).accounts = st.accounts := rfl

@[simp] theorem setAccessKey_accessKeys (ak : AccessKey A) :
    (st.setAccessKey a k ak).accessKeys a' k' =
      if a' = a ∧ k' = k then some ak else st.accessKeys a' k' := by
  by_cases ha : a' = a
  · subst ha; by_cases hk : k' = k <;> simp [setAccessKey, hk]
  · simp [setAccessKey, ha]

@[simp] theorem removeAccessKey_accounts : (st.removeAccessKey a k).accounts = st.accounts := rfl

@[simp] theorem removeAccessKey_accessKeys :
    (st.removeAccessKey a k).accessKeys a' k' =
      if a' = a ∧ k' = k then none else st.accessKeys a' k' := by
  by_cases ha : a' = a
  · subst ha; by_cases hk : k' = k <;> simp [removeAccessKey, hk]
  · simp [removeAccessKey, ha]

omit [DecidableEq K] in
@[simp] theorem setContractCode_accounts (n : Nat) : (st.setContractCode a n).accounts = st.accounts :=
  rfl

omit [DecidableEq K] in
@[simp] theorem setContractCode_accessKeys (n : Nat) :
    (st.setContractCode a n).accessKeys = st.accessKeys := rfl

omit [DecidableEq K] in
@[simp] theorem removeAccount_accounts :
    (st.removeAccount a).accounts a' = if a' = a then none else st.accounts a' := by
  simp [removeAccount, Function.update_apply]

omit [DecidableEq K] in
@[simp] theorem removeAccount_accessKeys :
    (st.removeAccount a).accessKeys a' k' = if a' = a then none else st.accessKeys a' k' := by
  by_cases ha : a' = a <;> simp [removeAccount, ha]

end RuntimeState

/-! ## The stages of the verifier -/

/-- `is_zero_balance_account`. -/
def isZeroBalanceAccount (account : Account) : Bool :=
  decide (account.storageUsage ≤ ZERO_BALANCE_ACCOUNT_STORAGE_LIMIT)

/-- `check_storage_pledge`. -/
def checkStoragePledge (config : RuntimeConfig A K) (features : ProtocolFeatures)
    (account : Account) : Except StorageStakingError Unit := do
  let some requiredAmount := mulBalance account.storageUsage config.storageAmountPerByte
    | .error (.storageError ("Account\x27s storage_usage " ++ toString account.storageUsage ++
        " overflows multiplication"))
  let some availableAmount := addBalance account.amount account.pledging
    | .error (.storageError ("Account\x27s amount " ++ toString account.amount ++ " and pledging " ++
        toString account.pledging ++ " overflow addition"))
  if availableAmount ≥ requiredAmount then .ok ()
  else if features.zeroBalanceAccount ∧ isZeroBalanceAccount account then .ok ()
  else .error (.lackBalanceForStorageStaking (requiredAmount - availableAmount))

/-- The signer's account, or `SignerDoesNotExist`. -/
def getSigner (st : RuntimeState A K) (tx : Transaction A K) :
    Except (InvalidTxError A K) Account :=
  match st.accounts tx.signerId with
  | some signer => .ok signer
  | none => .error (.signerDoesNotExist tx.signerId)

/-- The signing access key, or `AccessKeyNotFound`. -/
def getSignerAccessKey (st : RuntimeState A K) (tx : Transaction A K) :
    Except (InvalidTxError A K) (AccessKey A) :=
  match st.accessKeys tx.signerId tx.publicKey with
  | some accessKey => .ok accessKey
  | none => .error (.invalidAccessKeyError (.accessKeyNotFound tx.signerId tx.publicKey))

/-- The nonce checks: above the key's nonce, and with `AccessKeyNonceRange` and a block height,
below `height * ACCESS_KEY_NONCE_RANGE_MULTIPLIER`. -/
def checkNonce (features : ProtocolFeatures) (tx : Transaction A K) (accessKey : AccessKey A)
    (blockHeight : Option Nat) : Except (InvalidTxError A K) Unit :=
  if tx.nonce ≤ accessKey.nonce then .error (.invalidNonce tx.nonce accessKey.nonce)
  else if features.accessKeyNonceRange then
    match blockHeight with
    | some height =>
      let upperBound := height * ACCESS_KEY_NONCE_RANGE_MULTIPLIER
      if tx.nonce ≥ upperBound then .error (.nonceTooLarge tx.nonce upperBound) else .ok ()
    | none => .ok ()
  else .ok ()

/-- `signer.set_amount(signer.amount().checked_sub(total_cost)...)`. -/
def chargeSigner (tx : Transaction A K) (signer : Account) (totalCost : Nat) :
    Except (InvalidTxError A K) Account :=
  if totalCost ≤ signer.amount then .ok { signer with amount := signer.amount - totalCost }
  else .error (.notEnoughBalance tx.signerId signer.amount totalCost)

/-- The allowance of a function-call key pays for the transaction too. -/
def chargeAllowance (tx : Transaction A K) (accessKey : AccessKey A) (totalCost : Nat) :
    Except (InvalidTxError A K) (AccessKey A) :=
  match accessKey.permission with
  | .functionCall permission =>
    match permission.allowance with
    | some allowance =>
      if totalCost ≤ allowance then
        .ok { accessKey with
          permission := .functionCall { permission with allowance := some (allowance - totalCost) } }
      else .error (.invalidAccessKeyError
        (.notEnoughAllowance tx.signerId tx.publicKey allowance totalCost))
    | none => .ok accessKey
  | .fullAccess => .ok accessKey

/-- A function-call key signs one `FunctionCall` without deposit, to its receiver, of one of its
methods (any method when the list is empty). -/
def checkAccessKeyPermission [DecidableEq A] (tx : Transaction A K) (accessKey : AccessKey A) :
    Except (InvalidTxError A K) Unit :=
  match accessKey.permission with
  | .functionCall permission =>
    if tx.actions.length ≠ 1 then .error (.invalidAccessKeyError .requiresFullAccess)
    else
      match tx.actions.head? with
      | some (.functionCall methodName deposit) =>
        if deposit > 0 then .error (.invalidAccessKeyError .depositWithFunctionCall)
        else if tx.receiverId ≠ permission.receiverId then
          .error (.invalidAccessKeyError (.receiverMismatch tx.receiverId permission.receiverId))
        else if !permission.methodNames.isEmpty ∧ permission.methodNames.all (· ≠ methodName) then
          .error (.invalidAccessKeyError (.methodNameMismatch methodName))
        else .ok ()
      | _ => .error (.invalidAccessKeyError .requiresFullAccess)
  | .fullAccess => .ok ()

/-- `verify_and_charge_transaction`, after `validate_transaction` gave `validated`. -/
def verifyAndChargeTransaction [DecidableEq A] [DecidableEq K] (config : RuntimeConfig A K) (features : ProtocolFeatures)
    (st : RuntimeState A K) (validated : Except (InvalidTxError A K) TransactionCost)
    (tx : Transaction A K) (blockHeight : Option Nat) :
    Except (VerifierError A K) (RuntimeState A K × VerificationResult) := do
  let cost ← validated
  let signer ← getSigner st tx
  let accessKey ← getSignerAccessKey st tx
  checkNonce features tx accessKey blockHeight
  let signer ← chargeSigner tx signer cost.totalCost
  let accessKey ← chargeAllowance tx { accessKey with nonce := tx.nonce } cost.totalCost
  (checkStoragePledge config features signer).mapError fun
    | .lackBalanceForStorageStaking amount => .invalidTxError (.lackBalanceForState tx.signerId amount)
    | .storageError message => .storageInconsistentState message
  checkAccessKeyPermission tx accessKey
  pure ((st.setAccessKey tx.signerId tx.publicKey accessKey).setAccount tx.signerId signer,
    { gasBurnt := cost.gasBurnt
      gasRemaining := cost.gasRemaining
      receiptGasPrice := cost.receiptGasPrice
      burntAmount := cost.burntAmount })

/-- The `ActionReceipt` a transaction becomes, with the fields the runtime reads. -/
structure Receipt (A K : Type) where
  predecessorId : A
  receiverId : A
  signerId : A
  signerPublicKey : K
  gasPrice : Nat
  actions : List (Action A K)
  deriving DecidableEq, Repr

/-- `Runtime::process_transaction` at `blockHeight`: the new state and the receipt, or the error
with the state rolled back. -/
def processTransaction [DecidableEq A] [DecidableEq K] (config : RuntimeConfig A K) (features : ProtocolFeatures)
    (st : RuntimeState A K) (blockHeight : Nat)
    (validated : Except (InvalidTxError A K) TransactionCost) (tx : Transaction A K) :
    Except (VerifierError A K) (RuntimeState A K × Receipt A K) :=
  match verifyAndChargeTransaction config features st validated tx (some blockHeight) with
  | .ok (st', result) =>
    .ok (st',
      { predecessorId := tx.signerId
        receiverId := tx.receiverId
        signerId := tx.signerId
        signerPublicKey := tx.publicKey
        gasPrice := result.receiptGasPrice
        actions := tx.actions })
  | .error e => .error e

/-! ## What a successful verification did -/

section Spec

variable {ε α β : Type}

theorem bind_eq_ok {x : Except ε α} {f : α → Except ε β} {b : β} :
    x >>= f = .ok b ↔ ∃ a, x = .ok a ∧ f a = .ok b := by
  cases x <;> simp [bind, Except.bind]

theorem mapError_eq_ok {ε' : Type} {x : Except ε α} {g : ε → ε'} {a : α} :
    x.mapError g = .ok a ↔ x = .ok a := by
  cases x <;> simp [Except.mapError]

theorem monadLift_invalidTx_eq_ok {x : Except (InvalidTxError A K) α} {a : α} :
    (monadLift x : Except (VerifierError A K) α) = .ok a ↔ x = .ok a :=
  mapError_eq_ok

end Spec

variable {features : ProtocolFeatures} {tx : Transaction A K}

theorem checkNonce_ok {accessKey : AccessKey A} {blockHeight : Option Nat}
    (h : checkNonce features tx accessKey blockHeight = .ok ()) :
    accessKey.nonce < tx.nonce ∧ ∀ height, features.accessKeyNonceRange = true →
      blockHeight = some height → tx.nonce < height * ACCESS_KEY_NONCE_RANGE_MULTIPLIER := by
  unfold checkNonce at h
  split_ifs at h with hle hfeat
  · refine ⟨by omega, fun height _ hh => ?_⟩
    subst hh
    simp only [ge_iff_le] at h
    split_ifs at h with hge
    exact Nat.lt_of_not_le hge
  · exact ⟨by omega, fun _ hf => absurd hf hfeat⟩

theorem chargeAllowance_nonce {accessKey accessKey' : AccessKey A} {totalCost : Nat}
    (h : chargeAllowance tx accessKey totalCost = .ok accessKey') :
    accessKey'.nonce = accessKey.nonce := by
  unfold chargeAllowance at h
  split at h
  · split at h
    · split_ifs at h
      cases h
      rfl
    · cases h; rfl
  · cases h; rfl

/-- **A successful verification** found the signing key, passed the nonce checks, and wrote the
key back with the transaction's nonce and the signer's account; nothing else changes. -/
theorem verifyAndChargeTransaction_ok [DecidableEq A] [DecidableEq K] {config : RuntimeConfig A K} {st st' : RuntimeState A K}
    {validated : Except (InvalidTxError A K) TransactionCost} {blockHeight : Option Nat}
    {result : VerificationResult}
    (h : verifyAndChargeTransaction config features st validated tx blockHeight = .ok (st', result)) :
    ∃ accessKey accessKey' signer, st.accessKeys tx.signerId tx.publicKey = some accessKey ∧
      checkNonce features tx accessKey blockHeight = .ok () ∧ accessKey'.nonce = tx.nonce ∧
      st' = (st.setAccessKey tx.signerId tx.publicKey accessKey').setAccount tx.signerId signer := by
  simp only [verifyAndChargeTransaction, bind_eq_ok, monadLift_invalidTx_eq_ok] at h
  obtain ⟨cost, -, signer, -, accessKey, hkey, ⟨⟩, hnonce, signer', -, accessKey', hallow, ⟨⟩,
    -, ⟨⟩, -, hpure⟩ := h
  have hkey' : st.accessKeys tx.signerId tx.publicKey = some accessKey := by
    unfold getSignerAccessKey at hkey
    split at hkey
    · cases hkey; assumption
    · cases hkey
  cases hpure
  exact ⟨accessKey, accessKey', signer', hkey', hnonce, chargeAllowance_nonce hallow, rfl⟩

theorem processTransaction_ok [DecidableEq A] [DecidableEq K] {config : RuntimeConfig A K} {st st' : RuntimeState A K}
    {blockHeight : Nat} {validated : Except (InvalidTxError A K) TransactionCost}
    {receipt : Receipt A K}
    (h : processTransaction config features st blockHeight validated tx = .ok (st', receipt)) :
    ∃ result, verifyAndChargeTransaction config features st validated tx (some blockHeight) =
      .ok (st', result) := by
  unfold processTransaction at h
  split at h
  · cases h; exact ⟨_, ‹_›⟩
  · cases h

end Unc
