import UncNode.Runtime.Verifier

/-!
# Receipt actions on accounts and access keys — `runtime/runtime/src/actions.rs` and `Runtime::apply_action`

A receipt's actions run in order on the receiver's account, each after
`check_account_existence` and `check_actor_permissions`; the first failed action stops the
receipt and its state changes are rolled back (`Runtime::apply_action_receipt`). The receiver's
account is read once, as an `Option`, and updated in place: a lone `Transfer` to a missing
implicit account creates it, `DeleteAccount` removes it.

Five actions write access keys. `action_add_key` refuses a key that exists, and under
`AccessKeyNonceRange` stores the new key with nonce
`(block_height - 1) * ACCESS_KEY_NONCE_RANGE_MULTIPLIER`, whatever nonce the action carries;
`action_delete_key` removes an existing key and `action_delete_account` all keys of the
account; `action_implicit_account_creation_transfer` gives a new UNC-implicit account the
full-access key of its id, at the same nonce under `AccessKeyNonceForImplicitAccounts`;
`validate_delegate_action_key` raises the nonce of the key that signed a `Delegate` to the
delegate's nonce, which must be above it. A transfer refunded to its signer raises the
allowance of the signing key and keeps its nonce (`try_refund_allowance`).

* `checkAccountExistence`, `checkActorPermissions`, the actions, `applyAction`,
  `applyActions`, `applyActionReceipt`;
* **`applyActionReceipt_accessKey`**: a key present after a receipt was there before with a
  nonce no larger, or the receipt added it (by `AddKey`, or by creating the implicit account
  whose key it is) with a nonce at least that of the block height.
-/

set_option autoImplicit false

namespace Unc

/-- `Account::MAX_ACCOUNT_DELETION_STORAGE_USAGE`. -/
def MAX_ACCOUNT_DELETION_STORAGE_USAGE : Nat := 10000

/-- `ActionErrorKind`: the variants of the modelled actions and of the checks around them. -/
inductive ActionErrorKind (A K : Type) where
  | accountDoesNotExist (accountId : A)
  | actorNoPermission (accountId actorId : A)
  | deleteAccountPledging (accountId : A)
  | addKeyAlreadyExists (accountId : A) (publicKey : K)
  | deleteKeyDoesNotExist (accountId : A) (publicKey : K)
  | deleteAccountWithLargeState (accountId : A)
  | lackBalanceForState (accountId : A) (amount : Nat)
  | delegateActionInvalidSignature
  | delegateActionExpired
  | delegateActionSenderDoesNotMatchTxReceiver (senderId receiverId : A)
  | delegateActionAccessKeyError (error : InvalidAccessKeyError A K)
  | delegateActionInvalidNonce (delegateNonce akNonce : Nat)
  | delegateActionNonceTooLarge (delegateNonce upperBound : Nat)
  deriving DecidableEq, Repr

/-- How an action fails: with an `ActionError`, after which the receipt is rolled back, or with
the `StorageError::StorageInconsistentState` of a balance overflow, which ends
`Runtime::apply`. -/
inductive ApplyActionError (A K : Type) where
  | actionError (kind : ActionErrorKind A K)
  | storageInconsistentState (message : String)
  deriving DecidableEq, Repr

/-- `AccountType::is_implicit`. -/
def AccountType.isImplicit : AccountType → Bool
  | .nearImplicitAccount | .ethImplicitAccount => true
  | .namedAccount => false

/-- What the actions read of an account id, which is abstract here. -/
structure AccountIds (A K : Type) where
  /-- `AccountId::get_account_type` -/
  getAccountType : A → AccountType
  /-- `PublicKey::from_unc_implicit_account`, on the ids of a `NearImplicitAccount` -/
  fromUncImplicitAccount : A → K
  /-- `AccountId::is_system` -/
  isSystem : A → Bool

/-- The parts of `ApplyState` that the actions read, with the functions on account ids. -/
structure ApplyState (A K : Type) where
  blockHeight : Nat
  features : ProtocolFeatures
  config : RuntimeConfig A K
  accountIds : AccountIds A K

/-- What `apply_action` updates in place: the state, the receiver's account, the actor, and the
balance refunds that `DeleteAccount` pushes to `result.new_receipts`. -/
structure ActionContext (A K : Type) where
  state : RuntimeState A K
  account : Option Account
  actorId : A
  balanceRefunds : List (A × Nat)

variable {A K : Type} [DecidableEq A] [DecidableEq K]

/-- `account_is_implicit`. -/
def accountIsImplicit (ids : AccountIds A K) (accountId : A) (ethImplicitAccountsEnabled : Bool) :
    Bool :=
  if ethImplicitAccountsEnabled then (ids.getAccountType accountId).isImplicit
  else decide (ids.getAccountType accountId = .nearImplicitAccount)

/-- `check_account_existence`: every modelled action needs the receiver's account, except a
`Transfer` alone in its receipt, not a refund, to a missing implicit account. -/
def checkAccountExistence (applyState : ApplyState A K) (action : Action A K)
    (account : Option Account) (accountId : A) (isTheOnlyAction isRefund : Bool) :
    Except (ActionErrorKind A K) Unit :=
  match action with
  | .transfer _ =>
    if account.isNone then
      if applyState.config.implicitAccountCreation && isTheOnlyAction &&
          accountIsImplicit applyState.accountIds accountId applyState.config.ethImplicitAccounts &&
          !isRefund then .ok ()
      else .error (.accountDoesNotExist accountId)
    else .ok ()
  | .functionCall _ _ | .addKey _ _ | .deleteKey _ | .deleteAccount _ | .delegate _ _ =>
    if account.isNone then .error (.accountDoesNotExist accountId) else .ok ()

/-- `check_actor_permissions`: only the account itself adds or deletes its keys or deletes
itself, and it is not deleted while it pledges. -/
def checkActorPermissions (action : Action A K) (account : Option Account) (actorId accountId : A) :
    Except (ActionErrorKind A K) Unit :=
  match action with
  | .addKey _ _ | .deleteKey _ =>
    if actorId ≠ accountId then .error (.actorNoPermission accountId actorId) else .ok ()
  | .deleteAccount _ =>
    if actorId ≠ accountId then .error (.actorNoPermission accountId actorId)
    -- `account.as_ref().unwrap()`: `check_account_existence` ran before
    else if (account.map (·.pledging)).getD 0 ≠ 0 then .error (.deleteAccountPledging accountId)
    else .ok ()
  | .functionCall _ _ | .transfer _ | .delegate _ _ => .ok ()

/-- `action_transfer`: `checked_add` on the `u128` balance. -/
def actionTransfer (account : Account) (deposit : Nat) : Except (ApplyActionError A K) Account :=
  if account.amount + deposit < 2 ^ 128 then .ok { account with amount := account.amount + deposit }
  else .error (.storageInconsistentState "Account balance integer overflow")

/-- `try_refund_allowance`: the allowance of a function-call key grows by the deposit,
saturating at `u128::MAX`, and the key is written back when it grew. -/
def tryRefundAllowance (st : RuntimeState A K) (accountId : A) (publicKey : K) (deposit : Nat) :
    RuntimeState A K :=
  match st.accessKeys accountId publicKey with
  | some accessKey =>
    match accessKey.permission with
    | .functionCall permission =>
      match permission.allowance with
      | some allowance =>
        let newAllowance := min (allowance + deposit) (2 ^ 128 - 1)
        if newAllowance > allowance then
          st.setAccessKey accountId publicKey
            { accessKey with
              permission := .functionCall { permission with allowance := some newAllowance } }
        else st
      | none => st
    | .fullAccess => st
  | none => st

/-- `action_implicit_account_creation_transfer`. A UNC-implicit account is created with the
full-access key of its id, whose nonce is that of the block height under
`AccessKeyNonceForImplicitAccounts` and `0` before; an ETH-implicit account with the wallet
contract's magic bytes as its code. The remaining cases panic in the source and are ruled out
by `check_account_existence`; the model only sets the actor there. -/
def actionImplicitAccountCreationTransfer (applyState : ApplyState A K) (ctx : ActionContext A K)
    (accountId : A) (deposit : Nat) : ActionContext A K :=
  let config := applyState.config
  match applyState.accountIds.getAccountType accountId with
  | .nearImplicitAccount =>
    let accessKey : AccessKey A :=
      { nonce := if applyState.features.accessKeyNonceForImplicitAccounts then
            (applyState.blockHeight - 1) * ACCESS_KEY_NONCE_RANGE_MULTIPLIER
          else 0
        permission := .fullAccess }
    let publicKey := applyState.accountIds.fromUncImplicitAccount accountId
    { ctx with
      state := ctx.state.setAccessKey accountId publicKey accessKey
      account := some
        { amount := deposit, pledging := 0, power := 0
          storageUsage := config.numBytesAccount + config.publicKeyLen publicKey +
            config.accessKeyLength accessKey + config.numExtraBytesRecord }
      actorId := accountId }
  | .ethImplicitAccount =>
    if applyState.features.ethImplicitAccounts then
      { ctx with
        state := ctx.state.setContractCode accountId config.walletContractMagicBytesLen
        account := some
          { amount := deposit, pledging := 0, power := 0
            storageUsage := config.numBytesAccount + config.walletContractMagicBytesLen +
              config.numExtraBytesRecord }
        actorId := accountId }
    else { ctx with actorId := accountId }
  | .namedAccount => { ctx with actorId := accountId }

/-- `action_add_key`. -/
def actionAddKey (applyState : ApplyState A K) (st : RuntimeState A K) (account : Account)
    (accountId : A) (publicKey : K) (accessKey : AccessKey A) :
    Except (ActionErrorKind A K) (RuntimeState A K × Account) :=
  if (st.accessKeys accountId publicKey).isSome then
    .error (.addKeyAlreadyExists accountId publicKey)
  else
    let st' := if applyState.features.accessKeyNonceRange then
        st.setAccessKey accountId publicKey
          { accessKey with
            nonce := (applyState.blockHeight - 1) * ACCESS_KEY_NONCE_RANGE_MULTIPLIER }
      else st.setAccessKey accountId publicKey accessKey
    .ok (st', { account with
      storageUsage :=
        account.storageUsage + applyState.config.accessKeyRecordBytes publicKey accessKey })

/-- `action_delete_key`; before `DELETE_KEY_STORAGE_USAGE_PROTOCOL_VERSION` the refund counts
the length of `Some(access_key)`, one byte more. -/
def actionDeleteKey (applyState : ApplyState A K) (st : RuntimeState A K) (account : Account)
    (accountId : A) (publicKey : K) :
    Except (ActionErrorKind A K) (RuntimeState A K × Account) :=
  match st.accessKeys accountId publicKey with
  | some accessKey =>
    let storageUsage := if applyState.features.deleteKeyStorageUsage then
        applyState.config.accessKeyRecordBytes publicKey accessKey
      else applyState.config.accessKeyRecordBytes publicKey accessKey + 1
    .ok (st.removeAccessKey accountId publicKey,
      { account with storageUsage := account.storageUsage - storageUsage })
  | none => .error (.deleteKeyDoesNotExist accountId publicKey)

/-- `action_delete_account`: under `DeleteActionRestriction` an account whose storage without
its code is above `MAX_ACCOUNT_DELETION_STORAGE_USAGE` stays; otherwise its balance goes to
the beneficiary in a refund receipt, the account is removed with its code and keys, and the
predecessor becomes the actor. -/
def actionDeleteAccount (applyState : ApplyState A K) (ctx : ActionContext A K)
    (receipt : Receipt A K) (accountId beneficiaryId : A) (account : Account) :
    Except (ActionErrorKind A K) (ActionContext A K) :=
  let accountStorageUsage := match ctx.state.contractCode accountId with
    | some codeLen => account.storageUsage - codeLen
    | none => account.storageUsage
  if applyState.features.deleteActionRestriction ∧
      accountStorageUsage > MAX_ACCOUNT_DELETION_STORAGE_USAGE then
    .error (.deleteAccountWithLargeState accountId)
  else
    .ok { state := ctx.state.removeAccount accountId
          account := none
          actorId := receipt.predecessorId
          balanceRefunds :=
            if account.amount > 0 then ctx.balanceRefunds ++ [(beneficiaryId, account.amount)]
            else ctx.balanceRefunds }

/-- The permission checks of `validate_delegate_action_key` for the key that signed the
delegate: a function-call key allows one `FunctionCall`, without deposit, to its receiver, of one
of its methods. `DepositWithFunctionCall` is recorded without returning, so the checks after it
replace it. -/
def delegateAccessKeyError (permission : AccessKeyPermission A) (delegateAction : DelegateAction A K) :
    Option (InvalidAccessKeyError A K) :=
  match permission with
  | .functionCall functionCallPermission =>
    if delegateAction.actions.length ≠ 1 then some .requiresFullAccess
    else
      match delegateAction.actions.head? with
      | some (.functionCall methodName deposit) =>
        let depositError := if deposit > 0 then some .depositWithFunctionCall else none
        if delegateAction.receiverId ≠ functionCallPermission.receiverId then
          some (.receiverMismatch delegateAction.receiverId functionCallPermission.receiverId)
        else if !functionCallPermission.methodNames.isEmpty ∧
            functionCallPermission.methodNames.all (· ≠ methodName) then
          some (.methodNameMismatch methodName)
        else depositError
      | _ => some .requiresFullAccess
  | .fullAccess => none

/-- `validate_delegate_action_key`: the key that signed the delegate exists, and the delegate's
nonce is above its nonce and below `block_height * ACCESS_KEY_NONCE_RANGE_MULTIPLIER`; the key
is written back with that nonce. On a permission error the source writes the key too, and the
receipt's rollback drops it. -/
def validateDelegateActionKey (applyState : ApplyState A K) (st : RuntimeState A K)
    (delegateAction : DelegateAction A K) : Except (ActionErrorKind A K) (RuntimeState A K) :=
  match st.accessKeys delegateAction.senderId delegateAction.publicKey with
  | none => .error (.delegateActionAccessKeyError
      (.accessKeyNotFound delegateAction.senderId delegateAction.publicKey))
  | some accessKey =>
    if delegateAction.nonce ≤ accessKey.nonce then
      .error (.delegateActionInvalidNonce delegateAction.nonce accessKey.nonce)
    else
      let upperBound := applyState.blockHeight * ACCESS_KEY_NONCE_RANGE_MULTIPLIER
      if delegateAction.nonce ≥ upperBound then
        .error (.delegateActionNonceTooLarge delegateAction.nonce upperBound)
      else
        match delegateAccessKeyError accessKey.permission delegateAction with
        | some error => .error (.delegateActionAccessKeyError error)
        | none =>
          .ok (st.setAccessKey delegateAction.senderId delegateAction.publicKey
            { accessKey with nonce := delegateAction.nonce })

/-- `apply_delegate_action` on the state: the signature, the expiry and the sender are checked
before the key. The receipt of the inner actions it sends, and the gas it burns, are not part
of the state. -/
def applyDelegateAction (applyState : ApplyState A K) (senderId : A) (st : RuntimeState A K)
    (delegateAction : DelegateAction A K) (signatureValid : Bool) :
    Except (ActionErrorKind A K) (RuntimeState A K) :=
  if !signatureValid then .error .delegateActionInvalidSignature
  else if applyState.blockHeight > delegateAction.maxBlockHeight then .error .delegateActionExpired
  else if delegateAction.senderId ≠ senderId then
    .error (.delegateActionSenderDoesNotMatchTxReceiver delegateAction.senderId senderId)
  else validateDelegateActionKey applyState st delegateAction

/-- `account.as_mut().expect(EXPECT_ACCOUNT_EXISTS)` around an action on the receiver's account;
the missing account, where the source panics, is ruled out by `check_account_existence`. -/
def onAccount (ctx : ActionContext A K)
    (f : Account → Except (ActionErrorKind A K) (RuntimeState A K × Account)) :
    Except (ApplyActionError A K) (ActionContext A K) :=
  match ctx.account with
  | some account =>
    match f account with
    | .ok (state, account) => .ok { ctx with state, account := some account }
    | .error e => .error (.actionError e)
  | none => .ok ctx

/-- `Runtime::apply_action` for the modelled actions on the receiver of `receipt`; a function
call runs contract code, whose effects are not modelled. -/
def applyAction (applyState : ApplyState A K) (receipt : Receipt A K) (isTheOnlyAction : Bool)
    (ctx : ActionContext A K) (action : Action A K) :
    Except (ApplyActionError A K) (ActionContext A K) := do
  let accountId := receipt.receiverId
  let isRefund := applyState.accountIds.isSystem receipt.predecessorId
  (checkAccountExistence applyState action ctx.account accountId isTheOnlyAction isRefund).mapError
    .actionError
  (checkActorPermissions action ctx.account ctx.actorId accountId).mapError .actionError
  match action with
  | .functionCall _ _ => pure ctx
  | .transfer deposit =>
    match ctx.account with
    | some account => do
      let account ← actionTransfer account deposit
      let state := if isRefund && decide (receipt.signerId = receipt.receiverId) then
          tryRefundAllowance ctx.state receipt.receiverId receipt.signerPublicKey deposit
        else ctx.state
      pure { ctx with state, account := some account }
    | none => pure (actionImplicitAccountCreationTransfer applyState ctx accountId deposit)
  | .addKey publicKey accessKey =>
    onAccount ctx fun account =>
      actionAddKey applyState ctx.state account accountId publicKey accessKey
  | .deleteKey publicKey =>
    onAccount ctx fun account => actionDeleteKey applyState ctx.state account accountId publicKey
  | .deleteAccount beneficiaryId =>
    match ctx.account with
    | some account =>
      (actionDeleteAccount applyState ctx receipt accountId beneficiaryId account).mapError
        .actionError
    | none => pure ctx
  | .delegate delegateAction signatureValid => do
    let state ← (applyDelegateAction applyState accountId ctx.state delegateAction
      signatureValid).mapError .actionError
    pure { ctx with state }

/-- The loop of `apply_action_receipt`: the actions in order, stopping at the first error. -/
def applyActions (applyState : ApplyState A K) (receipt : Receipt A K) (isTheOnlyAction : Bool) :
    List (Action A K) → ActionContext A K → Except (ApplyActionError A K) (ActionContext A K)
  | [], ctx => .ok ctx
  | action :: rest, ctx => do
    let ctx ← applyAction applyState receipt isTheOnlyAction ctx action
    applyActions applyState receipt isTheOnlyAction rest ctx

/-- `Runtime::apply_action_receipt`. On success an account that still exists must cover its
storage (`check_storage_pledge`) and is written back, and the changes are committed with the
balance refunds to send; on an action error they are rolled back. A storage error is the
`Err(RuntimeError)` that ends `Runtime::apply`. -/
def applyActionReceipt (applyState : ApplyState A K) (st : RuntimeState A K)
    (receipt : Receipt A K) :
    Except String (RuntimeState A K × Except (ActionErrorKind A K) (List (A × Nat))) :=
  let ctx : ActionContext A K :=
    { state := st
      account := st.accounts receipt.receiverId
      actorId := receipt.predecessorId
      balanceRefunds := [] }
  match applyActions applyState receipt (receipt.actions.length == 1) receipt.actions ctx with
  | .ok ctx' =>
    match ctx'.account with
    | some account =>
      match checkStoragePledge applyState.config applyState.features account with
      | .ok () => .ok (ctx'.state.setAccount receipt.receiverId account, .ok ctx'.balanceRefunds)
      | .error (.lackBalanceForStorageStaking amount) =>
        .ok (st, .error (.lackBalanceForState receipt.receiverId amount))
      | .error (.storageError message) => .error message
    | none => .ok (ctx'.state, .ok ctx'.balanceRefunds)
  | .error (.actionError e) => .ok (st, .error e)
  | .error (.storageInconsistentState message) => .error message

/-! ## Where the keys after a receipt come from -/

/-- What a key present after some actions is: one that was there before with a nonce no larger,
or one that the actions added (`added`), with a nonce no smaller than that of the block
height. -/
def KeyFrom (applyState : ApplyState A K) (st st' : RuntimeState A K) (a : A) (k : K)
    (added : Prop) : Prop :=
  ∀ accessKey', st'.accessKeys a k = some accessKey' →
    (∃ accessKey, st.accessKeys a k = some accessKey ∧ accessKey.nonce ≤ accessKey'.nonce) ∨
      (added ∧
        (applyState.blockHeight - 1) * ACCESS_KEY_NONCE_RANGE_MULTIPLIER ≤ accessKey'.nonce)

/-- The action adds the key `k` of `a` when the receiver is `a`: an `AddKey` of `k`, or a
`Transfer` alone in its receipt that creates the UNC-implicit account `a` whose key is `k`. -/
def Action.AddsKey (ids : AccountIds A K) (accountId : A) (account : Option Account)
    (isTheOnlyAction : Bool) (a : A) (k : K) : Action A K → Prop
  | .addKey publicKey _ => a = accountId ∧ publicKey = k
  | .transfer _ =>
    a = accountId ∧ isTheOnlyAction = true ∧ account = none ∧
      ids.getAccountType a = .nearImplicitAccount ∧ ids.fromUncImplicitAccount a = k
  | .functionCall _ _ | .deleteKey _ | .deleteAccount _ | .delegate _ _ => False

/-- The receipt adds the key `k` of `a`, from the state `st`: an `AddKey` of `k` to `a`, or a
lone `Transfer` that creates the missing UNC-implicit account `a` whose key is `k`. -/
def Receipt.AddsKey (ids : AccountIds A K) (st : RuntimeState A K) (receipt : Receipt A K) (a : A)
    (k : K) : Prop :=
  receipt.receiverId = a ∧
    ((∃ accessKey, Action.addKey k accessKey ∈ receipt.actions) ∨
      (st.accounts a = none ∧ (∃ deposit, receipt.actions = [.transfer deposit]) ∧
        ids.getAccountType a = .nearImplicitAccount ∧ ids.fromUncImplicitAccount a = k))

variable {applyState : ApplyState A K} {st st' : RuntimeState A K} {a : A} {k : K}
  {added added' : Prop}

omit [DecidableEq A] [DecidableEq K] in
theorem KeyFrom.refl : KeyFrom applyState st st a k added :=
  fun accessKey h => .inl ⟨accessKey, h, le_rfl⟩

omit [DecidableEq A] [DecidableEq K] in
theorem KeyFrom.trans {st'' : RuntimeState A K} (h₁ : KeyFrom applyState st st' a k added)
    (h₂ : KeyFrom applyState st' st'' a k added) : KeyFrom applyState st st'' a k added := by
  intro accessKey'' hkey
  rcases h₂ accessKey'' hkey with ⟨accessKey', hprev, hnonce⟩ | hadd
  · rcases h₁ accessKey' hprev with ⟨accessKey, hfirst, hnonce'⟩ | ⟨hadded, hnonce'⟩
    · exact .inl ⟨accessKey, hfirst, hnonce'.trans hnonce⟩
    · exact .inr ⟨hadded, hnonce'.trans hnonce⟩
  · exact .inr hadd

omit [DecidableEq A] [DecidableEq K] in
theorem KeyFrom.mono (himp : added → added') (h : KeyFrom applyState st st' a k added) :
    KeyFrom applyState st st' a k added' := by
  intro accessKey' hkey
  rcases h accessKey' hkey with hprev | ⟨hadded, hnonce⟩
  · exact .inl hprev
  · exact .inr ⟨himp hadded, hnonce⟩

/-- A write of one key leaves every other key as it was. -/
theorem KeyFrom.setAccessKey_other {accountId : A} {publicKey : K} {accessKey : AccessKey A}
    (hother : ¬ (a = accountId ∧ k = publicKey)) :
    KeyFrom applyState st (st.setAccessKey accountId publicKey accessKey) a k added := by
  intro accessKey' hkey
  rw [RuntimeState.setAccessKey_accessKeys, if_neg hother] at hkey
  exact .inl ⟨accessKey', hkey, le_rfl⟩

/-! ### One action -/

theorem tryRefundAllowance_keyFrom {accountId : A} {publicKey : K} {deposit : Nat} :
    KeyFrom applyState st (tryRefundAllowance st accountId publicKey deposit) a k added := by
  unfold tryRefundAllowance
  split
  · rename_i accessKey hold
    split
    · split
      · dsimp only
        split_ifs
        · -- the written key is the old one with a larger allowance, at the same nonce
          intro accessKey' hkey
          simp only [RuntimeState.setAccessKey_accessKeys] at hkey
          split_ifs at hkey with hak
          · obtain ⟨rfl, rfl⟩ := hak
            cases hkey
            exact .inl ⟨accessKey, hold, le_rfl⟩
          · exact .inl ⟨accessKey', hkey, le_rfl⟩
        · exact KeyFrom.refl
      · exact KeyFrom.refl
    · exact KeyFrom.refl
  · exact KeyFrom.refl

theorem actionDeleteKey_keyFrom {account account' : Account} {accountId : A} {publicKey : K}
    (h : actionDeleteKey applyState st account accountId publicKey = .ok (st', account')) :
    KeyFrom applyState st st' a k added := by
  unfold actionDeleteKey at h
  split at h
  · cases h
    intro accessKey' hkey
    simp only [RuntimeState.removeAccessKey_accessKeys] at hkey
    split_ifs at hkey
    exact .inl ⟨accessKey', hkey, le_rfl⟩
  · cases h

omit [DecidableEq K] in
/-- A deletion that goes through removes the account with its keys. -/
theorem actionDeleteAccount_state {ctx ctx' : ActionContext A K} {receipt : Receipt A K}
    {accountId beneficiaryId : A} {account : Account}
    (h : actionDeleteAccount applyState ctx receipt accountId beneficiaryId account = .ok ctx') :
    ctx'.state = ctx.state.removeAccount accountId := by
  simp only [actionDeleteAccount] at h
  split_ifs at h
  -- the test of the balance only decides the refund
  · cases h; rfl
  · cases h; rfl

omit [DecidableEq K] in
theorem actionDeleteAccount_keyFrom {ctx ctx' : ActionContext A K} {receipt : Receipt A K}
    {accountId beneficiaryId : A} {account : Account}
    (h : actionDeleteAccount applyState ctx receipt accountId beneficiaryId account = .ok ctx') :
    KeyFrom applyState ctx.state ctx'.state a k added := by
  intro accessKey' hkey
  rw [actionDeleteAccount_state h, RuntimeState.removeAccount_accessKeys] at hkey
  split_ifs at hkey
  exact .inl ⟨accessKey', hkey, le_rfl⟩

/-- A `Delegate` raises the nonce of the key that signed it, and leaves every other key. -/
theorem validateDelegateActionKey_keyFrom {delegateAction : DelegateAction A K}
    (h : validateDelegateActionKey applyState st delegateAction = .ok st') :
    KeyFrom applyState st st' a k added := by
  unfold validateDelegateActionKey at h
  split at h
  · cases h
  · rename_i accessKey hold
    dsimp only at h
    split_ifs at h with hlow hhigh
    split at h
    · cases h
    · cases h
      intro accessKey' hkey
      simp only [RuntimeState.setAccessKey_accessKeys] at hkey
      split_ifs at hkey with hak
      · -- the signing key, with the delegate's nonce above its own
        obtain ⟨rfl, rfl⟩ := hak
        cases hkey
        exact .inl ⟨accessKey, hold, Nat.le_of_lt (Nat.lt_of_not_le hlow)⟩
      · exact .inl ⟨accessKey', hkey, le_rfl⟩

theorem applyDelegateAction_keyFrom {senderId : A} {delegateAction : DelegateAction A K}
    {signatureValid : Bool}
    (h : applyDelegateAction applyState senderId st delegateAction signatureValid = .ok st') :
    KeyFrom applyState st st' a k added := by
  unfold applyDelegateAction at h
  split_ifs at h
  exact validateDelegateActionKey_keyFrom h

omit [DecidableEq A] [DecidableEq K] in
/-- The step of `onAccount`: the context as it was, or the action's result on the account. -/
theorem onAccount_eq_ok {ctx ctx' : ActionContext A K}
    {f : Account → Except (ActionErrorKind A K) (RuntimeState A K × Account)}
    (h : onAccount ctx f = .ok ctx') :
    ctx' = ctx ∨ ∃ account state account', ctx.account = some account ∧
      f account = .ok (state, account') ∧ ctx'.state = state := by
  unfold onAccount at h
  split at h
  · rename_i account hacc
    split at h
    · rename_i state account' hf
      cases h
      exact .inr ⟨account, state, account', hacc, hf, rfl⟩
    · cases h
  · cases h; exact .inl rfl

omit [DecidableEq A] [DecidableEq K] in
/-- Only a lone `Transfer` passes `check_account_existence` without the account. -/
theorem checkAccountExistence_none {accountId : A} {isTheOnlyAction isRefund : Bool}
    {deposit : Nat}
    (h : checkAccountExistence applyState (.transfer deposit) none accountId isTheOnlyAction
      isRefund = .ok ()) :
    isTheOnlyAction = true := by
  unfold checkAccountExistence at h
  simp only [Option.isNone_none, if_true] at h
  split_ifs at h with hok
  simp only [Bool.and_eq_true] at hok
  exact hok.1.1.2

section Actions

variable (hfeat : applyState.features.accessKeyNonceRange = true)
  (himplicit : applyState.features.accessKeyNonceForImplicitAccounts = true)

include hfeat in
theorem actionAddKey_keyFrom {account account' : Account} {accountId : A} {publicKey : K}
    {accessKey : AccessKey A}
    (h : actionAddKey applyState st account accountId publicKey accessKey = .ok (st', account')) :
    KeyFrom applyState st st' a k (a = accountId ∧ publicKey = k) := by
  unfold actionAddKey at h
  rw [if_pos hfeat] at h
  split_ifs at h
  cases h
  by_cases hak : a = accountId ∧ k = publicKey
  · -- the added key, stored at the nonce of the block height
    obtain ⟨rfl, rfl⟩ := hak
    intro accessKey' hkey
    simp only [RuntimeState.setAccessKey_accessKeys, and_self, if_true, Option.some.injEq] at hkey
    exact .inr ⟨⟨rfl, rfl⟩, le_of_eq (by rw [← hkey])⟩
  · exact KeyFrom.setAccessKey_other hak

include himplicit in
theorem actionImplicitAccountCreationTransfer_keyFrom {ctx : ActionContext A K} {accountId : A}
    {deposit : Nat} :
    KeyFrom applyState ctx.state
      (actionImplicitAccountCreationTransfer applyState ctx accountId deposit).state a k
      (a = accountId ∧ applyState.accountIds.getAccountType a = .nearImplicitAccount ∧
        applyState.accountIds.fromUncImplicitAccount a = k) := by
  unfold actionImplicitAccountCreationTransfer
  split
  · rename_i htype
    by_cases hak : a = accountId ∧ k = applyState.accountIds.fromUncImplicitAccount accountId
    · -- the key of the implicit account, at the nonce of the block height
      obtain ⟨rfl, rfl⟩ := hak
      intro accessKey' hkey
      simp only [RuntimeState.setAccessKey_accessKeys, and_self, if_true,
        Option.some.injEq] at hkey
      refine .inr ⟨⟨rfl, htype, rfl⟩, le_of_eq ?_⟩
      rw [← hkey, if_pos himplicit]
    · exact KeyFrom.setAccessKey_other hak
  · split_ifs
    · exact KeyFrom.refl
    · exact KeyFrom.refl
  · exact KeyFrom.refl

include hfeat himplicit in
/-- One action: only an `AddKey`, or the `Transfer` that creates an implicit account, adds a
key, with the nonce of the block height. -/
theorem applyAction_keyFrom {receipt : Receipt A K} {isTheOnlyAction : Bool}
    {ctx ctx' : ActionContext A K} {action : Action A K}
    (h : applyAction applyState receipt isTheOnlyAction ctx action = .ok ctx') :
    KeyFrom applyState ctx.state ctx'.state a k
      (action.AddsKey applyState.accountIds receipt.receiverId ctx.account isTheOnlyAction a k) := by
  simp only [applyAction, bind_eq_ok, mapError_eq_ok] at h
  obtain ⟨⟨⟩, hexist, ⟨⟩, -, h⟩ := h
  cases action with
  | functionCall _ _ => cases h; exact KeyFrom.refl
  | transfer deposit =>
    dsimp only at h
    split at h
    · -- an existing account: its balance, and a refund's allowance
      obtain ⟨account', -, h⟩ := bind_eq_ok.mp h
      cases h
      split_ifs
      · exact tryRefundAllowance_keyFrom
      · exact KeyFrom.refl
    · -- a missing account is created, alone in its receipt
      rename_i hnone
      cases h
      rw [hnone] at hexist
      have honly := checkAccountExistence_none hexist
      refine (actionImplicitAccountCreationTransfer_keyFrom himplicit).mono ?_
      rintro ⟨ha, htype, hkey⟩
      exact ⟨ha, honly, hnone, htype, hkey⟩
  | addKey publicKey accessKey =>
    rcases onAccount_eq_ok h with rfl | ⟨account, state, account', -, hadd, hstate⟩
    · exact KeyFrom.refl
    · rw [hstate]
      exact actionAddKey_keyFrom hfeat hadd
  | deleteKey publicKey =>
    rcases onAccount_eq_ok h with rfl | ⟨account, state, account', -, hdel, hstate⟩
    · exact KeyFrom.refl
    · rw [hstate]
      exact actionDeleteKey_keyFrom hdel
  | deleteAccount beneficiaryId =>
    dsimp only at h
    split at h
    · exact actionDeleteAccount_keyFrom (mapError_eq_ok.mp h)
    · cases h; exact KeyFrom.refl
  | delegate delegateAction signatureValid =>
    obtain ⟨state, hdelegate, h⟩ := bind_eq_ok.mp h
    cases h
    exact applyDelegateAction_keyFrom (mapError_eq_ok.mp hdelegate)

include hfeat himplicit in
/-- The action loop of a receipt with more than one action, by induction over the actions:
no action creates an account, so only the `AddKey`s add keys. -/
theorem applyActions_keyFrom {receipt : Receipt A K} :
    ∀ {actions : List (Action A K)} {ctx ctx' : ActionContext A K},
    applyActions applyState receipt false actions ctx = .ok ctx' →
      KeyFrom applyState ctx.state ctx'.state a k
        (a = receipt.receiverId ∧ ∃ accessKey, Action.addKey k accessKey ∈ actions)
  | [], _, _, h => by cases h; exact KeyFrom.refl
  | action :: rest, ctx, ctx', h => by
    simp only [applyActions, bind_eq_ok] at h
    obtain ⟨ctx₁, hact, hrest⟩ := h
    have hhead : KeyFrom applyState ctx.state ctx₁.state a k
        (a = receipt.receiverId ∧ ∃ accessKey, Action.addKey k accessKey ∈ action :: rest) := by
      refine (applyAction_keyFrom hfeat himplicit hact).mono ?_
      cases action with
      | addKey publicKey accessKey =>
        rintro ⟨ha, rfl⟩
        exact ⟨ha, accessKey, List.mem_cons_self⟩
      | transfer _ => rintro ⟨-, honly, -⟩; cases honly
      | functionCall _ _ => exact False.elim
      | deleteKey _ => exact False.elim
      | deleteAccount _ => exact False.elim
      | delegate _ _ => exact False.elim
    have htail : KeyFrom applyState ctx₁.state ctx'.state a k
        (a = receipt.receiverId ∧ ∃ accessKey, Action.addKey k accessKey ∈ action :: rest) :=
      (applyActions_keyFrom hrest).mono
        fun ⟨ha, accessKey, hmem⟩ => ⟨ha, accessKey, List.mem_cons_of_mem _ hmem⟩
    exact hhead.trans htail

include hfeat himplicit in
/-- The actions of a receipt from the receiver's account as it is: a lone action is the step
above, a longer list the loop. -/
theorem applyActions_receipt_keyFrom {receipt : Receipt A K} {ctx' : ActionContext A K}
    (h : applyActions applyState receipt (receipt.actions.length == 1) receipt.actions
      { state := st, account := st.accounts receipt.receiverId, actorId := receipt.predecessorId,
        balanceRefunds := [] } = .ok ctx') :
    KeyFrom applyState st ctx'.state a k (receipt.AddsKey applyState.accountIds st a k) := by
  match hacts : receipt.actions, h with
  | [], h => cases h; exact KeyFrom.refl
  | [action], h =>
    simp only [applyActions, List.length_singleton, beq_self_eq_true, bind_eq_ok] at h
    obtain ⟨ctx₁, hact, hnil⟩ := h
    cases hnil
    refine (applyAction_keyFrom hfeat himplicit hact).mono ?_
    cases action with
    | addKey publicKey accessKey =>
      rintro ⟨rfl, rfl⟩
      exact ⟨rfl, .inl ⟨accessKey, by simp [hacts]⟩⟩
    | transfer deposit =>
      rintro ⟨rfl, -, hnone, htype, hkey⟩
      exact ⟨rfl, .inr ⟨hnone, ⟨deposit, hacts⟩, htype, hkey⟩⟩
    | functionCall _ _ => exact False.elim
    | deleteKey _ => exact False.elim
    | deleteAccount _ => exact False.elim
    | delegate _ _ => exact False.elim
  | action :: action' :: rest, h =>
    have hlen : ((action :: action' :: rest).length == 1) = false := by simp
    rw [hlen] at h
    refine (applyActions_keyFrom hfeat himplicit h).mono ?_
    rintro ⟨rfl, accessKey, hmem⟩
    exact ⟨rfl, .inl ⟨accessKey, hacts ▸ hmem⟩⟩

include hfeat himplicit in
/-- **A key present after a receipt** was there before with a nonce no larger, or the receipt
added it for its receiver, by `AddKey` or by creating the UNC-implicit account whose key it
is, with a nonce of at least `(block_height - 1) * MULTIPLIER`. -/
theorem applyActionReceipt_accessKey {receipt : Receipt A K}
    {result : Except (ActionErrorKind A K) (List (A × Nat))}
    (h : applyActionReceipt applyState st receipt = .ok (st', result)) :
    KeyFrom applyState st st' a k (receipt.AddsKey applyState.accountIds st a k) := by
  unfold applyActionReceipt at h
  dsimp only at h
  split at h
  · rename_i ctx' hloop
    have hkeys : KeyFrom applyState st ctx'.state a k
        (receipt.AddsKey applyState.accountIds st a k) :=
      applyActions_receipt_keyFrom hfeat himplicit hloop
    split at h
    · split at h
      · -- the account is written back, which leaves the keys
        cases h
        intro accessKey' hkey
        rw [RuntimeState.setAccount_accessKeys] at hkey
        exact hkeys accessKey' hkey
      · cases h; exact KeyFrom.refl
      · cases h
    · cases h; exact hkeys
  · cases h; exact KeyFrom.refl
  · cases h

end Actions

end Unc
