import UncNode.Lib.RecordSum
import UncNode.Runtime.Fees

/-!
# The storage usage of accounts

`storage_usage` of an account is kept by deltas: `action_create_account` and
`action_implicit_account_creation_transfer` start it, `action_deploy_contract`,
`action_add_key`, `action_delete_key`, `action_register_rsa2048_keys` and
`action_create_rsa2048_challenge` (`runtime/runtime/src/actions.rs`) change it, and a function
call sets it to the `current_storage_usage` that `VMLogic::storage_write` and
`VMLogic::storage_remove` keep.

The world keeps, for each account, its `storage_usage` and the trie records the accounting is
about: access keys, contract data, code and RSA-2048 key records (`AccountRecords`).

* `expectedStorageUsage`: `num_bytes_account` plus, for each access key,
  `borsh(public_key) + borsh(access_key) + num_extra_bytes_record`, for each data record
  `key + value + num_extra_bytes_record`, the code length, and for each RSA-2048 record
  `borsh(record) + num_extra_bytes_record`;
* `actionRegisterRsa2048Keys` charges a new record as the formula counts it;
* **`rsa2048_challenge_breaks_storage_usage`**: a challenge moves a record from `unc` to the
  caller, charges the caller only `borsh(public_key) + num_extra_bytes_record` and leaves the
  storage of `unc` as it was.
-/

set_option autoImplicit false

namespace Unc

/-- The byte lengths borsh gives to the values the accounting counts: a public key (its tag and
key bytes, which `PublicKey::len` also returns) and an account id (its string bytes). -/
structure BorshLen (A K : Type) where
  publicKey : K → Nat
  accountId : A → Nat

variable {A K : Type}

/-- `borsh::object_length` of a `FunctionCallPermission`. -/
def FunctionCallPermission.borshLength (lens : BorshLen A K) (p : FunctionCallPermission A) :
    Nat :=
  (match p.allowance with
    | none => 1
    | some _ => 1 + 16) +
  (4 + lens.accountId p.receiverId) + (4 + (p.methodNames.map fun m => 4 + m.utf8ByteSize).sum)

/-- `borsh::object_length` of an `AccessKey`: the `u64` nonce and the tagged permission. -/
def AccessKey.borshLength (lens : BorshLen A K) (accessKey : AccessKey A) : Nat :=
  8 + match accessKey.permission with
    | .functionCall p => 1 + p.borshLength lens
    | .fullAccess => 1

@[simp] theorem AccessKey.borshLength_nonce (lens : BorshLen A K) (accessKey : AccessKey A)
    (nonce : Nat) : ({ accessKey with nonce } : AccessKey A).borshLength lens =
      accessKey.borshLength lens := rfl

namespace StorageUsage

open RecordSum

/-- `RegisterRsa2048KeysAction`, the value stored under `TrieKey::Rsa2048Keys`. -/
structure RegisterRsa2048KeysAction (K : Type) where
  publicKey : K
  operationType : Nat
  args : List UInt8
  deriving DecidableEq, Repr

/-- `borsh::object_length` of a `RegisterRsa2048KeysAction`. -/
def RegisterRsa2048KeysAction.borshLength (lens : BorshLen A K)
    (record : RegisterRsa2048KeysAction K) : Nat :=
  lens.publicKey record.publicKey + 1 + (4 + record.args.length)

/-- The trie records under one account. -/
structure AccountRecords (A K : Type) where
  accessKeys : AList (fun _ : K => AccessKey A)
  contractData : AList (fun _ : List UInt8 => List UInt8)
  contractCode : Option (List UInt8)
  rsa2048Keys : AList (fun _ : K => RegisterRsa2048KeysAction K)

/-- An account without records. -/
def AccountRecords.empty : AccountRecords A K := ⟨∅, ∅, none, ∅⟩

/-- Each account's `storage_usage` (`none`: no account) and its records. -/
structure World (A K : Type) where
  storageUsage : A → Option Nat
  records : A → AccountRecords A K

section Bytes

variable (lens : BorshLen A K) (config : Fees.StorageUsageConfig)

/-- What one access key record adds to `storage_usage`. -/
def accessKeyBytes (publicKey : K) (accessKey : AccessKey A) : Nat :=
  lens.publicKey publicKey + accessKey.borshLength lens + config.numExtraBytesRecord

/-- What one contract data record adds to `storage_usage`. -/
def dataBytes (key value : List UInt8) : Nat :=
  key.length + value.length + config.numExtraBytesRecord

/-- What one RSA-2048 key record adds to `storage_usage`. -/
def rsa2048KeyBytes (_publicKey : K) (record : RegisterRsa2048KeysAction K) : Nat :=
  record.borshLength lens + config.numExtraBytesRecord

/-- The length of the deployed code, zero without code. -/
def codeLength (records : AccountRecords A K) : Nat :=
  (records.contractCode.map List.length).getD 0

/-- The `storage_usage` that an account's records account for. -/
def expectedStorageUsage (records : AccountRecords A K) : Nat :=
  config.numBytesAccount + total (accessKeyBytes lens config) records.accessKeys +
    total (dataBytes config) records.contractData + codeLength records +
    total (rsa2048KeyBytes lens config) records.rsa2048Keys

/-- One account is accounted for: an existing account's `storage_usage` is what its records
account for, and there are no records without an account. -/
def AccountGood : Option Nat → AccountRecords A K → Prop
  | some storageUsage, records => storageUsage = expectedStorageUsage lens config records
  | none, records => records = .empty

/-- Every account is accounted for. -/
def StorageInv (W : World A K) : Prop :=
  ∀ a, AccountGood lens config (W.storageUsage a) (W.records a)

end Bytes

/-! ## The RSA-2048 actions -/

/-- `CreateRsa2048ChallengeAction`. -/
structure CreateRsa2048ChallengeAction (K : Type) where
  publicKey : K
  challengeKey : K
  args : List UInt8
  deriving DecidableEq, Repr

/-- The `ActionErrorKind`s of the RSA-2048 actions. -/
inductive ActionErrorKind (A K : Type) where
  | addKeyAlreadyExists (accountId : A) (publicKey : K)
  | rsaKeysNotFound (accountId : A) (publicKey : K)
  deriving DecidableEq, Repr

section Actions

variable [DecidableEq A] [DecidableEq K] (lens : BorshLen A K)
  (config : Fees.StorageUsageConfig)

/-- One account's `storage_usage` and records replaced. -/
def World.set (W : World A K) (a : A) (storageUsage : Option Nat)
    (records : AccountRecords A K) : World A K where
  storageUsage := Function.update W.storageUsage a storageUsage
  records := Function.update W.records a records

/-- `action_register_rsa2048_keys` on the receiver `accountId`; `none` is the panic of a
missing account (`EXPECT_ACCOUNT_EXISTS`). -/
def actionRegisterRsa2048Keys (W : World A K) (accountId : A)
    (registerKey : RegisterRsa2048KeysAction K) :
    Option (Except (ActionErrorKind A K) (World A K)) :=
  (W.storageUsage accountId).map fun storageUsage =>
    let records := W.records accountId
    if registerKey.publicKey ∈ records.rsa2048Keys then
      .error (.addKeyAlreadyExists accountId registerKey.publicKey)
    else
      .ok (W.set accountId
        (some (storageUsage + (registerKey.borshLength lens + config.numExtraBytesRecord)))
        { records with
          rsa2048Keys := records.rsa2048Keys.insert registerKey.publicKey registerKey })

/-- `action_create_rsa2048_challenge` by the receiver `accountId`: the record registered under
`unc` (`rootId`) moves to the caller, which pays for its public key. `isJson` says whether
`serde_json` parses the record's `args`; when it does not, the action changes nothing. The
account's power, which a `"power"` argument raises, is not kept here. -/
def actionCreateRsa2048Challenge (isJson : List UInt8 → Bool) (rootId : A) (W : World A K)
    (accountId : A) (challenge : CreateRsa2048ChallengeAction K) :
    Option (Except (ActionErrorKind A K) (World A K)) :=
  (W.storageUsage accountId).map fun storageUsage =>
    match (W.records rootId).rsa2048Keys.lookup challenge.publicKey with
    | none => .error (.rsaKeysNotFound accountId challenge.publicKey)
    | some registeredKeys =>
      if isJson registeredKeys.args then
        let rootRecords := W.records rootId
        let W₁ := W.set rootId (W.storageUsage rootId)
          { rootRecords with rsa2048Keys := rootRecords.rsa2048Keys.erase challenge.publicKey }
        let records := W₁.records accountId
        .ok (W₁.set accountId
          (some (storageUsage + (lens.publicKey challenge.publicKey + config.numExtraBytesRecord)))
          { records with
            rsa2048Keys := records.rsa2048Keys.insert challenge.publicKey registeredKeys })
      else .ok W

end Actions

/-- Every public key an RSA-2048 key (`295` bytes in borsh: its tag and
`RAW_PUBLIC_KEY_RSA_2048_LENGTH = 294` bytes), every account id ten bytes. -/
def sampleLens : BorshLen Nat Nat := ⟨fun _ => 295, fun _ => 10⟩

/-- `num_bytes_account = 100`, `num_extra_bytes_record = 40`. -/
def sampleStorageConfig : Fees.StorageUsageConfig := ⟨1, 100, 40⟩

/-- Accounts `0` (`unc`) and `1`, both without records. -/
def sampleWorld : World Nat Nat :=
  ⟨fun a => if a ≤ 1 then some 100 else none, fun _ => .empty⟩

/-- From a world where every account is accounted, `unc` registers a record with arguments `{}`
(charged `442 = 100 + 302 + 40`, as counted) and account `1` takes it by a challenge: `unc` keeps
paying `442` for no record, and account `1` pays `435` for `442` bytes. -/
theorem rsa2048_challenge_breaks_storage_usage :
    StorageInv sampleLens sampleStorageConfig sampleWorld ∧
      ((actionRegisterRsa2048Keys sampleLens sampleStorageConfig sampleWorld 0
          ⟨7, 0, [123, 125]⟩).bind Except.toOption).bind (fun W₁ =>
        ((actionCreateRsa2048Challenge sampleLens sampleStorageConfig (· == [123, 125]) 0 W₁ 1
          ⟨7, 8, []⟩).bind Except.toOption).map fun W₂ =>
          (W₁.storageUsage 0, expectedStorageUsage sampleLens sampleStorageConfig (W₁.records 0),
            W₂.storageUsage 0, expectedStorageUsage sampleLens sampleStorageConfig (W₂.records 0),
            W₂.storageUsage 1, expectedStorageUsage sampleLens sampleStorageConfig (W₂.records 1))) =
        some (some 442, 442, some 442, 100, some 435, 442) := by
  refine ⟨fun a => ?_, by decide⟩
  by_cases ha : a ≤ 1
  · simp [sampleWorld, AccountGood, ha, expectedStorageUsage, codeLength, AccountRecords.empty,
      sampleStorageConfig]
  · simp [sampleWorld, AccountGood, ha]

end StorageUsage

end Unc
