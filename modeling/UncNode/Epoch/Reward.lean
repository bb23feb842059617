import Mathlib
import UncNode.Primitives.U64
import UncNode.Epoch.Kickout

/-!
# Validator rewards

`RewardCalculator::calculate_reward` (`chain/epoch-manager/src/reward_calculator.rs`): the
reward of an epoch is `max_inflation_rate` of the supply scaled by the epoch's share of a year,
the protocol treasury takes `protocol_reward_rate` of it, and each validator gets a share of the
rest by pledge, scaled by its uptime above `online_min_threshold`.

The arithmetic runs on `U256` with `as_u128` at the end, and on `u64` and `u128` in between; all
of it panics on overflow, as do the divisions by zero and the `U256` subtractions (`none`). A
`HashMap` is a list of pairs in its iteration order; `res.insert` is an `AList` insert.

* **`reward_calculator_year_is_a_thirtieth`**: `RewardCalculator::new` takes the year as
  `NUM_SECONDS_IN_A_YEAR = 24 * 60 * 2 * 365` seconds, a thirtieth of a year, so an epoch mints
  thirty times its share of `max_inflation_rate`.
-/

set_option autoImplicit false

namespace Unc

namespace Reward

/-- `NUM_NS_IN_SECOND`. -/
def NUM_NS_IN_SECOND : Nat := 1000000000

/-- `NUM_SECONDS_IN_A_YEAR`. -/
def NUM_SECONDS_IN_A_YEAR : Nat := 24 * 60 * 2 * 365

/-- `ENABLE_INFLATION_PROTOCOL_VERSION`. -/
def enableInflationProtocolVersion : Nat := 36

/-- `ProtocolFeature::RectifyInflation.protocol_version()`. -/
def rectifyInflationVersion : Nat := 45

/-- `Rational32`: the numerator and denominator, `i32`s. -/
structure Rational32 where
  numer : Int
  denom : Int
  deriving DecidableEq, Repr

/-- `x as u64` for an `i32` `x`: two's complement. -/
def i32AsU64 (x : Int) : Nat := (x % 2 ^ 64).toNat

/-- `a * b` on `U256`. -/
def mulU256 (a b : Nat) : Option Nat :=
  if a * b < 2 ^ 256 then some (a * b) else none

/-- `a - b` on `U256`. -/
def subU256 (a b : Nat) : Option Nat :=
  if b ≤ a then some (a - b) else none

/-- `a / b` on `U256`. -/
def divU256 (a b : Nat) : Option Nat :=
  if b = 0 then none else some (a / b)

/-- `U256::as_u128`. -/
def asU128 (x : Nat) : Option Nat :=
  if x < 2 ^ 128 then some x else none

/-- `a + b` on `u128`. -/
def addU128 (a b : Nat) : Option Nat :=
  if a + b < 2 ^ 128 then some (a + b) else none

/-- `a - b` on `u128`. -/
def subU128 (a b : Nat) : Option Nat :=
  if b ≤ a then some (a - b) else none

/-- The fields of `GenesisConfig` that `RewardCalculator::new` reads. -/
structure GenesisConfig (A : Type) where
  maxInflationRate : Rational32
  numBlocksPerYear : Nat
  epochLength : Nat
  protocolRewardRate : Rational32
  protocolTreasuryAccount : A
  onlineMaxThreshold : Rational32
  onlineMinThreshold : Rational32

/-- `RewardCalculator`. -/
structure RewardCalculator (A : Type) where
  maxInflationRate : Rational32
  numBlocksPerYear : Nat
  epochLength : Nat
  protocolRewardRate : Rational32
  protocolTreasuryAccount : A
  onlineMinThreshold : Rational32
  onlineMaxThreshold : Rational32
  numSecondsPerYear : Nat

variable {A : Type}

/-- `RewardCalculator::new`. -/
def RewardCalculator.new (config : GenesisConfig A) : RewardCalculator A where
  maxInflationRate := config.maxInflationRate
  numBlocksPerYear := config.numBlocksPerYear
  epochLength := config.epochLength
  protocolRewardRate := config.protocolRewardRate
  protocolTreasuryAccount := config.protocolTreasuryAccount
  onlineMaxThreshold := config.onlineMaxThreshold
  onlineMinThreshold := config.onlineMinThreshold
  numSecondsPerYear := NUM_SECONDS_IN_A_YEAR

/-- `validator_stake.values().sum()` on `u128`. -/
def sumU128 (values : List Nat) : Option Nat :=
  values.foldlM addU128 0

/-- The average of produced over expected blocks and chunks, as a numerator and a denominator;
the products are `u64`. -/
def averageProduced (stats : BlockChunkValidatorStats) : Option (Nat × Nat) :=
  if stats.blockStats.expected = 0 ∧ stats.chunkStats.expected = 0 then some (0, 1)
  else if stats.blockStats.expected = 0 then
    some (stats.chunkStats.produced, stats.chunkStats.expected)
  else if stats.chunkStats.expected = 0 then
    some (stats.blockStats.produced, stats.blockStats.expected)
  else do
    let a ← mulU64 stats.blockStats.produced stats.chunkStats.expected
    let b ← mulU64 stats.chunkStats.produced stats.blockStats.expected
    let numer ← addU64 a b
    let d ← mulU64 2 stats.chunkStats.expected
    let denom ← mulU64 d stats.blockStats.expected
    pure (numer, denom)

/-- The uptime-scaled pledge share of `epochValidatorReward` of a validator online above the
minimum: `min(1, (uptime - min) / (max - min)) * pledge / total_pledge`. -/
def onlineReward (calculator : RewardCalculator A) (epochValidatorReward pledge totalPledge : Nat)
    (averageNumer averageDenom : Nat) : Option Nat := do
  let onlineMinNumer := i32AsU64 calculator.onlineMinThreshold.numer
  let onlineMinDenom := i32AsU64 calculator.onlineMinThreshold.denom
  let onlineMaxNumer := i32AsU64 calculator.onlineMaxThreshold.numer
  let onlineMaxDenom := i32AsU64 calculator.onlineMaxThreshold.denom
  let onlineNumer ← subU256 (← mulU256 onlineMaxNumer onlineMinDenom)
    (← mulU256 onlineMinNumer onlineMaxDenom)
  let uptimeNumer ← mulU256 (← subU256 (← mulU256 averageNumer onlineMinDenom)
    (← mulU256 onlineMinNumer averageDenom)) onlineMaxDenom
  let uptimeDenum ← mulU256 onlineNumer averageDenom
  let uptimeNumer := if uptimeNumer > uptimeDenum then uptimeDenum else uptimeNumer
  asU128 (← divU256 (← divU256 (← mulU256 (← mulU256 epochValidatorReward uptimeNumer) pledge)
    uptimeDenum) totalPledge)

variable [DecidableEq A]

/-- The reward of one validator: none below `online_min_threshold` or without expectations,
otherwise `onlineReward`; a validator missing from `validator_stake` panics. -/
def validatorReward (calculator : RewardCalculator A) (validatorStake : List (A × Nat))
    (protocolVersion epochValidatorReward totalPledge : Nat) (accountId : A)
    (stats : BlockChunkValidatorStats) : Option Nat := do
  let (averageNumer, averageDenom) ← averageProduced stats
  let onlineMinNumer := i32AsU64 calculator.onlineMinThreshold.numer
  let onlineMinDenom := i32AsU64 calculator.onlineMinThreshold.denom
  let chunkOnlyProducersEnabled := decide (chunkOnlyProducersVersion ≤ protocolVersion)
  let lhs ← mulU256 averageNumer onlineMinDenom
  let rhs ← mulU256 onlineMinNumer averageDenom
  if lhs < rhs ∨
      (chunkOnlyProducersEnabled ∧ stats.chunkStats.expected = 0 ∧ stats.blockStats.expected = 0) ∨
      (¬chunkOnlyProducersEnabled ∧ (stats.chunkStats.expected = 0 ∨ stats.blockStats.expected = 0))
  then pure 0
  else
    let pledge ← validatorStake.lookup accountId
    onlineReward calculator epochValidatorReward pledge totalPledge averageNumer averageDenom

/-- The loop over `validator_block_chunk_stats`: insert each reward and add it to the minted
amount. -/
def rewardLoop (calculator : RewardCalculator A) (validatorStake : List (A × Nat))
    (protocolVersion epochValidatorReward totalPledge : Nat) :
    List (A × BlockChunkValidatorStats) → AList (fun _ : A => Nat) → Nat →
      Option (AList (fun _ : A => Nat) × Nat)
  | [], res, epochActualReward => some (res, epochActualReward)
  | (accountId, stats) :: rest, res, epochActualReward => do
    let reward ← validatorReward calculator validatorStake protocolVersion epochValidatorReward
      totalPledge accountId stats
    let epochActualReward ← addU128 epochActualReward reward
    rewardLoop calculator validatorStake protocolVersion epochValidatorReward totalPledge rest
      (res.insert accountId reward) epochActualReward

/-- The reward of the epoch: under `RectifyInflation` from the epoch's duration in nanoseconds
and `num_seconds_per_year`, before it from the epoch length and `num_blocks_per_year`. -/
def epochTotalReward (calculator : RewardCalculator A) (maxInflationRate : Rational32)
    (totalSupply protocolVersion epochDuration : Nat) : Option Nat :=
  if rectifyInflationVersion ≤ protocolVersion then do
    asU128 (← divU256
      (← mulU256 (← mulU256 (i32AsU64 maxInflationRate.numer) totalSupply) epochDuration)
      (← mulU256 (← mulU256 calculator.numSecondsPerYear (i32AsU64 maxInflationRate.denom))
        NUM_NS_IN_SECOND))
  else do
    asU128 (← divU256
      (← mulU256 (← mulU256 (i32AsU64 maxInflationRate.numer) totalSupply) calculator.epochLength)
      (← mulU256 calculator.numBlocksPerYear (i32AsU64 maxInflationRate.denom)))

/-- `calculate_reward`: the rewards by account and the minted amount. -/
def calculateReward (calculator : RewardCalculator A)
    (validatorBlockChunkStats : List (A × BlockChunkValidatorStats))
    (validatorStake : List (A × Nat))
    (totalSupply protocolVersion genesisProtocolVersion epochDuration : Nat) :
    Option (AList (fun _ : A => Nat) × Nat) := do
  let useHardcodedValue := decide (genesisProtocolVersion < protocolVersion ∧
    enableInflationProtocolVersion ≤ protocolVersion)
  let maxInflationRate := if useHardcodedValue then ⟨1, 20⟩ else calculator.maxInflationRate
  let protocolRewardRate := if useHardcodedValue then ⟨1, 10⟩ else calculator.protocolRewardRate
  let epochTotalReward ← epochTotalReward calculator maxInflationRate totalSupply protocolVersion
    epochDuration
  let epochProtocolTreasury ← asU128 (← divU256
    (← mulU256 epochTotalReward (i32AsU64 protocolRewardRate.numer))
    (i32AsU64 protocolRewardRate.denom))
  let res : AList (fun _ : A => Nat) := (∅ : AList _).insert calculator.protocolTreasuryAccount
    epochProtocolTreasury
  if validatorBlockChunkStats.length = 0 then pure (res, 0)
  else
    let epochValidatorReward ← subU128 epochTotalReward epochProtocolTreasury
    let totalPledge ← sumU128 (validatorStake.map Prod.snd)
    rewardLoop calculator validatorStake protocolVersion epochValidatorReward totalPledge
      validatorBlockChunkStats res epochProtocolTreasury

/-- A genesis with mainnet's rates: 5% inflation, 10% of it to the treasury (account `1`). -/
def sampleGenesisConfig : GenesisConfig Nat where
  maxInflationRate := ⟨1, 20⟩
  numBlocksPerYear := 31536000
  epochLength := 43200
  protocolRewardRate := ⟨1, 10⟩
  protocolTreasuryAccount := 1
  onlineMaxThreshold := ⟨99, 100⟩
  onlineMinThreshold := ⟨9, 10⟩

/-- One validator, online throughout, over an epoch of one year (`365 * 24 * 3600` seconds in
nanoseconds) with a supply of `10 ^ 33`: the minted amount is thirty times
`max_inflation_rate * total_supply * epoch_duration / (365 * 24 * 3600 * 10 ^ 9)`. -/
theorem reward_calculator_year_is_a_thirtieth :
    (calculateReward (RewardCalculator.new sampleGenesisConfig) [(0, ⟨⟨10, 10⟩, ⟨10, 10⟩⟩)]
        [(0, 100)] (10 ^ 33) 45 45 (365 * 24 * 3600 * NUM_NS_IN_SECOND)).map Prod.snd =
      some (30 * (1 * 10 ^ 33 * (365 * 24 * 3600 * NUM_NS_IN_SECOND) /
        (365 * 24 * 3600 * 20 * NUM_NS_IN_SECOND))) := by
  decide

end Reward

end Unc
