import Mathlib
import UncNode.Epoch.ShardAssignment

/-!
# Selecting the validators of the next epoch

`proposals_to_epoch_info` and `proposals_to_block_summary` of
`chain/epoch-manager/src/validator_selection.rs`. Both run the same pipeline, modelled once as
`selectValidatorSet`:

1. `remove_duplicate_*_proposals` keep the last proposal of each account;
2. `proposals_with_rollover` adds the previous validators and fishermen, drops kicked-out
   accounts and fills `power_change` and `pledge_change`;
3. `order_*_proposals` put the proposals into max-heaps keyed by `(value, Reverse(account))`,
   and `select_validators` pops block producers (and, from protocol version 56,
   `ChunkOnlyProducers`, chunk producers from fresh heaps) while the pledge ratio allows;
4. the proposals left in the chunk-producer heap become fishermen, or are kicked out;
5. ids: block producers first, then the chunk producers `assign_shards` places, or, before
   version 56, chunk seats dealt round-robin over the block producers.

Proposals reach the heaps through `HashMap`s (`into_values`, `values`), whose order comes from
hash keys that every process draws at random. The model takes that order as an input,
`HashOrders`: one permutation for each map. The heaps themselves are modelled exactly
(`SiftHeap`), so the model fixes the order in which step 4 walks the heap's backing list.

Modelled as `Nat`: `Balance` and `Power` (`u128`; the sums stay far below `2^128`) and the
seat and shard counts. A panic is `none`; `debug_assert!`s are not checked, as in a release
build. `minimum_pledge_ratio` is taken with a non-negative numerator.
-/

set_option autoImplicit false

namespace Unc

/-- `ValidatorPower` (V1): a power proposal. -/
structure ValidatorPower (A K : Type) where
  accountId : A
  publicKey : K
  power : Nat
deriving DecidableEq, Repr, Inhabited

/-- `ValidatorPledge` (V1): a pledge proposal. -/
structure ValidatorPledge (A K : Type) where
  accountId : A
  publicKey : K
  pledge : Nat
deriving DecidableEq, Repr, Inhabited

/-- `ValidatorPowerAndPledge` (V1): a validator or a fisherman of an epoch. -/
structure ValidatorPowerAndPledge (A K : Type) where
  accountId : A
  publicKey : K
  power : Nat
  pledge : Nat
deriving DecidableEq, Repr, Inhabited

instance {A K : Type} : HasPledge (ValidatorPowerAndPledge A K) := ⟨ValidatorPowerAndPledge.pledge⟩

/-- `ValidatorKickoutReason`. -/
inductive ValidatorKickoutReason where
  | slashed
  | notEnoughBlocks (produced expected : Nat)
  | notEnoughChunks (produced expected : Nat)
  | unpowered
  | notEnoughPower (power threshold : Nat)
  | unpledge
  | notEnoughPledge (pledge threshold : Nat)
  | didNotGetASeat
deriving DecidableEq, Repr

/-- The variant of `EpochError` these functions return. -/
inductive EpochError where
  | notEnoughValidators (numValidators numShards : Nat)
deriving DecidableEq, Repr

/-- The variant of `BlockError` `proposals_to_block_summary` returns. -/
inductive BlockError where
  | notEnoughValidators (numValidators numShards : Nat)
deriving DecidableEq, Repr

/-- `ShardLayout`, through `shard_ids()`, which is `0..num_shards`. -/
structure ShardLayout where
  numShards : Nat
deriving DecidableEq, Repr

/-- `ShardLayout::shard_ids`. -/
def ShardLayout.shardIds (layout : ShardLayout) : List Nat :=
  List.range layout.numShards

/-- The fields of `ValidatorSelectionConfig` that validator selection reads. -/
structure ValidatorSelectionConfig where
  numChunkOnlyProducerSeats : Nat
  minimumValidatorsPerShard : Nat
  /-- the numerator and denominator of the `Rational32` -/
  minimumPledgeRatio : Nat × Nat
deriving DecidableEq, Repr

/-- The fields of `EpochConfig` that validator selection reads. -/
structure EpochConfig where
  numBlockProducerSeats : Nat
  numBlockProducerSeatsPerShard : List Nat
  fishermenThreshold : Nat
  shardLayout : ShardLayout
  validatorSelectionConfig : ValidatorSelectionConfig
deriving DecidableEq, Repr

/-- `ProtocolFeature::ChunkOnlyProducers.protocol_version()`. -/
def chunkOnlyProducersVersion : Nat := 56

/-- `ProtocolFeature::FixStakingThreshold.protocol_version()`, a feature only compiled in with
`protocol_feature_fix_staking_threshold`. -/
def fixStakingThresholdVersion : Nat := 126

/-- What `proposals_with_rollover` reads of the previous epoch (an `EpochInfo`) or block (a
`BlockInfo`): `validators_iter`, `fishermen_iter`, and the maps behind `account_is_validator`
and `account_is_fisherman`. -/
structure PrevValidators (A K : Type) where
  validators : List (ValidatorPowerAndPledge A K)
  validatorToIndex : A → Option Nat
  fishermen : List (ValidatorPowerAndPledge A K)
  fishermenToIndex : A → Option Nat

/-- The order in which one `HashMap` hands out its entries, given in insertion order: any
permutation of them. -/
structure IterOrder (A : Type) where
  order : {V : Type} → List (A × V) → List (A × V)
  perm : ∀ {V : Type} (entries : List (A × V)), (order entries).Perm entries

/-- The iteration orders of the four maps validator selection walks. -/
structure HashOrders (A : Type) where
  uniquePowerProposals : IterOrder A
  uniquePledgeProposals : IterOrder A
  powerProposalsByAccount : IterOrder A
  pledgeProposalsByAccount : IterOrder A

variable {A K : Type} [DecidableEq A]

/-! ## Maps -/

/-- `HashMap::insert` on the entries in insertion order: a present key keeps its place. -/
def insertEntry {V : Type} (entries : List (A × V)) (k : A) (v : V) : List (A × V) :=
  if entries.any (·.1 = k) then entries.map fun e => if e.1 = k then (k, v) else e
  else entries ++ [(k, v)]

/-- `entry(k).or_insert(v)`: insert only when `k` is absent. -/
def orInsertEntry {V : Type} (entries : List (A × V)) (k : A) (v : V) : List (A × V) :=
  if entries.any (·.1 = k) then entries else entries ++ [(k, v)]

/-- A map built by inserting `entries` one after the other, later ones winning. -/
def mapOfList {V : Type} (entries : List (A × V)) : A → Option V :=
  entries.foldl (fun m e => Function.update m e.1 (some e.2)) fun _ => none

/-- The two `remove_duplicate_*_proposals`: the last proposal of each account, in the order the
map hands them out. -/
def removeDuplicates {P : Type} (ord : IterOrder A) (accountId : P → A) (proposals : List P) :
    List P :=
  (ord.order (proposals.foldl (fun m p => insertEntry m (accountId p) p) [])).map Prod.snd

/-- `remove_duplicate_power_proposals`. -/
def removeDuplicatePowerProposals (ord : IterOrder A) (powerProposals : List (ValidatorPower A K)) :
    List (ValidatorPower A K) :=
  removeDuplicates ord ValidatorPower.accountId powerProposals

/-- `remove_duplicate_pledge_proposals`. -/
def removeDuplicatePledgeProposals (ord : IterOrder A)
    (pledgeProposals : List (ValidatorPledge A K)) : List (ValidatorPledge A K) :=
  removeDuplicates ord ValidatorPledge.accountId pledgeProposals

/-! ## `proposals_with_rollover` -/

/-- What `proposals_with_rollover` builds: the two maps it returns, and `power_change`,
`pledge_change` and `fishermen`, which it writes through its `&mut` arguments. -/
structure Rollover (A K : Type) where
  powerProposalsByAccount : List (A × ValidatorPower A K)
  pledgeProposalsByAccount : List (A × ValidatorPledge A K)
  powerChange : A → Option Nat
  pledgeChange : A → Option Nat
  fishermen : List (ValidatorPowerAndPledge A K)

/-- The first loop: record each power proposal. -/
def rolloverPowerProposal (r : Rollover A K) (p : ValidatorPower A K) : Rollover A K :=
  { r with
    powerChange := Function.update r.powerChange p.accountId (some p.power)
    powerProposalsByAccount := insertEntry r.powerProposalsByAccount p.accountId p }

/-- The second loop: a kicked-out account's pledge change is zero, the others are recorded. -/
def rolloverPledgeProposal (validatorKickout : A → Option ValidatorKickoutReason)
    (r : Rollover A K) (f : ValidatorPledge A K) : Rollover A K :=
  if (validatorKickout f.accountId).isSome then
    { r with pledgeChange := Function.update r.pledgeChange f.accountId (some 0) }
  else
    { r with
      pledgeChange := Function.update r.pledgeChange f.accountId (some f.pledge)
      pledgeProposalsByAccount := insertEntry r.pledgeProposalsByAccount f.accountId f }

/-- The third loop: a previous validator that is not kicked out proposes again what it had,
unless it made a proposal of its own. -/
def rolloverValidator (validatorKickout : A → Option ValidatorKickoutReason)
    (r : Rollover A K) (v : ValidatorPowerAndPledge A K) : Rollover A K :=
  if (validatorKickout v.accountId).isSome then
    { r with pledgeChange := Function.update r.pledgeChange v.accountId (some 0) }
  else
    let f := (r.pledgeProposalsByAccount.lookup v.accountId).getD ⟨v.accountId, v.publicKey, v.pledge⟩
    let p := (r.powerProposalsByAccount.lookup v.accountId).getD ⟨v.accountId, v.publicKey, v.power⟩
    { r with
      pledgeProposalsByAccount := orInsertEntry r.pledgeProposalsByAccount v.accountId f
      pledgeChange := Function.update r.pledgeChange f.accountId (some f.pledge)
      powerProposalsByAccount := orInsertEntry r.powerProposalsByAccount v.accountId p
      powerChange := Function.update r.powerChange p.accountId (some p.power) }

/-- The fourth loop: a previous fisherman that is not kicked out and made no pledge proposal
stays a fisherman. -/
def rolloverFisherman (validatorKickout : A → Option ValidatorKickoutReason)
    (r : Rollover A K) (v : ValidatorPowerAndPledge A K) : Rollover A K :=
  if (validatorKickout v.accountId).isSome then
    { r with pledgeChange := Function.update r.pledgeChange v.accountId (some 0) }
  else if (r.pledgeProposalsByAccount.lookup v.accountId).isNone then
    { r with
      powerChange := Function.update r.powerChange v.accountId (some v.power)
      pledgeChange := Function.update r.pledgeChange v.accountId (some v.pledge)
      fishermen := r.fishermen ++ [v] }
  else r

/-- `proposals_with_rollover` (and `proposals_with_rollover_block`, the same code over a
`BlockInfo`), from the caller's `power_change`, `pledge_change` and `fishermen`. -/
def proposalsWithRollover (powerProposals : List (ValidatorPower A K))
    (pledgeProposals : List (ValidatorPledge A K)) (prev : PrevValidators A K)
    (validatorKickout : A → Option ValidatorKickoutReason) (powerChange pledgeChange : A → Option Nat)
    (fishermen : List (ValidatorPowerAndPledge A K)) : Rollover A K :=
  let r := powerProposals.foldl rolloverPowerProposal
    { powerProposalsByAccount := [], pledgeProposalsByAccount := [], powerChange, pledgeChange,
      fishermen }
  let r := pledgeProposals.foldl (rolloverPledgeProposal validatorKickout) r
  let r := prev.validators.foldl (rolloverValidator validatorKickout) r
  prev.fishermen.foldl (rolloverFisherman validatorKickout) r

/-! ## The heaps and `select_validators` -/

/-- `OrderedValidatorPower`: ordered by `(power, Reverse(account_id))`. -/
structure OrderedValidatorPower (A K : Type) where
  val : ValidatorPower A K
deriving DecidableEq, Repr, Inhabited

/-- `OrderedValidatorPledge`: ordered by `(pledge, Reverse(account_id))`, so that the top of the
max-heap is the greatest pledge and, among equal pledges, the least account. -/
structure OrderedValidatorPledge (A K : Type) where
  val : ValidatorPledge A K
deriving DecidableEq, Repr, Inhabited

instance [Ord A] : Ord (OrderedValidatorPower A K) where
  compare a b := (compare a.val.power b.val.power).then (compare b.val.accountId a.val.accountId)

instance [Ord A] : Ord (OrderedValidatorPledge A K) where
  compare a b := (compare a.val.pledge b.val.pledge).then (compare b.val.accountId a.val.accountId)

section Heaps

variable [Ord A] [Inhabited A] [Inhabited K]

/-- `order_power_proposals`. -/
def orderPowerProposals (proposals : List (ValidatorPower A K)) :
    SiftHeap (OrderedValidatorPower A K) :=
  SiftHeap.ofList (proposals.map OrderedValidatorPower.mk)

/-- `order_pledge_proposals`. -/
def orderPledgeProposals (proposals : List (ValidatorPledge A K)) :
    SiftHeap (OrderedValidatorPledge A K) :=
  SiftHeap.ofList (proposals.map OrderedValidatorPledge.mk)

/-- `create_power_map`: the powers, inserted in ascending order (`into_sorted_vec`). -/
def createPowerMap (heap : SiftHeap (OrderedValidatorPower A K)) : A → Option Nat :=
  mapOfList (heap.intoSortedVec.map fun v => (v.val.accountId, v.val.power))

/-- `Ratio::new(numer, denom)`, which panics on a zero denominator. -/
def ratioNew (r : Nat × Nat) : Option ℚ :=
  if r.2 = 0 then none else some ((r.1 : ℚ) / r.2)

/-- The loop `for _ in 0..n` of `select_validators`: pop the greatest pledge and take it while
its share of the pledge taken so far stays above `minPledgeRatio`; the first one that does not
goes back into the heap. Returns the heap, the validators and their total pledge. -/
def selectValidatorsLoop (powerMap : A → Option Nat) (minPledgeRatio : ℚ) :
    Nat → SiftHeap (OrderedValidatorPledge A K) → List (ValidatorPowerAndPledge A K) → Nat →
      Option (SiftHeap (OrderedValidatorPledge A K) × List (ValidatorPowerAndPledge A K) × Nat)
  | 0, heap, validators, totalPledge => some (heap, validators, totalPledge)
  | n + 1, heap, validators, totalPledge =>
    match heap.pop with
    | (none, _) => none
    | (some ⟨p⟩, heap) =>
      let pR : ValidatorPowerAndPledge A K :=
        ⟨p.accountId, p.publicKey, (powerMap p.accountId).getD 0, p.pledge⟩
      if totalPledge + p.pledge ≠ 0 ∧ minPledgeRatio < (p.pledge : ℚ) / (totalPledge + p.pledge) then
        selectValidatorsLoop powerMap minPledgeRatio n heap (validators ++ [pR])
          (totalPledge + p.pledge)
      else some (heap.push ⟨p⟩, validators, totalPledge)

/-- The seat price when the seats were not all filled: `ceil(min_ratio * total)`, or with
`FixStakingThreshold` `ceil(min_ratio * total / (1 - min_ratio))`, whose `1 - min_ratio`
underflows above one and whose division fails at one. -/
def ratioThreshold (fixStakingThreshold : Bool) (minPledgeRatio : ℚ) (totalPledge : Nat) :
    Option Nat :=
  if fixStakingThreshold then
    if minPledgeRatio < 1 then
      some (Rat.ceil (minPledgeRatio * totalPledge / (1 - minPledgeRatio))).toNat
    else none
  else some (Rat.ceil (minPledgeRatio * totalPledge)).toNat

/-- `select_validators`: the selected validators, the threshold pledge, and the pledge heap
after the pops. `fixStakingThresholdFeature` is whether the build has
`protocol_feature_fix_staking_threshold`. -/
def selectValidators (fixStakingThresholdFeature : Bool)
    (powerProposals : SiftHeap (OrderedValidatorPower A K))
    (pledgeProposals : SiftHeap (OrderedValidatorPledge A K)) (maxNumberSelected : Nat)
    (minPledgeRatio : ℚ) (protocolVersion : Nat) :
    Option (List (ValidatorPowerAndPledge A K) × Nat × SiftHeap (OrderedValidatorPledge A K)) := do
  let (pledgeProposals, validators, totalPledge) ←
    selectValidatorsLoop (createPowerMap powerProposals) minPledgeRatio
      (min maxNumberSelected pledgeProposals.len) pledgeProposals [] 0
  if validators.length = maxNumberSelected then
    -- all seats filled: one more than the smallest pledge taken
    let last ← validators.getLast?
    pure (validators, last.pledge + 1, pledgeProposals)
  else
    let threshold ← ratioThreshold
      (fixStakingThresholdFeature && decide (fixStakingThresholdVersion ≤ protocolVersion))
      minPledgeRatio totalPledge
    pure (validators, threshold, pledgeProposals)

/-- `select_block_producers`. -/
def selectBlockProducers (fixStakingThresholdFeature : Bool)
    (bpPowerProposals : SiftHeap (OrderedValidatorPower A K))
    (bpPledgeProposals : SiftHeap (OrderedValidatorPledge A K)) (maxNumSelected : Nat)
    (minPledgeRatio : ℚ) (protocolVersion : Nat) :
    Option (List (ValidatorPowerAndPledge A K) × Nat × SiftHeap (OrderedValidatorPledge A K)) :=
  selectValidators fixStakingThresholdFeature bpPowerProposals bpPledgeProposals maxNumSelected
    minPledgeRatio protocolVersion

/-- `select_chunk_producers`: the ratio is divided by the number of shards, through
`Ratio::new(1, num_shards)`. -/
def selectChunkProducers (fixStakingThresholdFeature : Bool)
    (allPowerProposals : SiftHeap (OrderedValidatorPower A K))
    (allPledgeProposals : SiftHeap (OrderedValidatorPledge A K)) (maxNumSelected : Nat)
    (minPledgeRatio : ℚ) (numShards protocolVersion : Nat) :
    Option (List (ValidatorPowerAndPledge A K) × Nat × SiftHeap (OrderedValidatorPledge A K)) := do
  let share ← ratioNew (1, numShards)
  selectValidators fixStakingThresholdFeature allPowerProposals allPledgeProposals maxNumSelected
    (minPledgeRatio * share) protocolVersion

end Heaps

/-! ## Fishermen and validator ids -/

/-- What the loop over the proposals left in the chunk-producer heap writes. -/
structure Leftover (A K : Type) where
  fishermen : List (ValidatorPowerAndPledge A K)
  pledgeChange : A → Option Nat
  validatorKickout : A → Option ValidatorKickoutReason

/-- One turn of that loop: a pledge at the fishermen threshold makes a fisherman; a smaller one
has its pledge change zeroed (`get_mut(..).unwrap()`) and, for a previous validator or
fisherman, a `NotEnoughPledge` kickout. -/
def leftoverStep (fishermenThreshold threshold : Nat) (cpPowerMap : A → Option Nat)
    (prev : PrevValidators A K) (s : Leftover A K) (p : ValidatorPledge A K) :
    Option (Leftover A K) :=
  let rP : ValidatorPowerAndPledge A K :=
    ⟨p.accountId, p.publicKey, (cpPowerMap p.accountId).getD 0, p.pledge⟩
  if fishermenThreshold ≤ p.pledge then some { s with fishermen := s.fishermen ++ [rP] }
  else match s.pledgeChange p.accountId with
    | none => none
    | some _ =>
      let s := { s with pledgeChange := Function.update s.pledgeChange p.accountId (some 0) }
      if (prev.validatorToIndex p.accountId).isSome || (prev.fishermenToIndex p.accountId).isSome then
        some { s with
          validatorKickout := Function.update s.validatorKickout p.accountId
            (some (.notEnoughPledge p.pledge threshold)) }
      else some s

/-- The loop `for OrderedValidatorPledge(p) in cp_pledge_proposals`: it walks the heap's backing
list. -/
def processLeftovers (fishermenThreshold threshold : Nat) (cpPowerMap : A → Option Nat)
    (prev : PrevValidators A K) (heap : SiftHeap (OrderedValidatorPledge A K)) (s : Leftover A K) :
    Option (Leftover A K) :=
  heap.data.foldlM (fun s p => leftoverStep fishermenThreshold threshold cpPowerMap prev s p.val) s

/-- `all_validators` and `validator_to_index` as the ids are handed out. -/
structure ValidatorTable (A K : Type) where
  allValidators : List (ValidatorPowerAndPledge A K)
  validatorToIndex : A → Option Nat

/-- The block producers take the ids `0, 1, …` in their order. -/
def blockProducerTable (blockProducers : List (ValidatorPowerAndPledge A K)) : ValidatorTable A K :=
  { allValidators := blockProducers
    validatorToIndex := mapOfList (blockProducers.zipIdx.map fun e => (e.1.accountId, e.2)) }

/-- The `match validator_to_index.entry(..)` for a chunk producer: a known account keeps its id,
a new one gets the next id and joins `all_validators`. -/
def assignValidatorId (t : ValidatorTable A K) (v : ValidatorPowerAndPledge A K) :
    ValidatorTable A K × Nat :=
  match t.validatorToIndex v.accountId with
  | some id => (t, id)
  | none =>
    ({ allValidators := t.allValidators ++ [v]
       validatorToIndex := Function.update t.validatorToIndex v.accountId (some t.allValidators.length) },
     t.allValidators.length)

/-- The ids of one shard's validators. -/
def shardValidatorIds (t : ValidatorTable A K) :
    List (ValidatorPowerAndPledge A K) → ValidatorTable A K × List Nat
  | [] => (t, [])
  | v :: vs =>
    let (t, id) := assignValidatorId t v
    let (t, ids) := shardValidatorIds t vs
    (t, id :: ids)

/-- `chunk_producers_settlement` from a shard assignment. -/
def chunkProducerIds (t : ValidatorTable A K) :
    List (List (ValidatorPowerAndPledge A K)) → ValidatorTable A K × List (List Nat)
  | [] => (t, [])
  | vs :: rest =>
    let (t, ids) := shardValidatorIds t vs
    let (t, rest) := chunkProducerIds t rest
    (t, ids :: rest)

/-- Before `ChunkOnlyProducers`: each shard in turn takes
`min(num_block_producer_seats_per_shard[shard_id], #block producers)` ids, dealt round-robin
over the block producers from where the previous shard stopped. -/
def roundRobinSettlement (numBlockProducerSeatsPerShard blockProducersSettlement : List Nat) :
    List Nat → Nat → Option (List (List Nat))
  | [], _ => some []
  | shardId :: shardIds, id => do
    let seats ← numBlockProducerSeatsPerShard[shardId]?
    let k := min seats blockProducersSettlement.length
    let ids := (List.range k).map fun j =>
      blockProducersSettlement.getD ((id + j) % blockProducersSettlement.length) 0
    let rest ← roundRobinSettlement numBlockProducerSeatsPerShard blockProducersSettlement shardIds
      ((id + k) % blockProducersSettlement.length)
    pure (ids :: rest)

/-- `fishermen_to_index`. -/
def fishermenToIndex (fishermen : List (ValidatorPowerAndPledge A K)) : A → Option Nat :=
  mapOfList (fishermen.zipIdx.map fun e => (e.1.accountId, e.2))

/-! ## The pipeline -/

/-- What `proposals_to_epoch_info` and `proposals_to_block_summary` compute alike. -/
structure Selection (A K : Type) where
  validators : List (ValidatorPowerAndPledge A K)
  validatorToIndex : A → Option Nat
  blockProducersSettlement : List Nat
  chunkProducersSettlement : List (List Nat)
  fishermen : List (ValidatorPowerAndPledge A K)
  fishermenToIndex : A → Option Nat
  powerChange : A → Option Nat
  pledgeChange : A → Option Nat
  validatorKickout : A → Option ValidatorKickoutReason
  threshold : Nat
  /-- `power_proposals.values()`, in the map's order -/
  powerProposals : List (ValidatorPower A K)
  /-- `pledge_proposals.values()`, in the map's order -/
  pledgeProposals : List (ValidatorPledge A K)

section Pipeline

variable [Ord A] [Inhabited A] [Inhabited K]

/-- The chunk producers and their heaps: from fresh heaps with `ChunkOnlyProducers`, otherwise
the block producers and the block-producer heaps. -/
def chunkProducerSelection (fixStakingThresholdFeature : Bool) (epochConfig : EpochConfig)
    (minPledgeRatio : ℚ) (powerValues : List (ValidatorPower A K))
    (pledgeValues : List (ValidatorPledge A K)) (nextVersion selectionVersion : Nat)
    (bp : SiftHeap (OrderedValidatorPower A K) ×
      (List (ValidatorPowerAndPledge A K) × Nat × SiftHeap (OrderedValidatorPledge A K))) :
    Option (SiftHeap (OrderedValidatorPower A K) ×
      (List (ValidatorPowerAndPledge A K) × Nat × SiftHeap (OrderedValidatorPledge A K))) :=
  if chunkOnlyProducersVersion ≤ nextVersion then do
    let cpPowerProposals := orderPowerProposals powerValues
    let cp ← selectChunkProducers fixStakingThresholdFeature cpPowerProposals
      (orderPledgeProposals pledgeValues)
      (epochConfig.numBlockProducerSeats +
        epochConfig.validatorSelectionConfig.numChunkOnlyProducerSeats)
      minPledgeRatio epochConfig.shardLayout.numShards selectionVersion
    pure (cpPowerProposals, cp)
  else some bp

/-- The validator ids and `chunk_producers_settlement`: `assign_shards` with
`ChunkOnlyProducers`, the round-robin deal before it. -/
def settlement (epochConfig : EpochConfig) (nextVersion : Nat)
    (blockProducers chunkProducers : List (ValidatorPowerAndPledge A K)) :
    Option (Except EpochError (ValidatorTable A K × List (List Nat))) :=
  let numShards := epochConfig.shardLayout.numShards
  let table := blockProducerTable blockProducers
  if chunkOnlyProducersVersion ≤ nextVersion then
    match assignShards chunkProducers numShards
        epochConfig.validatorSelectionConfig.minimumValidatorsPerShard with
    | none => none
    | some (.error _) => some (.error (.notEnoughValidators chunkProducers.length numShards))
    | some (.ok shardAssignment) => some (.ok (chunkProducerIds table shardAssignment))
  else if chunkProducers = [] then some (.error (.notEnoughValidators 0 numShards))
  else
    (roundRobinSettlement epochConfig.numBlockProducerSeatsPerShard
      (List.range blockProducers.length) epochConfig.shardLayout.shardIds 0).map
      fun cps => .ok (table, cps)

/-- The pipeline shared by `proposals_to_epoch_info` and `proposals_to_block_summary`.
`selectionVersion` is the version `select_*_producers` get: `last_version` for an epoch,
`next_version` for a block. -/
def selectValidatorSet (orders : HashOrders A) (fixStakingThresholdFeature : Bool)
    (epochConfig : EpochConfig) (prev : PrevValidators A K)
    (powerProposals : List (ValidatorPower A K)) (pledgeProposals : List (ValidatorPledge A K))
    (validatorKickout : A → Option ValidatorKickoutReason) (nextVersion selectionVersion : Nat) :
    Option (Except EpochError (Selection A K)) := do
  let minPledgeRatio ← ratioNew epochConfig.validatorSelectionConfig.minimumPledgeRatio
  let r := proposalsWithRollover
    (removeDuplicatePowerProposals orders.uniquePowerProposals powerProposals)
    (removeDuplicatePledgeProposals orders.uniquePledgeProposals pledgeProposals)
    prev validatorKickout (fun _ => none) (fun _ => none) []
  let powerValues := (orders.powerProposalsByAccount.order r.powerProposalsByAccount).map Prod.snd
  let pledgeValues := (orders.pledgeProposalsByAccount.order r.pledgeProposalsByAccount).map Prod.snd
  let bpPowerProposals := orderPowerProposals powerValues
  let (blockProducers, bpPledgeThreshold, bpPledgeProposals) ←
    selectBlockProducers fixStakingThresholdFeature bpPowerProposals
      (orderPledgeProposals pledgeValues) epochConfig.numBlockProducerSeats minPledgeRatio
      selectionVersion
  let (cpPowerProposals, chunkProducers, cpPledgeThreshold, cpPledgeProposals) ←
    chunkProducerSelection fixStakingThresholdFeature epochConfig minPledgeRatio powerValues
      pledgeValues nextVersion selectionVersion
      (bpPowerProposals, blockProducers, bpPledgeThreshold, bpPledgeProposals)
  let threshold := min bpPledgeThreshold cpPledgeThreshold
  let leftover ← processLeftovers epochConfig.fishermenThreshold threshold
    (createPowerMap cpPowerProposals) prev cpPledgeProposals
    { fishermen := r.fishermen, pledgeChange := r.pledgeChange, validatorKickout }
  let ids ← settlement epochConfig nextVersion blockProducers chunkProducers
  pure <| ids.map fun (table, chunkProducersSettlement) =>
    { validators := table.allValidators
      validatorToIndex := table.validatorToIndex
      blockProducersSettlement := List.range blockProducers.length
      chunkProducersSettlement
      fishermen := leftover.fishermen
      fishermenToIndex := fishermenToIndex leftover.fishermen
      powerChange := r.powerChange
      pledgeChange := leftover.pledgeChange
      validatorKickout := leftover.validatorKickout
      threshold
      powerProposals := powerValues
      pledgeProposals := pledgeValues }

end Pipeline

/-! ## `EpochInfo` and `BlockSummary` -/

/-- The fields of `EpochInfo` that validator selection writes (`hidden_validators_settlement` is
always empty; the samplers and `validator_mandates` are not modelled). -/
structure EpochInfo (A K : Type) extends PrevValidators A K where
  epochHeight : Nat
  blockProducersSettlement : List Nat
  chunkProducersSettlement : List (List Nat)
  powerChange : A → Option Nat
  pledgeChange : A → Option Nat
  validatorReward : A → Option Nat
  validatorKickout : A → Option ValidatorKickoutReason
  mintedAmount : Nat
  seatPrice : Nat
  protocolVersion : Nat
  rngSeed : List UInt8

/-- The fields of `BlockSummary` that validator selection writes (`validator_mandates` is not
modelled). -/
structure BlockSummary (A K H : Type) extends PrevValidators A K where
  thisBlockHash : H
  prevBlockHash : H
  randomValue : H
  blockProducersSettlement : List Nat
  chunkProducersSettlement : List (List Nat)
  powerChange : A → Option Nat
  pledgeChange : A → Option Nat
  validatorReward : A → Option Nat
  seatPrice : Nat
  mintedAmount : Nat
  allPowerProposals : List (ValidatorPower A K)
  allPledgeProposals : List (ValidatorPledge A K)
  validatorKickout : A → Option ValidatorKickoutReason

section Results

variable [Ord A] [Inhabited A] [Inhabited K]

/-- `proposals_to_epoch_info`. -/
def proposalsToEpochInfo (orders : HashOrders A) (fixStakingThresholdFeature : Bool)
    (epochConfig : EpochConfig) (rngSeed : List UInt8) (prevEpochInfo : EpochInfo A K)
    (powerProposals : List (ValidatorPower A K)) (pledgeProposals : List (ValidatorPledge A K))
    (validatorKickout : A → Option ValidatorKickoutReason) (validatorReward : A → Option Nat)
    (mintedAmount nextVersion lastVersion : Nat) : Option (Except EpochError (EpochInfo A K)) :=
  (selectValidatorSet orders fixStakingThresholdFeature epochConfig
      prevEpochInfo.toPrevValidators powerProposals pledgeProposals validatorKickout nextVersion
      lastVersion).map fun result => result.map fun s =>
    { epochHeight := prevEpochInfo.epochHeight + 1
      validators := s.validators
      validatorToIndex := s.validatorToIndex
      blockProducersSettlement := s.blockProducersSettlement
      chunkProducersSettlement := s.chunkProducersSettlement
      fishermen := s.fishermen
      fishermenToIndex := s.fishermenToIndex
      powerChange := s.powerChange
      pledgeChange := s.pledgeChange
      validatorReward
      validatorKickout := s.validatorKickout
      mintedAmount
      seatPrice := s.threshold
      protocolVersion := nextVersion
      rngSeed }

/-- `proposals_to_block_summary`; `random_value` is `CryptoHash::default()`. -/
def proposalsToBlockSummary {H : Type} [Inhabited H] (orders : HashOrders A)
    (fixStakingThresholdFeature : Bool) (epochConfig : EpochConfig) (thisBlockHash lastBlockHash : H)
    (prevBlockSummary : PrevValidators A K) (powerProposals : List (ValidatorPower A K))
    (pledgeProposals : List (ValidatorPledge A K))
    (validatorKickout : A → Option ValidatorKickoutReason) (validatorReward : A → Option Nat)
    (mintedAmount nextVersion : Nat) : Option (Except BlockError (BlockSummary A K H)) :=
  (selectValidatorSet orders fixStakingThresholdFeature epochConfig prevBlockSummary
      powerProposals pledgeProposals validatorKickout nextVersion nextVersion).map fun result =>
    match result with
    | .error (.notEnoughValidators numValidators numShards) =>
      .error (.notEnoughValidators numValidators numShards)
    | .ok s => .ok
      { thisBlockHash
        prevBlockHash := lastBlockHash
        randomValue := default
        validators := s.validators
        validatorToIndex := s.validatorToIndex
        blockProducersSettlement := s.blockProducersSettlement
        chunkProducersSettlement := s.chunkProducersSettlement
        fishermen := s.fishermen
        fishermenToIndex := s.fishermenToIndex
        powerChange := s.powerChange
        pledgeChange := s.pledgeChange
        validatorReward
        seatPrice := s.threshold
        mintedAmount
        allPowerProposals := s.powerProposals
        allPledgeProposals := s.pledgeProposals
        validatorKickout := s.validatorKickout }

end Results

/-! ## Two nodes, two orders -/

namespace ValidatorSelection

/-- A map that hands out its entries by ascending key. -/
def ascendingKeys : IterOrder Nat :=
  ⟨fun entries => entries.insertionSort (fun a b => a.1 ≤ b.1), List.perm_insertionSort _⟩

/-- A map that hands out its entries by descending key. -/
def descendingKeys : IterOrder Nat :=
  ⟨fun entries => entries.insertionSort (fun a b => b.1 ≤ a.1), List.perm_insertionSort _⟩

/-- Every map of a node in the same order. -/
def uniformOrders (ord : IterOrder Nat) : HashOrders Nat :=
  ⟨ord, ord, ord, ord⟩

/-- One block producer seat, no chunk-only seats, one shard, fishermen from pledge 1, and no
ratio bound. -/
def sampleEpochConfig : EpochConfig where
  numBlockProducerSeats := 1
  numBlockProducerSeatsPerShard := [1]
  fishermenThreshold := 1
  shardLayout := ⟨1⟩
  validatorSelectionConfig :=
    { numChunkOnlyProducerSeats := 0, minimumValidatorsPerShard := 1, minimumPledgeRatio := (0, 1) }

/-- A previous epoch without validators or fishermen. -/
def samplePrevValidators : PrevValidators Nat Unit where
  validators := []
  validatorToIndex := fun _ => none
  fishermen := []
  fishermenToIndex := fun _ => none

/-- The previous epoch, at height 0 and version 64. -/
def samplePrevEpochInfo : EpochInfo Nat Unit :=
  { samplePrevValidators with
    epochHeight := 0
    blockProducersSettlement := []
    chunkProducersSettlement := []
    powerChange := fun _ => none
    pledgeChange := fun _ => none
    validatorReward := fun _ => none
    validatorKickout := fun _ => none
    mintedAmount := 0
    seatPrice := 0
    protocolVersion := 64
    rngSeed := [] }

/-- Four accounts, one pledge proposal each. -/
def samplePledgeProposals : List (ValidatorPledge Nat Unit) :=
  [⟨0, (), 8⟩, ⟨1, (), 9⟩, ⟨2, (), 10⟩, ⟨3, (), 100⟩]

/-- The next epoch at protocol version 64 (the stable one), on a node whose maps use `ord`. -/
def sampleEpochInfo (ord : IterOrder Nat) : Option (Except EpochError (EpochInfo Nat Unit)) :=
  proposalsToEpochInfo (uniformOrders ord) false sampleEpochConfig [] samplePrevEpochInfo []
    samplePledgeProposals (fun _ => none) (fun _ => none) 0 64 64

/-- The block summary at protocol version 64 from the same proposals. -/
def sampleBlockSummary (ord : IterOrder Nat) :
    Option (Except BlockError (BlockSummary Nat Unit Unit)) :=
  proposalsToBlockSummary (uniformOrders ord) false sampleEpochConfig () () samplePrevValidators []
    samplePledgeProposals (fun _ => none) (fun _ => none) 0 64

theorem epoch_info_depends_on_hash_order :
    (sampleEpochInfo ascendingKeys).map (Except.map (·.fishermen)) =
        some (.ok [⟨2, (), 0, 10⟩, ⟨1, (), 0, 9⟩, ⟨0, (), 0, 8⟩]) ∧
      (sampleEpochInfo descendingKeys).map (Except.map (·.fishermen)) =
        some (.ok [⟨2, (), 0, 10⟩, ⟨0, (), 0, 8⟩, ⟨1, (), 0, 9⟩]) ∧
      (sampleBlockSummary ascendingKeys).map (Except.map BlockSummary.allPledgeProposals) =
        some (.ok [⟨0, (), 8⟩, ⟨1, (), 9⟩, ⟨2, (), 10⟩, ⟨3, (), 100⟩]) ∧
      (sampleBlockSummary descendingKeys).map (Except.map BlockSummary.allPledgeProposals) =
        some (.ok [⟨3, (), 100⟩, ⟨2, (), 10⟩, ⟨1, (), 9⟩, ⟨0, (), 8⟩]) := by
  decide +kernel

/-! ## A candidate rejected at the ratio bound -/

/-- Two block producer seats, no chunk-only seats, one shard, fishermen from pledge 100, and the
minimum pledge ratio `1/2`. -/
def boundaryEpochConfig : EpochConfig where
  numBlockProducerSeats := 2
  numBlockProducerSeatsPerShard := [2]
  fishermenThreshold := 100
  shardLayout := ⟨1⟩
  validatorSelectionConfig :=
    { numChunkOnlyProducerSeats := 0, minimumValidatorsPerShard := 1, minimumPledgeRatio := (1, 2) }

/-- A previous epoch whose validators are the accounts `0` and `1`, with pledge 10 each. -/
def boundaryPrevEpochInfo : EpochInfo Nat Unit :=
  { validators := [⟨0, (), 0, 10⟩, ⟨1, (), 0, 10⟩]
    validatorToIndex := fun a => if a = 0 then some 0 else if a = 1 then some 1 else none
    fishermen := []
    fishermenToIndex := fun _ => none
    epochHeight := 0
    blockProducersSettlement := [0, 1]
    chunkProducersSettlement := [[0, 1]]
    powerChange := fun _ => none
    pledgeChange := fun _ => none
    validatorReward := fun _ => none
    validatorKickout := fun _ => none
    mintedAmount := 0
    seatPrice := 0
    protocolVersion := 64
    rngSeed := [] }

/-- The next epoch without proposals, kickouts or rewards, so that both validators roll over;
`fix` is whether the build has `protocol_feature_fix_staking_threshold`. -/
def boundaryEpochInfo (fix : Bool) (version : Nat) :
    Option (Except EpochError (EpochInfo Nat Unit)) :=
  proposalsToEpochInfo (uniformOrders ascendingKeys) fix boundaryEpochConfig [] boundaryPrevEpochInfo
    [] [] (fun _ => none) (fun _ => none) 0 version version

/-- Account `0` is taken, and account `1`, at exactly half of the pledge `20`, is rejected by
both selections. Its `NotEnoughPledge` kickout reports the seat price `ceil(10 / 2) = 5`, half its
pledge; with `FixStakingThreshold` the price is `ceil(5 / (1 / 2)) = 10`, its pledge itself. -/
theorem boundary_candidate_kicked_out_above_seat_price :
    (boundaryEpochInfo false 64).map (Except.map fun e => (e.validatorKickout 1, e.seatPrice)) =
        some (.ok (some (.notEnoughPledge 10 5), 5)) ∧
      (boundaryEpochInfo true 126).map (Except.map fun e => (e.validatorKickout 1, e.seatPrice)) =
        some (.ok (some (.notEnoughPledge 10 10), 10)) := by
  decide +kernel

end ValidatorSelection

end Unc
