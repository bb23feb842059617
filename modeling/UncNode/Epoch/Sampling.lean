import UncNode.Epoch.ValidatorSelection
import UncNode.Primitives.Rand

/-!
# Sampling the producers of an epoch

From `AliasValidatorSelectionAlgorithm` (protocol version 49) on, `EpochInfo::new` builds a
`WeightedIndex` over the powers of the block producers in `block_producers_settlement`, and one
per shard over its chunk producers; `sample_block_producer` and `sample_chunk_producer` (of
`EpochInfo::V3` and `V4`) draw a position of the settlement with it. The seeds are hashes of
`rng_seed` with the height (and the shard), which the model does not compute: every seed is
an input.

The model's `EpochInfo` keeps no samplers; they are computed here from the fields they are
built from, as `EpochInfo::new` computes them.

* `powerWeights_exact`: a sampler draws each position in proportion to the power of the
  validator at it;
* **`sample_block_producer_panics_without_power`**: selection gives power `0` to every
  validator without a power proposal, and the epoch of `sampleEpochInfo` then has a block
  producer sampler of total weight `0`, which panics on every seed.
-/

set_option autoImplicit false

namespace Unc

namespace EpochInfo

variable {A K : Type}

/-- The `power_weights` closure of `EpochInfo::new`: the sampler over the powers of the
validators that `ids` names; `validators[validator_id]` panics past the end. -/
def powerWeights (validators : List (ValidatorPowerAndPledge A K)) (ids : List Nat) :
    Option WeightedIndex := do
  let weights ← ids.mapM fun id => validators[id]?.map (·.power)
  WeightedIndex.new weights

/-- `block_producers_sampler`. -/
def blockProducersSampler (e : EpochInfo A K) : Option WeightedIndex :=
  powerWeights e.validators e.blockProducersSettlement

/-- `chunk_producers_sampler`: one sampler per shard. -/
def chunkProducersSampler (e : EpochInfo A K) : Option (List WeightedIndex) :=
  e.chunkProducersSettlement.mapM (powerWeights e.validators)

/-- `sample_block_producer`, with the seed `block_produce_seed(height, rng_seed)`. -/
def sampleBlockProducer (e : EpochInfo A K) (seed : List UInt8) : Option Nat := do
  let sampler ← e.blockProducersSampler
  let i ← sampler.sample seed
  e.blockProducersSettlement[i]?

/-- `sample_chunk_producer`, with the seed `chunk_produce_seed(.., height, shard_id)`. -/
def sampleChunkProducer (e : EpochInfo A K) (seed : List UInt8) (shardId : Nat) : Option Nat := do
  let samplers ← e.chunkProducersSampler
  let sampler ← samplers[shardId]?
  let i ← sampler.sample seed
  let shardCps ← e.chunkProducersSettlement[shardId]?
  shardCps[i]?

/-- The weights of `power_weights` are the powers of the named validators. -/
theorem mapM_power_eq_some (validators : List (ValidatorPowerAndPledge A K)) :
    ∀ {ids weights : List Nat}, ids.mapM (fun id => validators[id]?.map (·.power)) = some weights →
      weights = ids.map fun id => (validators[id]?.map (·.power)).getD 0
  | [], weights, h => by
    simp only [List.mapM_nil, pure, Option.some.injEq] at h
    simp [← h]
  | id :: ids, weights, h => by
    rw [List.mapM_cons] at h
    obtain ⟨p, hp, h⟩ := Option.bind_eq_some_iff.mp h
    obtain ⟨ps, hps, h⟩ := Option.bind_eq_some_iff.mp h
    cases h
    rw [mapM_power_eq_some validators hps, List.map_cons, hp, Option.getD_some]

/-- **A sampler draws each position in proportion to its validator's power**: of the `n * W`
pairs `(uniform_index, uniform_weight)`, exactly `n` times the power at position `i` select
`i`. -/
theorem powerWeights_exact {validators : List (ValidatorPowerAndPledge A K)} {ids : List Nat}
    {w : WeightedIndex} (h : powerWeights validators ids = some w) {i : Nat} (hi : i < ids.length) :
    ((Finset.range ids.length ×ˢ Finset.range w.weightSum).filter
      fun p => w.choose p.1 p.2 = i).card =
        ids.length * (validators[ids.getD i 0]?.map (·.power)).getD 0 := by
  obtain ⟨weights, hweights, hnew⟩ := Option.bind_eq_some_iff.mp h
  have hw := mapM_power_eq_some validators hweights
  subst hw
  have hcount := WeightedIndex.card_choose_eq hnew (by simpa using hi)
  rw [List.length_map] at hcount
  rw [hcount, List.getD_eq_getElem?_getD, List.getElem?_map, List.getElem?_eq_getElem hi,
    List.getD_eq_getElem?_getD, List.getElem?_eq_getElem hi]
  rfl

end EpochInfo

namespace ValidatorSelection

/-- The epoch after the proposals `(0, 8), (1, 9), (2, 10), (3, 100)` without power proposals
(`sampleEpochInfo`): account `3` is the only block and chunk producer, with power `0`, so both
samplers have total weight `0`, and every draw panics on `% weight_sum`. -/
theorem sample_block_producer_panics_without_power :
    ∃ e, sampleEpochInfo ascendingKeys = some (.ok e) ∧
      e.blockProducersSampler = some ⟨0, [0], [0]⟩ ∧
      ∀ seed, e.sampleBlockProducer seed = none ∧ e.sampleChunkProducer seed 0 = none := by
  have hs : (sampleEpochInfo ascendingKeys).map
      (Except.map fun e => (e.blockProducersSampler, e.chunkProducersSampler)) =
        some (.ok (some ⟨0, [0], [0]⟩, some [⟨0, [0], [0]⟩])) := by
    decide +kernel
  match h : sampleEpochInfo ascendingKeys with
  | some (.ok e) =>
    rw [h] at hs
    simp only [Option.map_some, Except.map, Option.some.injEq, Except.ok.injEq,
      Prod.mk.injEq] at hs
    refine ⟨e, rfl, hs.1, fun seed => ⟨?_, ?_⟩⟩
    · simp [EpochInfo.sampleBlockProducer, hs.1, WeightedIndex.sample]
    · simp [EpochInfo.sampleChunkProducer, hs.2, WeightedIndex.sample]
  | some (.error _) => simp [h, Except.map] at hs
  | none => simp [h] at hs

end ValidatorSelection

end Unc
