import Mathlib
import UncNode.Lib.PartialMap
import UncNode.Epoch.Kickout

/-!
# Aggregating the statistics of an epoch

`EpochInfoAggregator` of `chain/epoch-manager/src/types.rs`, and `aggregate_epoch_info_upto`,
`get_epoch_info_aggregator_upto_last` and `update_epoch_info_aggregator_upto_final` of
`chain/epoch-manager/src/lib.rs`.

An aggregator holds, for a run of blocks of one epoch, each block producer's produced and
expected blocks, each shard's chunk producers' produced and expected chunks, each block
producer's latest protocol version and each account's latest proposals.

* `AggregatorData` with `older * newer` is a monoid: counters add up, and a version or a
  proposal of the newer run replaces the older's. Each combinator of the source is a product:
  `update_tail` puts one older block in front (`updateTail_eq_mul`), `merge` puts `other` after
  `self` and `merge_prefix` puts it before (`merge_eq`, `mergePrefix_eq`). The statistics of a
  list of blocks are the product of its blocks' (`segmentAggregate`, `foldr_updateTail`).
* `EpochSegment` is the list of blocks that the walk back from a block takes before it reaches
  another epoch or the genesis block, neither of which it counts.
* **Main results**: on a store where every block's parent is stored at a lower height, and with
  a cached aggregator that holds its own last block's segment, `get_epoch_info_aggregator_upto_last`
  returns the segment of the block it is given (`aggregator_upto_last_aggregates`), and
  `update_epoch_info_aggregator_upto_final` keeps the cache valid over any run
  (`runUptoFinal_cacheValid`).

The `HashMap`s and `BTreeMap`s are `PartialMap`s and the `u64` counters are `Nat`. `EpochInfo`
enters only through `sample_block_producer` and `sample_chunk_producer`, the store only through
`get_block_info` and `get_epoch_info`; an `EpochError`, a panic or a walk out of fuel is `none`.
-/

set_option autoImplicit false

namespace Unc

open PartialMap

/-- The `+=` of both counters in `merge_common`. -/
def ValidatorStats.add (a b : ValidatorStats) : ValidatorStats :=
  ⟨a.produced + b.produced, a.expected + b.expected⟩

instance : Std.Associative ValidatorStats.add :=
  ⟨fun a b c => by simp [ValidatorStats.add, Nat.add_assoc]⟩

instance : Std.Commutative ValidatorStats.add :=
  ⟨fun a b => by simp [ValidatorStats.add, Nat.add_comm]⟩

namespace Aggregator

variable {A K E H : Type}

/-- The fields of `BlockInfo` that `update_tail` and the walk read. -/
structure BlockInfo (A K E H : Type) where
  height : Nat
  prevHash : H
  epochId : E
  chunkMask : List Bool
  latestProtocolVersion : Nat
  powerProposals : List (ValidatorPower A K)
  pledgeProposals : List (ValidatorPledge A K)

/-- `EpochInfo` as `update_tail` reads it: `sample_block_producer(height)` and
`sample_chunk_producer(height, shard_id)`. -/
structure ProducerSampler where
  sampleBlockProducer : Nat → Nat
  sampleChunkProducer : Nat → Nat → Nat

/-- The statistics of an `EpochInfoAggregator`, without its `epoch_id` and `last_block_hash`. -/
@[ext] structure AggregatorData (A K : Type) where
  blockTracker : Nat → Option ValidatorStats
  shardTracker : Nat → Option (Nat → Option ValidatorStats)
  versionTracker : Nat → Option Nat
  allPowerProposals : A → Option (ValidatorPower A K)
  allPledgeProposals : A → Option (ValidatorPledge A K)

/-- `EpochInfoAggregator`. -/
structure EpochInfoAggregator (A K E H : Type) extends AggregatorData A K where
  epochId : E
  lastBlockHash : H

/-! ## The monoid of statistics -/

namespace AggregatorData

/-- The statistics of no block. -/
instance : One (AggregatorData A K) := ⟨⟨empty, empty, empty, empty, empty⟩⟩

/-- `older * newer`: the statistics of `older`'s blocks followed by `newer`'s. -/
instance : Mul (AggregatorData A K) := ⟨fun older newer =>
  ⟨mergeWith ValidatorStats.add older.blockTracker newer.blockTracker,
    mergeWith (mergeWith ValidatorStats.add) older.shardTracker newer.shardTracker,
    overlay older.versionTracker newer.versionTracker,
    overlay older.allPowerProposals newer.allPowerProposals,
    overlay older.allPledgeProposals newer.allPledgeProposals⟩⟩

theorem one_def : (1 : AggregatorData A K) = ⟨empty, empty, empty, empty, empty⟩ := rfl

theorem mul_def (older newer : AggregatorData A K) : older * newer =
    ⟨mergeWith ValidatorStats.add older.blockTracker newer.blockTracker,
      mergeWith (mergeWith ValidatorStats.add) older.shardTracker newer.shardTracker,
      overlay older.versionTracker newer.versionTracker,
      overlay older.allPowerProposals newer.allPowerProposals,
      overlay older.allPledgeProposals newer.allPledgeProposals⟩ := rfl

instance : Monoid (AggregatorData A K) where
  mul_assoc x y z := by
    simp only [mul_def, mergeWith_assoc, overlay_assoc]
  one_mul x := by
    cases x
    simp only [mul_def, one_def, mergeWith_empty_left, overlay_empty_left]
  mul_one x := by
    cases x
    simp only [mul_def, one_def, mergeWith_empty_right, overlay_empty_right]

variable [DecidableEq A]

/-- `update_tail`: the statistics of `blockInfo`, the block just before the first one `self`
holds, whose parent is at `prevBlockHeight`. Every height after the parent's is expected of its
block producer and produced only at the block's own; each shard of the chunk mask is expected of
its chunk producer at `prev_block_height + 1` and produced where the mask is set. A version or a
proposal is inserted only where `self` has none, `self`'s blocks being the later ones. -/
def updateTail (self : AggregatorData A K) (blockInfo : BlockInfo A K E H)
    (epochInfo : ProducerSampler) (prevBlockHeight : Nat) : AggregatorData A K where
  blockTracker :=
    (List.range' (prevBlockHeight + 1) (blockInfo.height - prevBlockHeight)).foldl
      (fun tracker height => upsert ValidatorStats.add tracker
        (epochInfo.sampleBlockProducer height) ⟨if height = blockInfo.height then 1 else 0, 1⟩)
      self.blockTracker
  shardTracker :=
    blockInfo.chunkMask.zipIdx.foldl
      (fun shardTracker entry => Function.update shardTracker entry.2
        (some (upsert ValidatorStats.add ((shardTracker entry.2).getD empty)
          (epochInfo.sampleChunkProducer (prevBlockHeight + 1) entry.2)
          ⟨if entry.1 then 1 else 0, 1⟩)))
      self.shardTracker
  versionTracker :=
    insertIfAbsent self.versionTracker (epochInfo.sampleBlockProducer blockInfo.height)
      blockInfo.latestProtocolVersion
  allPowerProposals :=
    blockInfo.powerProposals.foldl (fun m p => insertIfAbsent m p.accountId p)
      self.allPowerProposals
  allPledgeProposals :=
    blockInfo.pledgeProposals.foldl (fun m p => insertIfAbsent m p.accountId p)
      self.allPledgeProposals

/-- **`update_tail` puts the block in front of `self`**: its statistics are those of the block
alone, followed by `self`'s. -/
theorem updateTail_eq_mul (self : AggregatorData A K) (blockInfo : BlockInfo A K E H)
    (epochInfo : ProducerSampler) (prevBlockHeight : Nat) :
    self.updateTail blockInfo epochInfo prevBlockHeight =
      (1 : AggregatorData A K).updateTail blockInfo epochInfo prevBlockHeight * self := by
  apply AggregatorData.ext
  · exact foldl_upsert_eq_mergeWith _ _ _ _
  · simp only [updateTail, mul_def, update_upsert_getD]
    exact foldl_upsert_eq_mergeWith _ _ _ _
  · simp [updateTail, mul_def, one_def, insertIfAbsent_eq_overlay]
  · exact foldl_insertIfAbsent_eq_overlay _ _ _ _
  · exact foldl_insertIfAbsent_eq_overlay _ _ _ _

end AggregatorData

/-! ## Block segments -/

section Segments

variable [DecidableEq A] (epochInfo : ProducerSampler)

/-- The statistics of a run of blocks, oldest first, each with its parent's height. -/
def segmentAggregate (seg : List (BlockInfo A K E H × Nat)) : AggregatorData A K :=
  (seg.map fun bp => (1 : AggregatorData A K).updateTail bp.1 epochInfo bp.2).prod

@[simp] theorem segmentAggregate_nil :
    segmentAggregate epochInfo ([] : List (BlockInfo A K E H × Nat)) = 1 := rfl

/-- The statistics of two runs, one after the other, are their product. -/
theorem segmentAggregate_append (s t : List (BlockInfo A K E H × Nat)) :
    segmentAggregate epochInfo (s ++ t) =
      segmentAggregate epochInfo s * segmentAggregate epochInfo t := by
  simp [segmentAggregate, List.prod_append]

theorem segmentAggregate_concat (seg : List (BlockInfo A K E H × Nat)) (b : BlockInfo A K E H)
    (prevHeight : Nat) :
    segmentAggregate epochInfo (seg ++ [(b, prevHeight)]) =
      segmentAggregate epochInfo seg *
        (1 : AggregatorData A K).updateTail b epochInfo prevHeight := by
  rw [segmentAggregate_append]
  simp [segmentAggregate]

/-- `update_tail` applied from the newest block of `seg` to its oldest puts the whole run in
front. -/
theorem foldr_updateTail (seg : List (BlockInfo A K E H × Nat)) (a : AggregatorData A K) :
    seg.foldr (fun bp acc => acc.updateTail bp.1 epochInfo bp.2) a =
      segmentAggregate epochInfo seg * a := by
  induction seg with
  | nil => simp
  | cons bp seg ih =>
    rw [List.foldr_cons, ih, AggregatorData.updateTail_eq_mul, ← mul_assoc]
    rfl

end Segments

/-! ## The aggregator -/

namespace EpochInfoAggregator

/-- `EpochInfoAggregator::new`. -/
def new (epochId : E) (lastBlockHash : H) : EpochInfoAggregator A K E H :=
  { toAggregatorData := 1, epochId, lastBlockHash }

variable [DecidableEq A] [DecidableEq E]

/-- `update_tail` on the aggregator: its epoch and last block stay. -/
def updateTail (self : EpochInfoAggregator A K E H) (blockInfo : BlockInfo A K E H)
    (epochInfo : ProducerSampler) (prevBlockHeight : Nat) : EpochInfoAggregator A K E H :=
  { self with
    toAggregatorData := self.toAggregatorData.updateTail blockInfo epochInfo prevBlockHeight }

/-- `merge_common`: `other`'s counters added to `self`'s; `none` is the panic of its
`assert_eq!` on the two epochs. -/
def mergeCommon (self other : EpochInfoAggregator A K E H) : Option (EpochInfoAggregator A K E H) :=
  if self.epochId = other.epochId then
    some { self with
      blockTracker := mergeWith ValidatorStats.add self.blockTracker other.blockTracker
      shardTracker := mergeWith (mergeWith ValidatorStats.add) self.shardTracker other.shardTracker }
  else none

/-- `merge`: `other` holds the blocks after `self`'s; its versions and proposals replace
`self`'s (`extend`) and its last block becomes the last. -/
def merge (self other : EpochInfoAggregator A K E H) : Option (EpochInfoAggregator A K E H) := do
  let merged ← self.mergeCommon other
  return { merged with
    versionTracker := overlay merged.versionTracker other.versionTracker
    allPowerProposals := overlay merged.allPowerProposals other.allPowerProposals
    allPledgeProposals := overlay merged.allPledgeProposals other.allPledgeProposals
    lastBlockHash := other.lastBlockHash }

/-- `merge_prefix`: `other` holds the blocks before `self`'s; its versions and proposals are
inserted only where `self` has none (`entry(k).or_insert_with`). -/
def mergePrefix (self other : EpochInfoAggregator A K E H) :
    Option (EpochInfoAggregator A K E H) := do
  let merged ← self.mergeCommon other
  return { merged with
    versionTracker := overlay other.versionTracker merged.versionTracker
    allPowerProposals := overlay other.allPowerProposals merged.allPowerProposals
    allPledgeProposals := overlay other.allPledgeProposals merged.allPledgeProposals }

omit [DecidableEq E] in
theorem updateTail_toAggregatorData (self : EpochInfoAggregator A K E H)
    (blockInfo : BlockInfo A K E H) (epochInfo : ProducerSampler) (prevBlockHeight : Nat) :
    (self.updateTail blockInfo epochInfo prevBlockHeight).toAggregatorData =
      (1 : AggregatorData A K).updateTail blockInfo epochInfo prevBlockHeight *
        self.toAggregatorData :=
  AggregatorData.updateTail_eq_mul _ _ _ _

omit [DecidableEq A] in
/-- **`merge` appends** `other`'s statistics to `self`'s. -/
theorem merge_eq (self other : EpochInfoAggregator A K E H) (h : self.epochId = other.epochId) :
    self.merge other = some
      ⟨self.toAggregatorData * other.toAggregatorData, self.epochId, other.lastBlockHash⟩ := by
  simp [merge, mergeCommon, h, AggregatorData.mul_def]

omit [DecidableEq A] in
/-- **`merge_prefix` prepends** `other`'s statistics to `self`'s: it is `other.merge(self)` with
`self`'s last block, because the counters commute. -/
theorem mergePrefix_eq (self other : EpochInfoAggregator A K E H)
    (h : self.epochId = other.epochId) :
    self.mergePrefix other = some
      ⟨other.toAggregatorData * self.toAggregatorData, self.epochId, self.lastBlockHash⟩ := by
  simp only [mergePrefix, mergeCommon, if_pos h, Option.bind_eq_bind, Option.bind_some,
    AggregatorData.mul_def, mergeWith_comm self.blockTracker, mergeWith_comm self.shardTracker]
  rfl

end EpochInfoAggregator

/-! ## The walk back from a block -/

section Store

variable [Inhabited H] (getBlockInfo : H → Option (BlockInfo A K E H))

/-- `EpochSegment getBlockInfo epochId h seg`: walking back from the stored block `h` through
the blocks of `epochId` gives `seg`, oldest first, each with its parent's height. The walk stops
at a block of another epoch or at a genesis block (one whose parent is the default hash) and
counts neither. -/
inductive EpochSegment (epochId : E) : H → List (BlockInfo A K E H × Nat) → Prop
  | stop {h : H} {b : BlockInfo A K E H} :
      getBlockInfo h = some b → (epochId ≠ b.epochId ∨ b.prevHash = default) →
      EpochSegment epochId h []
  | step {h : H} {b p : BlockInfo A K E H} {seg : List (BlockInfo A K E H × Nat)} :
      getBlockInfo h = some b → ¬(epochId ≠ b.epochId ∨ b.prevHash = default) →
      getBlockInfo b.prevHash = some p → EpochSegment epochId b.prevHash seg →
      EpochSegment epochId h (seg ++ [(b, p.height)])

variable {getBlockInfo}

/-- A block has one segment. -/
theorem EpochSegment.unique {epochId : E} {h : H} {seg seg' : List (BlockInfo A K E H × Nat)}
    (hs : EpochSegment getBlockInfo epochId h seg)
    (hs' : EpochSegment getBlockInfo epochId h seg') : seg = seg' := by
  induction hs generalizing seg' with
  | stop hb hstop =>
    cases hs' with
    | stop => rfl
    | step hb' hcont => simp_all
  | step hb hcont hp _ ih =>
    cases hs' with
    | stop hb' hstop => simp_all
    | step hb' _ hp' hrest =>
      obtain rfl := Option.some.inj (hb.symm.trans hb')
      obtain rfl := Option.some.inj (hp.symm.trans hp')
      rw [ih hrest]

end Store

/-- The parts of `EpochManager` the walk reads: `get_block_info`, `get_epoch_info` and the
cached `epoch_info_aggregator`. -/
structure EpochManager (A K E H : Type) where
  getBlockInfo : H → Option (BlockInfo A K E H)
  getEpochInfo : E → Option ProducerSampler
  epochInfoAggregator : EpochInfoAggregator A K E H

namespace EpochManager

variable [DecidableEq A] [DecidableEq E] [DecidableEq H] [Inhabited H]
  (M : EpochManager A K E H)

/-- The `loop` of `aggregate_epoch_info_upto` at `cur_hash`, with the blocks after it in
`aggregator`. `fuel` bounds the iterations the source leaves unbounded. -/
def aggregateLoop (epochId : E) (epochInfo : ProducerSampler) :
    Nat → EpochInfoAggregator A K E H → H → Option (EpochInfoAggregator A K E H × Bool)
  | 0, _, _ => none
  | fuel + 1, aggregator, curHash => do
    let blockInfo ← M.getBlockInfo curHash
    if epochId ≠ blockInfo.epochId ∨ blockInfo.prevHash = default then
      return (aggregator, true)
    let prevInfo ← M.getBlockInfo blockInfo.prevHash
    let aggregator := aggregator.updateTail blockInfo epochInfo prevInfo.height
    if blockInfo.prevHash = M.epochInfoAggregator.lastBlockHash then
      return (aggregator, decide (epochId ≠ prevInfo.epochId))
    aggregateLoop epochId epochInfo fuel aggregator blockInfo.prevHash

/-- `aggregate_epoch_info_upto`; the walk gets one iteration per height of `block_hash` and one
more. The `cfg!(debug)` check is not compiled in. -/
def aggregateEpochInfoUpto (blockHash : H) :
    Option (Option (EpochInfoAggregator A K E H × Bool)) :=
  if blockHash = M.epochInfoAggregator.lastBlockHash then some none
  else do
    let blockInfo ← M.getBlockInfo blockHash
    let epochInfo ← M.getEpochInfo blockInfo.epochId
    let result ← M.aggregateLoop blockInfo.epochId epochInfo (blockInfo.height + 1)
      (.new blockInfo.epochId blockHash) blockHash
    return some result

/-- `get_epoch_info_aggregator_upto_last`. -/
def getEpochInfoAggregatorUptoLast (lastBlockHash : H) :
    Option (EpochInfoAggregator A K E H) := do
  match ← M.aggregateEpochInfoUpto lastBlockHash with
  | some (aggregator, replace) =>
    if replace then some aggregator else aggregator.mergePrefix M.epochInfoAggregator
  | none => some M.epochInfoAggregator

/-- `update_epoch_info_aggregator_upto_final`, without the write of the aggregator to the
store. -/
def updateEpochInfoAggregatorUptoFinal (lastFinalBlockHash : H) :
    Option (EpochManager A K E H) := do
  match ← M.aggregateEpochInfoUpto lastFinalBlockHash with
  | some (aggregator, replace) =>
    if replace then some { M with epochInfoAggregator := aggregator }
    else do
      let merged ← M.epochInfoAggregator.merge aggregator
      some { M with epochInfoAggregator := merged }
  | none => some M

/-- `update_epoch_info_aggregator_upto_final` at each final block of `hashes` in turn. -/
def runUptoFinal : EpochManager A K E H → List H → Option (EpochManager A K E H)
  | M, [] => some M
  | M, h :: hashes =>
    (M.updateEpochInfoAggregatorUptoFinal h).bind fun M' => runUptoFinal M' hashes

/-- Every stored block but a genesis block has its parent stored, at a lower height. -/
def ParentsStored : Prop :=
  ∀ h b, M.getBlockInfo h = some b → b.prevHash ≠ default →
    ∃ p, M.getBlockInfo b.prevHash = some p ∧ p.height < b.height

/-- `agg` holds the segment of the stored block `h`, is for `h`'s epoch and has `h` as its last
block. -/
def Aggregates (agg : EpochInfoAggregator A K E H) (h : H) : Prop :=
  ∃ b epochInfo seg, M.getBlockInfo h = some b ∧ M.getEpochInfo b.epochId = some epochInfo ∧
    EpochSegment M.getBlockInfo b.epochId h seg ∧ agg.epochId = b.epochId ∧
    agg.lastBlockHash = h ∧ agg.toAggregatorData = segmentAggregate epochInfo seg

/-- The cached aggregator holds its own last block's segment, or that block is not stored (the
`Default` aggregator of a fresh node). -/
def CacheValid : Prop :=
  M.getBlockInfo M.epochInfoAggregator.lastBlockHash = none ∨
    M.Aggregates M.epochInfoAggregator M.epochInfoAggregator.lastBlockHash

section Walk

variable {M} {epochId : E} {epochInfo : ProducerSampler}

/-- What the walk from `cur` returns, with `agg` holding the blocks after `cur`: `cur`'s segment
in front of `agg`'s blocks, alone if the result is full, and after the cached aggregator's
blocks if not. -/
structure WalkResult (epochId : E) (epochInfo : ProducerSampler) (cur : H)
    (agg r : EpochInfoAggregator A K E H) (full : Bool) : Prop where
  epochId_eq : r.epochId = agg.epochId
  lastBlockHash_eq : r.lastBlockHash = agg.lastBlockHash
  full_data : full = true → ∃ seg, EpochSegment M.getBlockInfo epochId cur seg ∧
    r.toAggregatorData = segmentAggregate epochInfo seg * agg.toAggregatorData
  partial_data : full = false → M.epochInfoAggregator.epochId = epochId ∧
    ∃ seg, EpochSegment M.getBlockInfo epochId cur seg ∧
      M.epochInfoAggregator.toAggregatorData * r.toAggregatorData =
        segmentAggregate epochInfo seg * agg.toAggregatorData

omit [DecidableEq E] [DecidableEq H] in
theorem walkResult_stop {cur : H} {b : BlockInfo A K E H} (agg : EpochInfoAggregator A K E H)
    (hb : M.getBlockInfo cur = some b) (hstop : epochId ≠ b.epochId ∨ b.prevHash = default) :
    M.WalkResult epochId epochInfo cur agg agg true where
  epochId_eq := rfl
  lastBlockHash_eq := rfl
  full_data _ := ⟨[], .stop hb hstop, by simp⟩
  partial_data h := nomatch h

omit [DecidableEq H] in
/-- At the cached aggregator's last block the walk ends: full if that block is of another
epoch, and completed by the cache otherwise. -/
theorem walkResult_sync (hc : M.CacheValid) (hE : M.getEpochInfo epochId = some epochInfo)
    {p : BlockInfo A K E H} (hp : M.getBlockInfo M.epochInfoAggregator.lastBlockHash = some p)
    (agg : EpochInfoAggregator A K E H) :
    M.WalkResult epochId epochInfo M.epochInfoAggregator.lastBlockHash agg agg
      (decide (epochId ≠ p.epochId)) := by
  by_cases hne : epochId ≠ p.epochId
  · rw [decide_eq_true hne]
    exact walkResult_stop agg hp (Or.inl hne)
  · rw [decide_eq_false hne]
    obtain hnone | ⟨b, ei, seg, hb, hei, hseg, hepoch, -, hdata⟩ := hc
    · simp [hnone] at hp
    obtain rfl := Option.some.inj (hb.symm.trans hp)
    have heq : epochId = b.epochId := not_not.mp hne
    subst heq
    obtain rfl := Option.some.inj (hei.symm.trans hE)
    refine ⟨rfl, rfl, fun h => (nomatch h), fun _ => ⟨hepoch, seg, hseg, ?_⟩⟩
    rw [hdata]

omit [DecidableEq E] [DecidableEq H] in
/-- One step of the walk back: what the walk from the parent returns, with the block put in
front of `agg`, is what the walk from the block returns. -/
theorem WalkResult.cons {cur : H} {b p : BlockInfo A K E H}
    {agg r : EpochInfoAggregator A K E H} {full : Bool} (hb : M.getBlockInfo cur = some b)
    (hcont : ¬(epochId ≠ b.epochId ∨ b.prevHash = default))
    (hp : M.getBlockInfo b.prevHash = some p)
    (hr : M.WalkResult epochId epochInfo b.prevHash (agg.updateTail b epochInfo p.height) r full) :
    M.WalkResult epochId epochInfo cur agg r full where
  epochId_eq := hr.epochId_eq
  lastBlockHash_eq := hr.lastBlockHash_eq
  full_data hfull := by
    obtain ⟨seg, hseg, hdata⟩ := hr.full_data hfull
    refine ⟨seg ++ [(b, p.height)], .step hb hcont hp hseg, ?_⟩
    rw [hdata, EpochInfoAggregator.updateTail_toAggregatorData, segmentAggregate_concat,
      mul_assoc]
  partial_data hpart := by
    obtain ⟨hepoch, seg, hseg, hdata⟩ := hr.partial_data hpart
    refine ⟨hepoch, seg ++ [(b, p.height)], .step hb hcont hp hseg, ?_⟩
    rw [hdata, EpochInfoAggregator.updateTail_toAggregatorData, segmentAggregate_concat,
      mul_assoc]

theorem aggregateLoop_of_stop {fuel : Nat} {cur : H} {b : BlockInfo A K E H}
    (agg : EpochInfoAggregator A K E H) (hb : M.getBlockInfo cur = some b)
    (hstop : epochId ≠ b.epochId ∨ b.prevHash = default) :
    M.aggregateLoop epochId epochInfo (fuel + 1) agg cur = some (agg, true) := by
  simp only [aggregateLoop, hb, Option.bind_eq_bind, Option.bind_some, if_pos hstop]
  rfl

theorem aggregateLoop_of_continue {fuel : Nat} {cur : H} {b p : BlockInfo A K E H}
    (agg : EpochInfoAggregator A K E H) (hb : M.getBlockInfo cur = some b)
    (hcont : ¬(epochId ≠ b.epochId ∨ b.prevHash = default))
    (hp : M.getBlockInfo b.prevHash = some p) :
    M.aggregateLoop epochId epochInfo (fuel + 1) agg cur =
      if b.prevHash = M.epochInfoAggregator.lastBlockHash then
        some (agg.updateTail b epochInfo p.height, decide (epochId ≠ p.epochId))
      else M.aggregateLoop epochId epochInfo fuel (agg.updateTail b epochInfo p.height)
        b.prevHash := by
  simp only [aggregateLoop, hb, Option.bind_eq_bind, Option.bind_some, if_neg hcont, hp]
  rfl

/-- **The walk returns**, given enough fuel, and what it returns is `cur`'s segment in front of
`agg`. Induction on the fuel, which bounds the height of `cur`. -/
theorem aggregateLoop_spec (hpar : M.ParentsStored) (hc : M.CacheValid)
    (hE : M.getEpochInfo epochId = some epochInfo) :
    ∀ (fuel : Nat) (cur : H) (b : BlockInfo A K E H) (agg : EpochInfoAggregator A K E H),
      M.getBlockInfo cur = some b → b.height < fuel →
      ∃ r full, M.aggregateLoop epochId epochInfo fuel agg cur = some (r, full) ∧
        M.WalkResult epochId epochInfo cur agg r full := by
  intro fuel
  induction fuel with
  | zero => intro cur b agg _ hlt; omega
  | succ fuel ih =>
    intro cur b agg hb hlt
    by_cases hstop : epochId ≠ b.epochId ∨ b.prevHash = default
    · exact ⟨agg, true, aggregateLoop_of_stop agg hb hstop, walkResult_stop agg hb hstop⟩
    obtain ⟨p, hp, hph⟩ := hpar cur b hb fun h => hstop (Or.inr h)
    rw [aggregateLoop_of_continue agg hb hstop hp]
    by_cases hsync : b.prevHash = M.epochInfoAggregator.lastBlockHash
    · rw [if_pos hsync]
      refine ⟨_, _, rfl, WalkResult.cons hb hstop hp ?_⟩
      rw [hsync] at hp ⊢
      exact walkResult_sync hc hE hp _
    · rw [if_neg hsync]
      obtain ⟨r, full, hrun, hr⟩ :=
        ih b.prevHash p (agg.updateTail b epochInfo p.height) hp (by omega)
      exact ⟨r, full, hrun, WalkResult.cons hb hstop hp hr⟩

/-- `aggregate_epoch_info_upto` on a stored block other than the cache's last one returns the
walk from it with an empty aggregator. -/
theorem aggregateEpochInfoUpto_spec (hpar : M.ParentsStored) (hc : M.CacheValid) {h : H}
    {b : BlockInfo A K E H} (hb : M.getBlockInfo h = some b)
    (hE : M.getEpochInfo b.epochId = some epochInfo)
    (hne : h ≠ M.epochInfoAggregator.lastBlockHash) :
    ∃ r full, M.aggregateEpochInfoUpto h = some (some (r, full)) ∧
      M.WalkResult b.epochId epochInfo h (.new b.epochId h) r full := by
  obtain ⟨r, full, hrun, hr⟩ := aggregateLoop_spec hpar hc hE (b.height + 1) h b
    (.new b.epochId h) hb (Nat.lt_succ_self _)
  exact ⟨r, full, by simp [aggregateEpochInfoUpto, hne, hb, hE, hrun], hr⟩

omit [DecidableEq E] [DecidableEq H] in
/-- A walk from `h` started empty holds `h`'s segment if it is full, and does after the cache's
blocks if it is not. -/
theorem aggregates_of_walkResult {h : H} {b : BlockInfo A K E H}
    {r : EpochInfoAggregator A K E H} {full : Bool} (hb : M.getBlockInfo h = some b)
    (hE : M.getEpochInfo b.epochId = some epochInfo)
    (hr : M.WalkResult b.epochId epochInfo h (.new b.epochId h) r full) :
    (full = true → M.Aggregates r h) ∧
      (full = false → M.epochInfoAggregator.epochId = r.epochId ∧
        M.Aggregates ⟨M.epochInfoAggregator.toAggregatorData * r.toAggregatorData, r.epochId,
          r.lastBlockHash⟩ h) := by
  constructor
  · intro hfull
    obtain ⟨seg, hseg, hdata⟩ := hr.full_data hfull
    exact ⟨b, epochInfo, seg, hb, hE, hseg, hr.epochId_eq, hr.lastBlockHash_eq,
      by simpa [EpochInfoAggregator.new] using hdata⟩
  · intro hpart
    obtain ⟨hepoch, seg, hseg, hdata⟩ := hr.partial_data hpart
    refine ⟨hepoch.trans hr.epochId_eq.symm, b, epochInfo, seg, hb, hE, hseg, hr.epochId_eq,
      hr.lastBlockHash_eq, ?_⟩
    simpa [EpochInfoAggregator.new] using hdata

omit [DecidableEq E] [DecidableEq H] in
/-- The cache's last block, when stored, is the block the cache aggregates. -/
theorem aggregates_of_sync (hc : M.CacheValid) {h : H} {b : BlockInfo A K E H}
    (hb : M.getBlockInfo h = some b) (hsync : h = M.epochInfoAggregator.lastBlockHash) :
    M.Aggregates M.epochInfoAggregator h := by
  obtain hnone | hagg := hc
  · rw [← hsync] at hnone
    simp [hnone] at hb
  · rwa [hsync]

end Walk

section Results

variable {M}

/-- **`get_epoch_info_aggregator_upto_last` returns the segment of its block.** On a store
whose blocks' parents are stored at lower heights, with a cached aggregator that holds its own
last block's segment, the result for any stored block `h` whose epoch is known holds the
statistics of `h`'s epoch on `h`'s chain up to `h`. -/
theorem aggregator_upto_last_aggregates (hpar : M.ParentsStored) (hc : M.CacheValid) {h : H}
    {b : BlockInfo A K E H} {epochInfo : ProducerSampler} (hb : M.getBlockInfo h = some b)
    (hE : M.getEpochInfo b.epochId = some epochInfo) :
    ∃ agg, M.getEpochInfoAggregatorUptoLast h = some agg ∧ M.Aggregates agg h := by
  by_cases hsync : h = M.epochInfoAggregator.lastBlockHash
  · exact ⟨M.epochInfoAggregator, by simp [getEpochInfoAggregatorUptoLast,
      aggregateEpochInfoUpto, hsync], aggregates_of_sync hc hb hsync⟩
  obtain ⟨r, full, hup, hr⟩ := aggregateEpochInfoUpto_spec hpar hc hb hE hsync
  obtain ⟨hfull, hpart⟩ := aggregates_of_walkResult hb hE hr
  cases full with
  | true => exact ⟨r, by simp [getEpochInfoAggregatorUptoLast, hup], hfull rfl⟩
  | false =>
    obtain ⟨hepoch, hagg⟩ := hpart rfl
    refine ⟨_, ?_, hagg⟩
    simp [getEpochInfoAggregatorUptoLast, hup,
      EpochInfoAggregator.mergePrefix_eq r _ hepoch.symm]

def sampleSampler : ProducerSampler := ⟨fun h => h % 2, fun h s => (h + s) % 2⟩

def sampleBlock1 : BlockInfo Nat Unit Nat Nat := ⟨0, 0, 0, [], 1, [], []⟩

def sampleBlock2 : BlockInfo Nat Unit Nat Nat := ⟨1, 1, 1, [true, false], 1, [⟨5, (), 10⟩], []⟩

def sampleBlock3 : BlockInfo Nat Unit Nat Nat := ⟨3, 2, 1, [true, true], 2, [⟨5, (), 20⟩], []⟩

/-- A genesis block `1`, then blocks `2` and `3` of epoch `1`, with height `2` skipped. -/
def sampleBlocks (h : Nat) : Option (BlockInfo Nat Unit Nat Nat) :=
  if h = 1 then some sampleBlock1
  else if h = 2 then some sampleBlock2
  else if h = 3 then some sampleBlock3
  else none

/-- The cache holds block `2`, of the same epoch as block `3`, so the walk from `3` ends in
`merge_prefix`. -/
def sampleManager : EpochManager Nat Unit Nat Nat :=
  ⟨sampleBlocks, fun _ => some sampleSampler,
    ⟨segmentAggregate sampleSampler [(sampleBlock2, 0)], 1, 2⟩⟩

theorem aggregator_upto_last_aggregates_sample :
    sampleManager.ParentsStored ∧ sampleManager.CacheValid ∧
      sampleManager.getBlockInfo 3 = some sampleBlock3 ∧
      sampleManager.getEpochInfo sampleBlock3.epochId = some sampleSampler ∧
      ∃ agg, sampleManager.getEpochInfoAggregatorUptoLast 3 = some agg ∧
        sampleManager.Aggregates agg 3 := by
  have hpar : sampleManager.ParentsStored := by
    intro h b hb hprev
    simp only [sampleManager, sampleBlocks] at hb
    split_ifs at hb <;> cases hb
    · exact absurd rfl hprev
    · exact ⟨sampleBlock1, rfl, by decide⟩
    · exact ⟨sampleBlock2, rfl, by decide⟩
  have hc : sampleManager.CacheValid := by
    refine Or.inr ⟨sampleBlock2, sampleSampler, [(sampleBlock2, 0)], rfl, rfl, ?_, rfl, rfl, rfl⟩
    show EpochSegment sampleBlocks 1 2 ([] ++ [(sampleBlock2, sampleBlock1.height)])
    exact .step rfl (by decide) rfl (.stop rfl (by decide))
  exact ⟨hpar, hc, rfl, rfl, aggregator_upto_last_aggregates hpar hc rfl rfl⟩

/-- **`update_epoch_info_aggregator_upto_final` leaves the cache at the segment of its
block**, and the store as it was. -/
theorem updateEpochInfoAggregatorUptoFinal_aggregates (hpar : M.ParentsStored)
    (hc : M.CacheValid) {h : H} {b : BlockInfo A K E H} {epochInfo : ProducerSampler}
    (hb : M.getBlockInfo h = some b) (hE : M.getEpochInfo b.epochId = some epochInfo) :
    ∃ agg, M.updateEpochInfoAggregatorUptoFinal h = some { M with epochInfoAggregator := agg } ∧
      M.Aggregates agg h := by
  by_cases hsync : h = M.epochInfoAggregator.lastBlockHash
  · exact ⟨M.epochInfoAggregator, by simp [updateEpochInfoAggregatorUptoFinal,
      aggregateEpochInfoUpto, hsync], aggregates_of_sync hc hb hsync⟩
  obtain ⟨r, full, hup, hr⟩ := aggregateEpochInfoUpto_spec hpar hc hb hE hsync
  obtain ⟨hfull, hpart⟩ := aggregates_of_walkResult hb hE hr
  cases full with
  | true => exact ⟨r, by simp [updateEpochInfoAggregatorUptoFinal, hup], hfull rfl⟩
  | false =>
    obtain ⟨hepoch, hagg⟩ := hpart rfl
    rw [← hepoch] at hagg
    refine ⟨_, ?_, hagg⟩
    simp [updateEpochInfoAggregatorUptoFinal, hup, EpochInfoAggregator.merge_eq _ r hepoch]

/-- **The cache stays valid over any run** of `update_epoch_info_aggregator_upto_final` on
stored blocks whose epochs are known; the store is left as it was. Induction on the run, with
`updateEpochInfoAggregatorUptoFinal_aggregates` as the step. -/
theorem runUptoFinal_cacheValid (hpar : M.ParentsStored) (hc : M.CacheValid)
    (hashes : List H)
    (hknown : ∀ h ∈ hashes, ∃ b epochInfo, M.getBlockInfo h = some b ∧
      M.getEpochInfo b.epochId = some epochInfo) :
    ∃ agg, runUptoFinal M hashes = some { M with epochInfoAggregator := agg } ∧
      CacheValid { M with epochInfoAggregator := agg } := by
  induction hashes generalizing M with
  | nil => exact ⟨M.epochInfoAggregator, rfl, hc⟩
  | cons h hashes ih =>
    obtain ⟨b, epochInfo, hb, hE⟩ := hknown h List.mem_cons_self
    obtain ⟨agg, hstep, hagg⟩ := updateEpochInfoAggregatorUptoFinal_aggregates hpar hc hb hE
    have hc' : CacheValid { M with epochInfoAggregator := agg } := by
      obtain ⟨-, -, -, -, -, -, -, hlast, -⟩ := id hagg
      right
      rw [hlast]
      exact hagg
    obtain ⟨agg', hrun, hc''⟩ := @ih { M with epochInfoAggregator := agg } hpar hc'
      fun h' hh' => hknown h' (List.mem_cons_of_mem h hh')
    refine ⟨agg', ?_, hc''⟩
    simp only [runUptoFinal, hstep, Option.bind_some]
    exact hrun

end Results

end EpochManager

end Aggregator

end Unc
