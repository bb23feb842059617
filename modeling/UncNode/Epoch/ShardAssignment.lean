import UncNode.Lib.BinaryHeap

/-!
# Assigning chunk producers to shards

`assign_shards` of `chain/epoch-manager/src/shard_assignment.rs`. The producers arrive sorted
by descending pledge (an `assert!`, a panic otherwise). A min-heap of shards keyed by
`(count, pledge, shard_id)` first fills every shard up to `minimum_validators_per_shard`,
drawing producers from an endless cycle over the list and never giving one producer twice to
one shard (`assign_with_possible_repeats`); the producers left over then go one by one to the
shard of least pledge, continuing the same cycle.

The `MinHeap` of `utils/min_heap.rs` is a `BinaryHeap` of `Reverse`d keys, so the shard index
is a `SiftHeap (Reverse ShardKey)`. The cycle `chunk_producers.into_iter().enumerate().cycle()`
is the count `next` of the producers it has handed out: the next one is at `next % len`.
A panic of the source (`unwrap` of an empty heap or an empty cycle, an index out of range,
the `assert!`) is `none`, as is fuel running out, which the bounds given never let happen.
-/

set_option autoImplicit false

namespace Unc

/-- `HasPledge<Balance>`: the value `assign_shards` balances. -/
class HasPledge (T : Type) where
  getValue : T → Nat

/-- The error `NotEnoughValidators` of `assign_shards`. -/
structure NotEnoughValidators where
deriving DecidableEq, Repr

/-- A shard's key in the heaps of `assign_shards`: the tuple `(usize, Balance, ShardId)`. -/
abbrev ShardKey := Nat × Nat × Nat

/-- Rust's order on tuples: lexicographic. -/
instance shardKeyOrd : Ord ShardKey := @lexOrd Nat (Nat × Nat) _ lexOrd

/-- `MinHeap<(usize, Balance, ShardId)>`. -/
abbrev ShardIndex := SiftHeap (Reverse ShardKey)

variable {T : Type} [HasPledge T]

/-- The state `assign_with_possible_repeats` works on. -/
structure AssignState (T : Type) where
  shardIndex : ShardIndex
  result : List (List T)
  /-- the `seen` set of `(shard_id, cp_index)` pairs -/
  seen : List (Nat × Nat)
  /-- how many producers the cycle has handed out -/
  next : Nat

/-- One turn of the inner `loop` of `assign_with_possible_repeats` for the producer `cp` at
`cpIndex`, over the `match shard_index.peek_mut()`: stop at an empty heap or at a full top
shard; give `cp` to the top shard if it does not hold it yet; otherwise pop that shard into
`buffer` and look at the next one. -/
def placeProducer (minValidatorsPerShard cpIndex : Nat) (cp : T) :
    Nat → AssignState T → List ShardKey → Option (AssignState T × List ShardKey)
  | 0, _, _ => none
  | fuel + 1, s, buffer =>
    match s.shardIndex.peek with
    | none => some (s, buffer)
    | some ⟨(count, pledge, shardId)⟩ =>
      if minValidatorsPerShard ≤ count then some (s, buffer)
      else if (shardId, cpIndex) ∉ s.seen then
        if shardId < s.result.length then
          some ({ s with
            shardIndex := s.shardIndex.peekMutSet ⟨(count + 1, pledge + HasPledge.getValue cp, shardId)⟩
            result := s.result.modify shardId (· ++ [cp])
            seen := (shardId, cpIndex) :: s.seen }, buffer)
        else none
      else
        placeProducer minValidatorsPerShard cpIndex cp fuel
          { s with shardIndex := s.shardIndex.pop.2 } (buffer ++ [(count, pledge, shardId)])

/-- The `while` loop of `assign_with_possible_repeats`: while the top shard holds fewer than
`minValidatorsPerShard` producers, take the next producer of the cycle, place it, and put the
skipped shards back with `extend`. -/
def assignWithPossibleRepeatsLoop (chunkProducers : List T) (minValidatorsPerShard : Nat) :
    Nat → AssignState T → Option (AssignState T)
  | 0, _ => none
  | fuel + 1, s =>
    match s.shardIndex.peek with
    | none => none
    | some top =>
      if top.val.1 < minValidatorsPerShard then
        let cpIndex := s.next % chunkProducers.length
        match chunkProducers[cpIndex]? with
        | none => none
        | some cp =>
          match placeProducer minValidatorsPerShard cpIndex cp (s.shardIndex.len + 1)
              { s with next := s.next + 1 } [] with
          | none => none
          | some (s', buffer) =>
            assignWithPossibleRepeatsLoop chunkProducers minValidatorsPerShard fuel
              { s' with shardIndex := s'.shardIndex.extend (buffer.map Reverse.mk) }
      else some s

/-- `assign_with_possible_repeats`. Each pass over the whole cycle places some producer while a
shard is short, and at most `numShards * minValidatorsPerShard` placements happen, which bounds
the turns of the loop. -/
def assignWithPossibleRepeats (chunkProducers : List T) (numShards minValidatorsPerShard : Nat)
    (s : AssignState T) : Option (AssignState T) :=
  assignWithPossibleRepeatsLoop chunkProducers minValidatorsPerShard
    (chunkProducers.length * (numShards * minValidatorsPerShard + 1) + 1) s

/-- The second phase of `assign_shards`: each of the next `k` producers of the cycle goes to the
shard of least pledge. -/
def assignRemaining (chunkProducers : List T) :
    Nat → Nat → ShardIndex → List (List T) → Option (List (List T))
  | 0, _, _, result => some result
  | k + 1, next, shardIndex, result =>
    match chunkProducers[next % chunkProducers.length]?, shardIndex.pop with
    | some cp, (some ⟨(leastPledge, leastValidatorCount, shardId)⟩, shardIndex) =>
      if shardId < result.length then
        assignRemaining chunkProducers k (next + 1)
          (shardIndex.push ⟨(leastPledge + HasPledge.getValue cp, leastValidatorCount + 1, shardId)⟩)
          (result.modify shardId (· ++ [cp]))
      else none
    | _, _ => none

/-- Whether the producers come by descending value, as the `assert!` of `assign_shards` asks. -/
def sortedByValue (chunkProducers : List T) : Bool :=
  (chunkProducers.zip chunkProducers.tail).all fun pair =>
    HasPledge.getValue pair.2 ≤ HasPledge.getValue pair.1

/-- `assign_shards(chunk_producers, num_shards, min_validators_per_shard)`. -/
def assignShards (chunkProducers : List T) (numShards minValidatorsPerShard : Nat) :
    Option (Except NotEnoughValidators (List (List T))) :=
  if !sortedByValue chunkProducers then none
  else if chunkProducers.length < minValidatorsPerShard then some (.error {})
  else
    let start : AssignState T :=
      { shardIndex := SiftHeap.ofList ((List.range numShards).map fun s => ⟨(0, 0, s)⟩)
        result := List.replicate numShards []
        seen := []
        next := 0 }
    match assignWithPossibleRepeats chunkProducers numShards minValidatorsPerShard start with
    | none => none
    | some s =>
      let remainingProducers := chunkProducers.length - numShards * minValidatorsPerShard
      if 0 < remainingProducers then
        -- re-index the shards by least pledge, in the order `into_iter` hands them out
        let shardIndex : ShardIndex :=
          SiftHeap.ofList (s.shardIndex.data.map fun r => ⟨(r.val.2.1, r.val.1, r.val.2.2)⟩)
        (assignRemaining chunkProducers remainingProducers s.next shardIndex s.result).map .ok
      else some (.ok s.result)

/-- The chunk producers of the source's tests: `(index, pledge)` pairs. -/
instance : HasPledge (Nat × Nat) := ⟨Prod.snd⟩

/-- Three producers of equal pledge over three shards of two: the cycle skips producer `2` when
it already sits in the only short shard, so producer `0` ends in three shards and producer `2`
in one. -/
theorem assign_shards_unbalanced :
    assignShards [(0, 10), (1, 10), (2, 10)] 3 2 =
      some (.ok [[(0, 10), (1, 10)], [(1, 10), (0, 10)], [(2, 10), (0, 10)]]) := by
  decide

end Unc
