import Mathlib

/-!
# Flat storage — `core/store/src/flat/storage.rs`, `store_helper.rs`, `manager.rs`

Flat storage keeps the state of one shard at its flat head in the `FlatState` column, and for
each later block it knows a delta: the block's info, its key changes, and for a block without
changes the last earlier block with changes (`prev_block_with_changes`). A read at a block walks
back to the flat head (`get_blocks_to_head`) and takes the newest change of the key on the way,
or else the flat state. Moving the head applies the deltas it passes to the flat state and
drops every delta at or below the new head's height.

The deltas on disk and in memory are written together (`add_delta`'s store update is committed
by its caller, `update_flat_head` removes both); here they are one map. The loops of
`get_blocks_to_head` and `get_new_flat_head` follow block hashes and have no bound in the code;
here they run on fuel, one step per delta and one more, and report `BlockNotSupported` when it
runs out.

* `BlockInfo`, `FlatStateDelta`, `FlatStorage`;
* `getBlocksToHead`, `getValue`, `getNewFlatHead`, `updateFlatHead`, `addDelta`;
* `getPrevBlockWithChanges`, `saveFlatStateChanges`: how the chain fills in a delta;
* `FlatStorageEvent`, `FlatStorage.run`: a history of saved blocks and head moves.
-/

set_option autoImplicit false

namespace Unc

/-- `FlatStorageInner::BLOCKS_WITH_CHANGES_FLAT_HEAD_GAP`. -/
def BLOCKS_WITH_CHANGES_FLAT_HEAD_GAP : Nat := 2

/-- `BlockInfo`. -/
structure BlockInfo (H : Type) where
  hash : H
  height : Nat
  prevHash : H
  deriving DecidableEq, Repr

/-- `BlockWithChangesInfo`. -/
structure BlockWithChangesInfo (H : Type) where
  hash : H
  height : Nat
  deriving DecidableEq, Repr

/-- `FlatStateDeltaMetadata`: `prevBlockWithChanges` is `none` when the block has changes. -/
structure FlatStateDeltaMetadata (H : Type) where
  block : BlockInfo H
  prevBlockWithChanges : Option (BlockWithChangesInfo H)
  deriving DecidableEq, Repr

/-- `FlatStateChanges`: for each changed key its new value, or `none` for a deletion. -/
abbrev FlatStateChanges (κ V : Type) := AList fun _ : κ => Option V

/-- `FlatStateDelta`, also the cached delta of memory. -/
structure FlatStateDelta (H κ V : Type) where
  metadata : FlatStateDeltaMetadata H
  changes : FlatStateChanges κ V

/-- `FlatStorageError`. -/
inductive FlatStorageError (H : Type) where
  /-- `BlockNotSupported((flat_head, block))`. -/
  | blockNotSupported (flatHead block : H)
  /-- `StorageInternalError("delta does not exist for block {block_hash}")`. -/
  | missingDelta (blockHash : H)
  deriving DecidableEq, Repr

/-- `FlatStorageInner`, with the shard's `FlatState` column. -/
structure FlatStorage (H κ V : Type) [DecidableEq H] where
  flatHead : BlockInfo H
  deltas : AList fun _ : H => FlatStateDelta H κ V
  moveHeadEnabled : Bool
  flatState : κ → Option V

variable {H κ V : Type} [DecidableEq H] [DecidableEq κ]

/-- `FlatStateChanges::apply_to_flat_state`. -/
def applyToFlatState (changes : FlatStateChanges κ V) (flatState : κ → Option V) : κ → Option V :=
  fun key => match changes.lookup key with
    | some value => value
    | none => flatState key

namespace FlatStorage

variable (fs : FlatStorage H κ V)

/-- The fuel of the loops that follow block hashes: one step per delta, and one more. -/
def hops : Nat := fs.deltas.entries.length + 1

/-- The loop of `get_blocks_to_head`: the blocks from `blockHash` back to the flat head, without
the blocks with no changes that a `prev_block_with_changes` skips (the target excepted). -/
def getBlocksToHeadLoop (target : H) : Nat → H → List H → Except (FlatStorageError H) (List H)
  | 0, _, _ => .error (.blockNotSupported fs.flatHead.hash target)
  | fuel + 1, blockHash, blocks =>
    if blockHash = fs.flatHead.hash then .ok blocks
    else
      match fs.deltas.lookup blockHash with
      | none => .error (.blockNotSupported fs.flatHead.hash target)
      | some delta =>
        match delta.metadata.prevBlockWithChanges with
        | none => getBlocksToHeadLoop target fuel delta.metadata.block.prevHash (blocks ++ [blockHash])
        | some prevBlockWithChanges =>
          -- a block with no changes is listed only as the target; the shortcut goes to the
          -- flat head when it is not above it
          getBlocksToHeadLoop target fuel
            (if prevBlockWithChanges.height > fs.flatHead.height then prevBlockWithChanges.hash
              else fs.flatHead.hash)
            (if blockHash = target then blocks ++ [blockHash] else blocks)

/-- `FlatStorageInner::get_blocks_to_head`, newest block first. -/
def getBlocksToHead (target : H) : Except (FlatStorageError H) (List H) :=
  fs.getBlocksToHeadLoop target fs.hops target []

/-- The loop of `get_value` over the deltas: the newest change of `key`, if any. -/
def getValueFromDeltas (key : κ) : List H → Except (FlatStorageError H) (Option (Option V))
  | [] => .ok none
  | blockHash :: rest =>
    match fs.deltas.lookup blockHash with
    | none => .error (.missingDelta blockHash)
    | some delta =>
      match delta.changes.lookup key with
      | some value => .ok (some value)
      | none => getValueFromDeltas key rest

/-- `FlatStorage::get_value`. -/
def getValue (blockHash : H) (key : κ) : Except (FlatStorageError H) (Option V) := do
  let blocks ← fs.getBlocksToHead blockHash
  match ← fs.getValueFromDeltas key blocks with
  | some value => pure value
  | none => pure (fs.flatState key)

/-- The loop of `get_new_flat_head`: back from `newHead` until the second block with changes,
never below the flat head. -/
def getNewFlatHeadLoop : Nat → H → Nat → Except (FlatStorageError H) H
  | 0, newHead, _ => .error (.blockNotSupported fs.flatHead.hash newHead)
  | fuel + 1, newHead, blocksWithChanges =>
    if blocksWithChanges < BLOCKS_WITH_CHANGES_FLAT_HEAD_GAP then
      if newHead = fs.flatHead.hash then .ok fs.flatHead.hash
      else
        match fs.deltas.lookup newHead with
        | none => .error (.blockNotSupported fs.flatHead.hash newHead)
        | some delta =>
          match delta.metadata.prevBlockWithChanges with
          | none =>
            if blocksWithChanges + 1 = BLOCKS_WITH_CHANGES_FLAT_HEAD_GAP then .ok newHead
            else getNewFlatHeadLoop fuel delta.metadata.block.prevHash (blocksWithChanges + 1)
          | some prevBlockWithChanges =>
            if prevBlockWithChanges.height ≤ fs.flatHead.height then .ok fs.flatHead.hash
            else getNewFlatHeadLoop fuel prevBlockWithChanges.hash blocksWithChanges
    else .ok newHead

/-- `FlatStorageInner::get_new_flat_head`. -/
def getNewFlatHead (blockHash : H) (strict : Bool) : Except (FlatStorageError H) H :=
  if strict then .ok blockHash else fs.getNewFlatHeadLoop fs.hops blockHash 0

/-- The deltas kept when the head moves to height `gcHeight`: those strictly above it. -/
def gcDeltas (gcHeight : Nat) (deltas : AList fun _ : H => FlatStateDelta H κ V) :
    AList fun _ : H => FlatStateDelta H κ V :=
  let hashesToRemove :=
    (deltas.entries.filter fun e => e.2.metadata.block.height ≤ gcHeight).map (·.1)
  hashesToRemove.foldl (fun d hash => d.erase hash) deltas

/-- One block of the head move: its changes go to the flat state, it becomes the flat head, and
the deltas up to its height are removed, all in one committed store update. -/
def moveHeadTo (blockHash : H) : Except (FlatStorageError H) (FlatStorage H κ V) :=
  match fs.deltas.lookup blockHash with
  | none => .error (.missingDelta blockHash)
  | some delta =>
    .ok { fs with
      flatState := applyToFlatState delta.changes fs.flatState
      flatHead := delta.metadata.block
      deltas := gcDeltas delta.metadata.block.height fs.deltas }

/-- The head move over `blocks`, oldest first. Each block is committed on its own, so an error
keeps the moves before it. -/
def moveHead : FlatStorage H κ V → List H → FlatStorage H κ V × Except (FlatStorageError H) Unit
  | st, [] => (st, .ok ())
  | st, blockHash :: rest =>
    match st.moveHeadTo blockHash with
    | .ok st' => moveHead st' rest
    | .error e => (st, .error e)

/-- `FlatStorage::update_flat_head`: the new state, and the result. -/
def updateFlatHead (blockHash : H) (strict : Bool) :
    FlatStorage H κ V × Except (FlatStorageError H) Unit :=
  if !fs.moveHeadEnabled then (fs, .ok ())
  else
    match fs.getNewFlatHead blockHash strict with
    | .error e => (fs, .error e)
    | .ok newHead =>
      if newHead = fs.flatHead.hash then (fs, .ok ())
      else
        match fs.getBlocksToHead newHead with
        | .error e => (fs, .error e)
        | .ok blocks => moveHead fs blocks.reverse

/-- `FlatStorage::add_delta`: the parent must be the flat head or have a delta. -/
def addDelta (delta : FlatStateDelta H κ V) : Except (FlatStorageError H) (FlatStorage H κ V) :=
  let block := delta.metadata.block
  if block.prevHash ≠ fs.flatHead.hash ∧ (fs.deltas.lookup block.prevHash).isNone then
    .error (.blockNotSupported fs.flatHead.hash block.hash)
  else .ok { fs with deltas := fs.deltas.insert block.hash delta }

/-- `store_helper::get_prev_block_with_changes`, for flat storage that is ready: the parent's
shortcut, or the parent itself; the flat head when the parent is the flat head. -/
def getPrevBlockWithChanges (prevHash : H) : Option (BlockWithChangesInfo H) :=
  match fs.deltas.lookup prevHash with
  | none =>
    if fs.flatHead.hash = prevHash then some { hash := prevHash, height := fs.flatHead.height }
    else none
  | some delta =>
    some (delta.metadata.prevBlockWithChanges.getD
      { hash := delta.metadata.block.hash, height := delta.metadata.block.height })

/-- `FlatStorageManager::save_flat_state_changes` with flat storage present. -/
def saveFlatStateChanges (blockHash prevHash : H) (height : Nat)
    (changes : FlatStateChanges κ V) : Except (FlatStorageError H) (FlatStorage H κ V) :=
  let prevBlockWithChanges :=
    if changes.entries.isEmpty then fs.getPrevBlockWithChanges prevHash else none
  fs.addDelta
    { changes := changes
      metadata :=
        { block := { hash := blockHash, height := height, prevHash := prevHash }
          prevBlockWithChanges := prevBlockWithChanges } }

end FlatStorage

/-- A call on flat storage: a block's changes are saved, or the head is moved. -/
inductive FlatStorageEvent (H κ V : Type) where
  | saveFlatStateChanges (blockHash prevHash : H) (height : Nat) (changes : FlatStateChanges κ V)
  | updateFlatHead (blockHash : H) (strict : Bool)

namespace FlatStorage

/-- One call; a failed `add_delta` leaves the storage as it was. -/
def step (fs : FlatStorage H κ V) : FlatStorageEvent H κ V → FlatStorage H κ V
  | .saveFlatStateChanges blockHash prevHash height changes =>
    match fs.saveFlatStateChanges blockHash prevHash height changes with
    | .ok fs' => fs'
    | .error _ => fs
  | .updateFlatHead blockHash strict => (fs.updateFlatHead blockHash strict).1

/-- A history of calls. -/
def run (fs : FlatStorage H κ V) (evs : List (FlatStorageEvent H κ V)) : FlatStorage H κ V :=
  evs.foldl step fs

end FlatStorage

/-! ## A read on a fork that the head left -/

/-- Flat head `0` at height 0, key `0` unset. -/
def forkStorage : FlatStorage Nat Nat Nat :=
  { flatHead := { hash := 0, height := 0, prevHash := 0 }
    deltas := ∅
    moveHeadEnabled := true
    flatState := fun _ => none }

/-- Block `1` sets key `0` to 10, its sibling `2` sets it to 20, and block `3` on `2` has no
changes; then block `1` becomes final. -/
def forkEvents : List (FlatStorageEvent Nat Nat Nat) :=
  [.saveFlatStateChanges 1 0 1 ((∅ : FlatStateChanges Nat Nat).insert 0 (some 10)),
    .saveFlatStateChanges 2 0 1 ((∅ : FlatStateChanges Nat Nat).insert 0 (some 20)),
    .saveFlatStateChanges 3 2 2 ∅,
    .updateFlatHead 1 true]

/-- After the head moves to block `1`, the delta of block `3` survives (it is above the new
head) while its parent's is gone. Its shortcut to block `2` is not above the head, so
`get_blocks_to_head` jumps to the head although the head is not an ancestor of `3`: the read at
`3` gives block `1`'s value 10 instead of `BlockNotSupported` or the value 20 that blocks `2`
and `3` leave, and a strict head move to `3` makes `3` the flat head over block `1`'s state. -/
theorem getValue_after_head_leaves_fork :
    (forkStorage.run forkEvents).getValue 3 0 = .ok (some 10) ∧
      applyToFlatState ∅ (applyToFlatState ((∅ : FlatStateChanges Nat Nat).insert 0 (some 20))
        forkStorage.flatState) 0 = some 20 ∧
      ((forkStorage.run forkEvents).updateFlatHead 3 true).1.flatHead =
        { hash := 3, height := 2, prevHash := 2 } ∧
      ((forkStorage.run forkEvents).updateFlatHead 3 true).1.flatState 0 = some 10 :=
  ⟨rfl, rfl, rfl, rfl⟩

end Unc
