import Mathlib
import UncNode.Trie.MemTrieNode
import UncNode.Trie.NibbleSlice

/-!
# Building a trie from sorted keys — `core/store/src/trie/mem/construction.rs`

`TrieConstructor` builds the initial memtrie bottom-up from keys given in increasing order,
as `load_trie_from_flat_state` reads them from flat storage. It keeps the rightmost path of the
trie under construction as a stack of segments, each a node whose trail is the edge below it
toward the last key: a branch whose trail is one nibble, an extension, or a leaf at the bottom.
A new key walks down the segments while it starts with their trails; where it deviates, the
segments below are turned into nodes, the segment is split at the deviation, and a branch there
gets the new key as its current case. `finalize` turns the whole stack into nodes.

The constructor allocates through `MemTrieNodeId::new` only; the model is written over that
allocation, so that it can be run over the arena and also over an allocation that never fails.
Where the source panics (an `assert!`, an `unwrap` of `None`, an index out of bounds) the model
returns `none`.

* `TrieConstructionSegment.inputNode`, `TrieConstructionSegment.intoNode`: `into_node`, the
  node that a finished segment becomes;
* `TrieConstructor.popSegment`, `TrieConstructor.popFrom`: a finished bottom segment becomes a
  node, a child of the segment above it;
* `TrieConstructor.addLeafLoop`, `TrieConstructor.deviate`, `TrieConstructor.addLeaf`: `add_leaf`;
* `TrieConstructor.finalize`, `constructTrie`: `finalize`, and the construction of
  `load_trie_from_flat_state`.
-/

set_option autoImplicit false

namespace Unc

/-- `MemTrieNodeId::new`: `new_impl` without a hash. -/
def MemTrieNodeId.new (ar : Arena) (input : InputMemTrieNode) : Option (Arena × MemTrieNodeId) :=
  MemTrieNodeId.newImpl ar input none

/-- `TrieConstructionSegment`: a node of the rightmost path, whose `trail` (hex-prefix encoded)
is the edge below it toward the last key. A branch has its finished `children`, an extension
its finished `child`, and a leaf or a branch may have a `value`. -/
structure TrieConstructionSegment where
  isBranch : Bool
  trail : List UInt8
  value : Option FlatStateValue
  children : List (UInt8 × MemTrieNodeId)
  child : Option MemTrieNodeId

namespace TrieConstructionSegment

/-- `TrieConstructionSegment::new_branch`. -/
def newBranch (initialTrail : List UInt8) (value : Option FlatStateValue) :
    TrieConstructionSegment :=
  ⟨true, initialTrail, value, [], none⟩

/-- `TrieConstructionSegment::new_extension`: the trail must be an extension's, and not empty. -/
def newExtension (trail : List UInt8) : Option TrieConstructionSegment := do
  let (nibbles, isLeaf) ← NibbleSlice.fromEncoded trail
  if isLeaf then none
  else if nibbles.isEmpty then none
  else pure ⟨false, trail, none, [], none⟩

/-- `TrieConstructionSegment::new_leaf`: the trail must be a leaf's. -/
def newLeaf (trail : List UInt8) (value : FlatStateValue) : Option TrieConstructionSegment := do
  let (_, isLeaf) ← NibbleSlice.fromEncoded trail
  if isLeaf then pure ⟨false, trail, some value, [], none⟩ else none

/-- `TrieConstructionSegment::is_leaf`. -/
def isLeaf (s : TrieConstructionSegment) : Bool := s.value.isSome && !s.isBranch

/-- `children[i as usize] = Some(child)` of `into_node`, which panics past index 15. -/
def setChild (arr : List.Vector (Option MemTrieNodeId) 16) (c : UInt8 × MemTrieNodeId) :
    Option (List.Vector (Option MemTrieNodeId) 16) :=
  if h : c.1.toNat < 16 then some (arr.set ⟨c.1.toNat, h⟩ (some c.2)) else none

/-- The children array of `into_node`, filled pair by pair. -/
def childrenArray (children : List (UInt8 × MemTrieNodeId)) :
    Option (List.Vector (Option MemTrieNodeId) 16) :=
  children.foldlM setChild (List.Vector.replicate 16 none)

/-- The input node that `into_node` builds, with its asserts. -/
def inputNode (s : TrieConstructionSegment) : Option InputMemTrieNode :=
  if s.isBranch then
    if s.children.isEmpty then none
    else if s.child.isSome then none
    else do
      let children ← childrenArray s.children
      match s.value with
      | some value => pure (.branchWithValue children value)
      | none => pure (.branch children)
  else
    match s.value with
    | some value =>
      if s.child.isSome then none
      else if !s.children.isEmpty then none
      else pure (.leaf value s.trail)
    | none =>
      match s.child with
      | none => none
      | some child => if !s.children.isEmpty then none else pure (.extension s.trail child)

/-- `TrieConstructionSegment::into_node`, with the allocation `new`. -/
def intoNode {σ : Type} (new : σ → InputMemTrieNode → Option (σ × MemTrieNodeId))
    (s : TrieConstructionSegment) (arena : σ) : Option (σ × MemTrieNodeId) := do
  let node ← s.inputNode
  new arena node

end TrieConstructionSegment

/-- `TrieConstructor`: the arena, and the segments of the rightmost path from the root down. -/
structure TrieConstructor (σ : Type) where
  arena : σ
  segments : List TrieConstructionSegment

namespace TrieConstructor

variable {σ : Type} (new : σ → InputMemTrieNode → Option (σ × MemTrieNodeId))

/-- `TrieConstructor::new`. -/
def empty (arena : σ) : TrieConstructor σ := ⟨arena, []⟩

/-- `TrieConstructor::pop_segment`: the bottom segment becomes a node, which the segment above
takes as the child of its trail's first nibble (a branch) or as its child (an extension). -/
def popSegment (c : TrieConstructor σ) : Option (TrieConstructor σ) := do
  let segment ← c.segments.getLast?
  let segments := c.segments.dropLast
  let (arena, node) ← segment.intoNode new c.arena
  let parent ← segments.getLast?
  let rest := segments.dropLast
  if parent.isBranch then
    let (trail, _) ← NibbleSlice.fromEncoded parent.trail
    let first ← trail.at 0
    pure ⟨arena, rest ++ [{ parent with children := parent.children ++ [(first, node)] }]⟩
  else if parent.child.isSome then none
  else pure ⟨arena, rest ++ [{ parent with child := some node }]⟩

/-- `while i < self.segments.len() - 1 { self.pop_segment() }`, for at most `fuel` rounds;
`finalize`'s `while self.segments.len() > 1` is the loop for `i = 0`. -/
def popFrom (i : Nat) : Nat → TrieConstructor σ → Option (TrieConstructor σ)
  | 0, c => if i + 1 < c.segments.length then none else some c
  | fuel + 1, c =>
    if i + 1 < c.segments.length then c.popSegment new >>= popFrom i fuel else some c

/-- The split of `add_leaf` when the deviation is `common_prefix_len > 0` nibbles into the
bottom segment: an extension segment for the common prefix on top, and the segment with the
rest of its trail below it. -/
def splitSegment (c : TrieConstructor σ) (commonPrefixLen : Nat) (nibbles : NibbleSlice) :
    Option (TrieConstructor σ × NibbleSlice) := do
  let segment ← c.segments.getLast?
  if segment.isBranch then none
  else
    let (extensionNibbles, wasLeaf) ← NibbleSlice.fromEncoded segment.trail
    if wasLeaf ≠ segment.isLeaf then none
    else if wasLeaf ≠ segment.child.isNone then none
    else
      let topTrail ← extensionNibbles.encodedLeftmost commonPrefixLen false
      let topSegment ← TrieConstructionSegment.newExtension topTrail
      let rest ← extensionNibbles.mid commonPrefixLen
      let trail ← rest.encoded wasLeaf
      let nibbles ← nibbles.mid commonPrefixLen
      pure (⟨c.arena, c.segments.dropLast ++ [topSegment, { segment with trail }]⟩, nibbles)

/-- The bottom segment of `add_leaf`, an extension or a leaf that deviates at its first nibble,
becomes a branch there: the rest of the segment below the first nibble is kept as the
branch's first child (the child itself, for an extension of one nibble). -/
def branchOut (c : TrieConstructor σ) : Option (TrieConstructor σ) := do
  let segment ← c.segments.getLast?
  let segments := c.segments.dropLast
  let (extensionNibbles, wasLeaf) ← NibbleSlice.fromEncoded segment.trail
  if wasLeaf ≠ segment.isLeaf then none
  else if wasLeaf ≠ segment.child.isNone then none
  else
    let topTrail ← extensionNibbles.encodedLeftmost 1 false
    let topSegment := TrieConstructionSegment.newBranch topTrail none
    if 1 < extensionNibbles.len || wasLeaf then
      let rest ← extensionNibbles.mid 1
      let trail ← rest.encoded wasLeaf
      popSegment new ⟨c.arena, segments ++ [topSegment, { segment with trail }]⟩
    else
      let first ← extensionNibbles.at 0
      let child ← segment.child
      pure ⟨c.arena, segments ++
        [{ topSegment with children := topSegment.children ++ [(first, child)] }]⟩

/-- The end of both deviation cases of `add_leaf`: the bottom segment, a branch, points at the
new key's next nibble, which the nibbles left move past. -/
def advanceBranch (c : TrieConstructor σ) (nibbles : NibbleSlice) :
    Option (TrieConstructor σ × NibbleSlice) := do
  let last ← c.segments.getLast?
  let trail ← nibbles.encodedLeftmost 1 false
  let nibbles ← nibbles.mid 1
  pure (⟨c.arena, c.segments.dropLast ++ [{ last with trail }]⟩, nibbles)

/-- The deviation of `add_leaf` in segment `i`, `common_prefix_len` nibbles in: the segments
below are popped, the segment is split at the deviation, and the branch there advances to the
new key. -/
def deviate (c : TrieConstructor σ) (i commonPrefixLen : Nat) (nibbles : NibbleSlice) :
    Option (TrieConstructor σ × NibbleSlice) := do
  let c ← popFrom new i c.segments.length c
  let (c, nibbles) ← if 0 < commonPrefixLen then splitSegment c commonPrefixLen nibbles
    else pure (c, nibbles)
  let last ← c.segments.getLast?
  if last.isBranch then advanceBranch c nibbles
  else
    let c ← branchOut new c
    advanceBranch c nibbles

/-- The `while i < self.segments.len()` loop of `add_leaf` from segment `i` with the nibbles
left, for `fuel` rounds: on past each segment whose trail the nibbles start with, and the
deviation at the first one they do not. -/
def addLeafLoop (c : TrieConstructor σ) : Nat → Nat → NibbleSlice →
    Option (TrieConstructor σ × NibbleSlice)
  | 0, i, nibbles => if i < c.segments.length then none else some (c, nibbles)
  | fuel + 1, i, nibbles =>
    if i < c.segments.length then
      if nibbles.isEmpty then none
      else do
        let segment ← c.segments[i]?
        let (extensionNibbles, _) ← NibbleSlice.fromEncoded segment.trail
        let commonPrefixLen ← nibbles.commonPrefix extensionNibbles
        if commonPrefixLen = extensionNibbles.len then
          let nibbles ← nibbles.mid commonPrefixLen
          addLeafLoop c fuel (i + 1) nibbles
        else deviate new c i commonPrefixLen nibbles
    else some (c, nibbles)

/-- The end of `add_leaf` past every segment, the last a leaf: the leaf becomes a branch with
its value, under an extension for its trail if that is not empty, and the new leaf goes below
the branch. -/
def extendLeaf (c : TrieConstructor σ) (nibbles : NibbleSlice) (value : FlatStateValue) :
    Option (TrieConstructor σ) := do
  if nibbles.isEmpty then none
  else
    let segment ← c.segments.getLast?
    let segments := c.segments.dropLast
    let (extensionNibbles, wasLeaf) ← NibbleSlice.fromEncoded segment.trail
    if !wasLeaf then none
    else
      let segments ← if !extensionNibbles.isEmpty then do
          let trail ← extensionNibbles.encoded false
          let topSegment ← TrieConstructionSegment.newExtension trail
          pure (segments ++ [topSegment])
        else pure segments
      let midTrail ← nibbles.encodedLeftmost 1 false
      let midSegment := TrieConstructionSegment.newBranch midTrail segment.value
      let rest ← nibbles.mid 1
      let bottomTrail ← rest.encoded true
      let bottomSegment ← TrieConstructionSegment.newLeaf bottomTrail value
      pure ⟨c.arena, segments ++ [midSegment, bottomSegment]⟩

/-- The end of `add_leaf` at a branch, or at the root: the new leaf is pushed. -/
def pushLeaf (c : TrieConstructor σ) (nibbles : NibbleSlice) (value : FlatStateValue) :
    Option (TrieConstructor σ) := do
  let trail ← nibbles.encoded true
  let segment ← TrieConstructionSegment.newLeaf trail value
  pure ⟨c.arena, c.segments ++ [segment]⟩

/-- `TrieConstructor::add_leaf`. -/
def addLeaf (c : TrieConstructor σ) (key : List UInt8) (value : FlatStateValue) :
    Option (TrieConstructor σ) := do
  let (c, nibbles) ← addLeafLoop new c c.segments.length 0 (NibbleSlice.new key)
  match c.segments.getLast? with
  | some last => if last.isLeaf then extendLeaf c nibbles value else pushLeaf c nibbles value
  | none => pushLeaf c nibbles value

/-- `TrieConstructor::finalize`: the arena, and the root if a leaf was added. -/
def finalize (c : TrieConstructor σ) : Option (σ × Option MemTrieNodeId) := do
  let c ← popFrom new 0 c.segments.length c
  match c.segments.head? with
  | none => pure (c.arena, none)
  | some segment =>
    let (arena, root) ← segment.intoNode new c.arena
    pure (arena, some root)

end TrieConstructor

/-- The construction of `load_trie_from_flat_state`: `add_leaf` for each key and value in the
order of the flat storage, then `finalize`. -/
def constructTrie {σ : Type} (new : σ → InputMemTrieNode → Option (σ × MemTrieNodeId))
    (arena : σ) (entries : List (List UInt8 × FlatStateValue)) :
    Option (σ × Option MemTrieNodeId) := do
  let c ← entries.foldlM (fun c entry => c.addLeaf new entry.1 entry.2)
    (TrieConstructor.empty arena)
  c.finalize new

end Unc
