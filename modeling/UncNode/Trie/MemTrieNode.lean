import Mathlib
import UncNode.Lib.Bitmap
import UncNode.Lib.Borsh
import UncNode.Trie.Arena

/-!
# Memtrie nodes in the arena — `core/store/src/trie/mem/node`, `flexible_data`

`MemTrieNodeId::new_impl` adds a reference to each child, computes the node's memory usage,
allocates one region and writes the node there: a fixed borsh header for its kind, then its
flexible parts (the extension's bytes, the packed positions of the present children, the value's
bytes or hash). `view_impl` reads the kind from the common header and decodes the rest;
`size_of_allocation` recomputes the region's length from the header.

* `RawEncoder.Wrote`: the encoder's writes so far are one write of their bytes;
* `InputMemTrieNode.encode_leaf`, ..., `encode_branchWithValue`: each kind's encoding is one
  write of its header and flexible parts into the region it allocated;
* `MemTrieNodePtr.viewImpl_leaf`, ..., `viewImpl_branchWithValue`: each layout's image decodes
  to a view of the node, and `size_of_allocation` reads its length back;
* **`MemTrieNodeId.newImpl_view_round_trip`**: the node `new_impl` writes is viewed with its
  kind, extension, value and children (by `get` and by `iter`), and `size_of_allocation` gives
  the size allocated.
-/

set_option autoImplicit false

namespace Unc

/-! ## Node inputs -/

/-- `CryptoHash`: 32 bytes. -/
structure CryptoHash where
  bytes : List UInt8
  length_eq : bytes.length = 32

/-- `CryptoHash::default()`. -/
def CryptoHash.default : CryptoHash := ⟨List.replicate 32 0, List.length_replicate⟩

/-- Borsh of a `CryptoHash`, a `[u8; 32]`. -/
def CryptoHash.deserialize : Borsh.Reader CryptoHash := do
  let bytes ← Borsh.readBytes 32
  Borsh.lift (if h : bytes.length = 32 then some ⟨bytes, h⟩ else none)

/-- `ValueRef`: a value's length and hash. -/
structure ValueRef where
  length : Nat
  hash : CryptoHash

/-- `FlatStateValue`. -/
inductive FlatStateValue
  | ref (valueRef : ValueRef)
  | inlined (value : List UInt8)

/-- `FlatStateValue::value_len`. -/
def FlatStateValue.valueLen : FlatStateValue → Nat
  | .ref valueRef => valueRef.length
  | .inlined value => value.length

/-- `MemTrieNodeId`: where a node's allocation starts. -/
structure MemTrieNodeId where
  pos : ArenaPos

/-- `InputMemTrieNode`; the children are a `[Option<MemTrieNodeId>; 16]`. -/
inductive InputMemTrieNode
  | leaf (value : FlatStateValue) (extension : List UInt8)
  | extension (extension : List UInt8) (child : MemTrieNodeId)
  | branch (children : List.Vector (Option MemTrieNodeId) 16)
  | branchWithValue (children : List.Vector (Option MemTrieNodeId) 16) (value : FlatStateValue)

/-- Borsh of an `ArenaPos`: two `u32`s. -/
def ArenaPos.deserialize : Borsh.Reader ArenaPos := do
  let chunk ← Borsh.readLE 4
  let pos ← Borsh.readLE 4
  pure ⟨chunk, pos⟩

/-! ## Headers -/

/-- `NodeKind`, a borsh enum of one tag byte. -/
inductive NodeKind
  | leaf
  | extension
  | branch
  | branchWithValue
  deriving DecidableEq

def NodeKind.tag : NodeKind → Nat
  | .leaf => 0
  | .extension => 1
  | .branch => 2
  | .branchWithValue => 3

def NodeKind.ofTag : Nat → Option NodeKind
  | 0 => some .leaf
  | 1 => some .extension
  | 2 => some .branch
  | 3 => some .branchWithValue
  | _ => none

/-- `CommonHeader`. -/
structure CommonHeader where
  refcount : Nat
  kind : NodeKind

namespace CommonHeader

def serializedSize : Nat := 4 + 1

def serialize (h : CommonHeader) : List UInt8 :=
  LittleEndian.toBytes 4 h.refcount ++ LittleEndian.toBytes 1 h.kind.tag

def deserialize : Borsh.Reader CommonHeader := do
  let refcount ← Borsh.readLE 4
  let tag ← Borsh.readLE 1
  let kind ← Borsh.lift (NodeKind.ofTag tag)
  pure ⟨refcount, kind⟩

end CommonHeader

/-- `NonLeafHeader`. -/
structure NonLeafHeader where
  hash : CryptoHash
  memoryUsage : Nat

namespace NonLeafHeader

/-- `NonLeafHeader::new`: the hash is left as the default when it is not given. -/
def new (memoryUsage : Nat) (nodeHash : Option CryptoHash) : NonLeafHeader :=
  ⟨nodeHash.getD CryptoHash.default, memoryUsage⟩

def serializedSize : Nat := 32 + 8

def serialize (h : NonLeafHeader) : List UInt8 :=
  h.hash.bytes ++ LittleEndian.toBytes 8 h.memoryUsage

def deserialize : Borsh.Reader NonLeafHeader := do
  let hash ← CryptoHash.deserialize
  let memoryUsage ← Borsh.readLE 8
  pure ⟨hash, memoryUsage⟩

end NonLeafHeader

/-! ## Flexible parts -/

/-- `ArenaSlice`: a region of the arena to read. -/
structure ArenaSlice where
  pos : ArenaPos
  len : Nat

/-- `ArenaSlice::raw_slice`. -/
def ArenaSlice.rawSlice (s : ArenaSlice) (m : ArenaMemory) : Option (List UInt8) :=
  m.rawSlice s.pos s.len

/-- `ArenaSlice::read_ptr_at`: `raw_slice()[pos..][..8]` read as an `ArenaPos`. -/
def ArenaSlice.readPtrAt (s : ArenaSlice) (m : ArenaMemory) (pos : Nat) : Option ArenaPos := do
  let bytes ← s.rawSlice m
  if pos + 8 ≤ bytes.length then some (ArenaPos.ofBytes ((bytes.drop pos).take 8)) else none

/-- `target.raw_slice_mut().copy_from_slice(src)`: the lengths must agree. -/
def ArenaSliceMut.copyFromSlice (target : ArenaSliceMut) (m : ArenaMemory) (src : List UInt8) :
    Option ArenaMemory :=
  if src.length = target.len then m.writeSlice target.pos src else none

/-- `ArenaSliceMut::write_pos_at`. -/
def ArenaSliceMut.writePosAt (target : ArenaSliceMut) (m : ArenaMemory) (offset : Nat)
    (p : ArenaPos) : Option ArenaMemory :=
  if offset + 8 ≤ target.len then do
    let pos ← target.pos.offsetBy offset
    m.writeSlice pos p.toBytes
  else none

/-- `EncodedExtensionHeader`. -/
structure EncodedExtensionHeader where
  length : Nat

namespace EncodedExtensionHeader

def serializedSize : Nat := 2

def serialize (h : EncodedExtensionHeader) : List UInt8 := LittleEndian.toBytes 2 h.length

def deserialize : Borsh.Reader EncodedExtensionHeader := do
  let length ← Borsh.readLE 2
  pure ⟨length⟩

/-- `from_input`: `extension.len() as u16`. -/
def fromInput (extension : List UInt8) : EncodedExtensionHeader := ⟨extension.length % 2 ^ 16⟩

def flexibleDataLength (h : EncodedExtensionHeader) : Nat := h.length

def encodeFlexibleData (extension : List UInt8) (target : ArenaSliceMut) (m : ArenaMemory) :
    Option ArenaMemory :=
  target.copyFromSlice m extension

def decodeFlexibleData (source : ArenaSlice) : ArenaSlice := source

end EncodedExtensionHeader

/-- `ValueView`. -/
inductive ValueView
  | ref (length : Nat) (hash : CryptoHash)
  | inlined (data : ArenaSlice)

/-- `EncodedValueHeader`: the length, with the top bit set when the value is inlined. -/
structure EncodedValueHeader where
  lengthAndInlined : Nat

namespace EncodedValueHeader

def inlinedMask : Nat := 0x80000000

def serializedSize : Nat := 4

def serialize (h : EncodedValueHeader) : List UInt8 := LittleEndian.toBytes 4 h.lengthAndInlined

def deserialize : Borsh.Reader EncodedValueHeader := do
  let lengthAndInlined ← Borsh.readLE 4
  pure ⟨lengthAndInlined⟩

/-- `decode`; `0x7FFFFFFF` is `!INLINED_MASK` as a `u32`. -/
def decode (h : EncodedValueHeader) : Nat × Bool :=
  (h.lengthAndInlined &&& 0x7FFFFFFF, h.lengthAndInlined &&& inlinedMask != 0)

/-- `from_input`; the bound on a reference's length is only a `debug_assert!`. -/
def fromInput : FlatStateValue → Option EncodedValueHeader
  | .ref valueRef => some ⟨valueRef.length⟩
  | .inlined v => if v.length < inlinedMask then some ⟨inlinedMask ||| v.length⟩ else none

def flexibleDataLength (h : EncodedValueHeader) : Nat :=
  if h.decode.2 then h.decode.1 else 32

def encodeFlexibleData (h : EncodedValueHeader) (value : FlatStateValue) (target : ArenaSliceMut)
    (m : ArenaMemory) : Option ArenaMemory :=
  match value with
  | .ref valueRef =>
    if !h.decode.2 ∧ h.decode.1 = valueRef.length then
      target.copyFromSlice m valueRef.hash.bytes
    else none
  | .inlined v =>
    if h.decode.2 ∧ h.decode.1 = v.length then target.copyFromSlice m v else none

def decodeFlexibleData (h : EncodedValueHeader) (source : ArenaSlice) (m : ArenaMemory) :
    Option ValueView :=
  if h.decode.2 then some (.inlined source)
  else do
    let bytes ← source.rawSlice m
    let hash ← CryptoHash.deserialize.run bytes
    pure (.ref h.decode.1 hash)

end EncodedValueHeader

/-- `ChildrenView`. -/
structure ChildrenView where
  mask : Nat
  children : ArenaSlice

/-- `EncodedChildrenHeader`: bit `i` of the mask is set when child `i` is present. -/
structure EncodedChildrenHeader where
  mask : Nat

namespace EncodedChildrenHeader

def serializedSize : Nat := 2

def serialize (h : EncodedChildrenHeader) : List UInt8 := LittleEndian.toBytes 2 h.mask

def deserialize : Borsh.Reader EncodedChildrenHeader := do
  let mask ← Borsh.readLE 2
  pure ⟨mask⟩

def fromInput (children : List.Vector (Option MemTrieNodeId) 16) : EncodedChildrenHeader :=
  ⟨Bitmap.ofPred (fun i => (children.toList.getD i none).isSome) 16⟩

def flexibleDataLength (h : EncodedChildrenHeader) : Nat := Bitmap.countOnes 16 h.mask * 8

/-- The loop of `encode_flexible_data` over `children.into_iter().enumerate()`, from child `i`;
`j` is where the next present child's position goes. -/
def encodeChildren (h : EncodedChildrenHeader) (target : ArenaSliceMut) :
    List (Option MemTrieNodeId) → Nat → Nat → ArenaMemory → Option ArenaMemory
  | [], _, _, m => some m
  | child :: rest, i, j, m =>
    if h.mask &&& 1 <<< i ≠ 0 then do
      let child ← child
      let m ← target.writePosAt m j child.pos
      h.encodeChildren target rest (i + 1) (j + 8) m
    else h.encodeChildren target rest (i + 1) j m

def encodeFlexibleData (h : EncodedChildrenHeader) (children : List.Vector (Option MemTrieNodeId) 16)
    (target : ArenaSliceMut) (m : ArenaMemory) : Option ArenaMemory :=
  h.encodeChildren target children.toList 0 0 m

def decodeFlexibleData (h : EncodedChildrenHeader) (source : ArenaSlice) : ChildrenView :=
  ⟨h.mask, source⟩

end EncodedChildrenHeader

/-! ## Node headers -/

/-- `LeafHeader`. -/
structure LeafHeader where
  common : CommonHeader
  value : EncodedValueHeader
  extension : EncodedExtensionHeader

namespace LeafHeader

def serializedSize : Nat :=
  CommonHeader.serializedSize + EncodedValueHeader.serializedSize +
    EncodedExtensionHeader.serializedSize

def serialize (h : LeafHeader) : List UInt8 :=
  h.common.serialize ++ h.value.serialize ++ h.extension.serialize

def deserialize : Borsh.Reader LeafHeader := do
  let common ← CommonHeader.deserialize
  let value ← EncodedValueHeader.deserialize
  let extension ← EncodedExtensionHeader.deserialize
  pure ⟨common, value, extension⟩

end LeafHeader

/-- `ExtensionHeader`. -/
structure ExtensionHeader where
  common : CommonHeader
  nonleaf : NonLeafHeader
  child : ArenaPos
  extension : EncodedExtensionHeader

namespace ExtensionHeader

def serializedSize : Nat :=
  CommonHeader.serializedSize + NonLeafHeader.serializedSize + 8 +
    EncodedExtensionHeader.serializedSize

def serialize (h : ExtensionHeader) : List UInt8 :=
  h.common.serialize ++ h.nonleaf.serialize ++ h.child.toBytes ++ h.extension.serialize

def deserialize : Borsh.Reader ExtensionHeader := do
  let common ← CommonHeader.deserialize
  let nonleaf ← NonLeafHeader.deserialize
  let child ← ArenaPos.deserialize
  let extension ← EncodedExtensionHeader.deserialize
  pure ⟨common, nonleaf, child, extension⟩

end ExtensionHeader

/-- `BranchHeader`. -/
structure BranchHeader where
  common : CommonHeader
  nonleaf : NonLeafHeader
  children : EncodedChildrenHeader

namespace BranchHeader

def serializedSize : Nat :=
  CommonHeader.serializedSize + NonLeafHeader.serializedSize +
    EncodedChildrenHeader.serializedSize

def serialize (h : BranchHeader) : List UInt8 :=
  h.common.serialize ++ h.nonleaf.serialize ++ h.children.serialize

def deserialize : Borsh.Reader BranchHeader := do
  let common ← CommonHeader.deserialize
  let nonleaf ← NonLeafHeader.deserialize
  let children ← EncodedChildrenHeader.deserialize
  pure ⟨common, nonleaf, children⟩

end BranchHeader

/-- `BranchWithValueHeader`. -/
structure BranchWithValueHeader where
  common : CommonHeader
  nonleaf : NonLeafHeader
  value : EncodedValueHeader
  children : EncodedChildrenHeader

namespace BranchWithValueHeader

def serializedSize : Nat :=
  CommonHeader.serializedSize + NonLeafHeader.serializedSize +
    EncodedValueHeader.serializedSize + EncodedChildrenHeader.serializedSize

def serialize (h : BranchWithValueHeader) : List UInt8 :=
  h.common.serialize ++ h.nonleaf.serialize ++ h.value.serialize ++ h.children.serialize

def deserialize : Borsh.Reader BranchWithValueHeader := do
  let common ← CommonHeader.deserialize
  let nonleaf ← NonLeafHeader.deserialize
  let value ← EncodedValueHeader.deserialize
  let children ← EncodedChildrenHeader.deserialize
  pure ⟨common, nonleaf, value, children⟩

end BranchWithValueHeader

/-! ## Encoder and decoder -/

/-- `RawEncoder`: the allocated region and how much of it is written. -/
structure RawEncoder where
  data : ArenaSliceMut
  pos : Nat

namespace RawEncoder

/-- `RawEncoder::new`: allocates `n` bytes. -/
def new (ar : Arena) (n : Nat) : Option (Arena × RawEncoder) := do
  let (ar, data) ← ar.alloc n
  pure (ar, ⟨data, 0⟩)

/-- `Write::write`: `data.raw_slice_mut()[pos..pos + buf.len()].copy_from_slice(buf)`. -/
def write (e : RawEncoder) (m : ArenaMemory) (buf : List UInt8) :
    Option (RawEncoder × ArenaMemory) :=
  if m.inBounds e.data.pos e.data.len ∧ e.pos + buf.length ≤ e.data.len then
    (m.writeSlice ⟨e.data.pos.chunk, e.data.pos.pos + e.pos⟩ buf).map
      ({ e with pos := e.pos + buf.length }, ·)
  else none

/-- `encode`: borsh writes the header's bytes. -/
def encode (e : RawEncoder) (m : ArenaMemory) (bytes : List UInt8) :
    Option (RawEncoder × ArenaMemory) :=
  e.write m bytes

/-- `encode_flexible`: the header's encoder writes into `subslice_mut(pos, length)`. -/
def encodeFlexible (e : RawEncoder) (m : ArenaMemory) (length : Nat)
    (encodeFlexibleData : ArenaSliceMut → ArenaMemory → Option ArenaMemory) :
    Option (RawEncoder × ArenaMemory) :=
  if e.pos + length ≤ e.data.len then do
    let pos ← e.data.pos.offsetBy e.pos
    let m ← encodeFlexibleData ⟨pos, length⟩ m
    pure ({ e with pos := e.pos + length }, m)
  else none

/-- `finish`: `assert_eq!(self.pos, self.data.len())`. -/
def finish (e : RawEncoder) : Option ArenaSliceMut :=
  if e.pos = e.data.len then some e.data else none

end RawEncoder

/-- `RawDecoder` (and `RawDecoderMut`): a node's position and how much of it is read. -/
structure RawDecoder where
  data : ArenaPos
  pos : Nat

namespace RawDecoder

/-- `data.slice(pos, len)`. -/
def slice (d : RawDecoder) (len : Nat) : Option ArenaSlice :=
  (d.data.offsetBy d.pos).map (⟨·, len⟩)

/-- `peek`: `try_from_slice` of the next `size` bytes. -/
def peek {α : Type} (d : RawDecoder) (m : ArenaMemory) (size : Nat)
    (deserialize : Borsh.Reader α) : Option α := do
  let s ← d.slice size
  let bytes ← s.rawSlice m
  deserialize.run bytes

def decode {α : Type} (d : RawDecoder) (m : ArenaMemory) (size : Nat)
    (deserialize : Borsh.Reader α) : Option (α × RawDecoder) := do
  let a ← d.peek m size deserialize
  pure (a, { d with pos := d.pos + size })

def decodeFlexible {V : Type} (d : RawDecoder) (length : Nat)
    (decodeFlexibleData : ArenaSlice → Option V) : Option (V × RawDecoder) := do
  let s ← d.slice length
  let v ← decodeFlexibleData s
  pure (v, { d with pos := d.pos + length })

/-- `RawDecoderMut::overwrite`. -/
def overwrite (d : RawDecoder) (m : ArenaMemory) (bytes : List UInt8) : Option ArenaMemory := do
  let pos ← d.data.offsetBy d.pos
  m.writeSlice pos bytes

end RawDecoder

/-! ## Views -/

/-- `MemTrieNodeView`; a pointer is the position it points to. -/
inductive MemTrieNodeView
  | leaf (extension : ArenaSlice) (value : ValueView)
  | extension (hash : CryptoHash) (memoryUsage : Nat) (extension : ArenaSlice) (child : ArenaPos)
  | branch (hash : CryptoHash) (memoryUsage : Nat) (children : ChildrenView)
  | branchWithValue (hash : CryptoHash) (memoryUsage : Nat) (children : ChildrenView)
      (value : ValueView)

/-- `ValueView::to_flat_value`. -/
def ValueView.toFlatValue (v : ValueView) (m : ArenaMemory) : Option FlatStateValue :=
  match v with
  | .ref length hash => some (.ref ⟨length, hash⟩)
  | .inlined data => (data.rawSlice m).map .inlined

/-- `ValueView::len`. -/
def ValueView.len : ValueView → Nat
  | .ref length _ => length
  | .inlined data => data.len

/-- `ChildrenView::get`: child `i` is at the rank of bit `i` among the mask's bits. -/
def ChildrenView.get (v : ChildrenView) (m : ArenaMemory) (i : Nat) : Option (Option ArenaPos) :=
  if i < 16 then
    let bit := 1 <<< i
    if v.mask &&& bit = 0 then some none
    else (v.children.readPtrAt m (Bitmap.countOnes 16 (v.mask &&& bit - 1) * 8)).map some
  else none

/-- `ChildrenView::iter`, read to the end. -/
def ChildrenView.iter (v : ChildrenView) (m : ArenaMemory) : Option (List ArenaPos) :=
  (List.range (Bitmap.countOnes 16 v.mask)).mapM fun i => v.children.readPtrAt m (i * 8)

/-- What a children view shows of an input's children: `get(i)` gives child `i`, and `iter()`
lists the present children in index order. -/
def ChildrenView.Shows (v : ChildrenView) (m : ArenaMemory)
    (children : List.Vector (Option MemTrieNodeId) 16) : Prop :=
  (∀ i : Fin 16, v.get m i = some ((children.get i).map (·.pos))) ∧
    v.iter m = some ((children.toList.filterMap id).map (·.pos))

/-- What a view shows of an input node, read in memory `m`: the same kind, the extension's
bytes, the value, and the children by `get` and by `iter`. -/
def MemTrieNodeView.Shows (m : ArenaMemory) : MemTrieNodeView → InputMemTrieNode → Prop
  | .leaf ext value, .leaf value' ext' =>
    ext.rawSlice m = some ext' ∧ value.toFlatValue m = some value'
  | .extension _ _ ext child, .extension ext' child' =>
    ext.rawSlice m = some ext' ∧ child = child'.pos
  | .branch _ _ children, .branch children' => children.Shows m children'
  | .branchWithValue _ _ children value, .branchWithValue children' value' =>
    children.Shows m children' ∧ value.toFlatValue m = some value'
  | _, _ => False

/-- `TRIE_COSTS`. -/
structure TrieCosts where
  byteOfKey : Nat
  byteOfValue : Nat
  nodeCost : Nat

def trieCosts : TrieCosts := ⟨2, 1, 50⟩

/-- `MemTrieNodeView::memory_usage`: a leaf's is computed, the others' are stored. -/
def MemTrieNodeView.memoryUsage : MemTrieNodeView → Option Nat
  | .leaf ext value => do
    let keyBytes ← mulU64 ext.len trieCosts.byteOfKey
    let valueBytes ← mulU64 value.len trieCosts.byteOfValue
    let u ← addU64 trieCosts.nodeCost keyBytes
    let u ← addU64 u valueBytes
    addU64 u trieCosts.nodeCost
  | .extension _ memoryUsage _ _ => some memoryUsage
  | .branch _ memoryUsage _ => some memoryUsage
  | .branchWithValue _ memoryUsage _ _ => some memoryUsage

namespace MemTrieNodePtr

/-- `view_impl`. -/
def viewImpl (m : ArenaMemory) (pos : ArenaPos) : Option MemTrieNodeView := do
  let decoder : RawDecoder := ⟨pos, 0⟩
  let common ← decoder.peek m CommonHeader.serializedSize CommonHeader.deserialize
  match common.kind with
  | .leaf =>
    let (header, decoder) ← decoder.decode m LeafHeader.serializedSize LeafHeader.deserialize
    let (extension, decoder) ← decoder.decodeFlexible header.extension.flexibleDataLength
      (some ∘ EncodedExtensionHeader.decodeFlexibleData)
    let (value, _) ← decoder.decodeFlexible header.value.flexibleDataLength
      (header.value.decodeFlexibleData · m)
    pure (.leaf extension value)
  | .extension =>
    let (header, decoder) ←
      decoder.decode m ExtensionHeader.serializedSize ExtensionHeader.deserialize
    let (extension, _) ← decoder.decodeFlexible header.extension.flexibleDataLength
      (some ∘ EncodedExtensionHeader.decodeFlexibleData)
    pure (.extension header.nonleaf.hash header.nonleaf.memoryUsage extension header.child)
  | .branch =>
    let (header, decoder) ← decoder.decode m BranchHeader.serializedSize BranchHeader.deserialize
    let (children, _) ← decoder.decodeFlexible header.children.flexibleDataLength
      (some ∘ header.children.decodeFlexibleData)
    pure (.branch header.nonleaf.hash header.nonleaf.memoryUsage children)
  | .branchWithValue =>
    let (header, decoder) ←
      decoder.decode m BranchWithValueHeader.serializedSize BranchWithValueHeader.deserialize
    let (children, decoder) ← decoder.decodeFlexible header.children.flexibleDataLength
      (some ∘ header.children.decodeFlexibleData)
    let (value, _) ← decoder.decodeFlexible header.value.flexibleDataLength
      (header.value.decodeFlexibleData · m)
    pure (.branchWithValue header.nonleaf.hash header.nonleaf.memoryUsage children value)

/-- `size_of_allocation`. -/
def sizeOfAllocation (m : ArenaMemory) (pos : ArenaPos) : Option Nat := do
  let decoder : RawDecoder := ⟨pos, 0⟩
  let common ← decoder.peek m CommonHeader.serializedSize CommonHeader.deserialize
  match common.kind with
  | .leaf =>
    let (header, _) ← decoder.decode m LeafHeader.serializedSize LeafHeader.deserialize
    pure (LeafHeader.serializedSize + header.extension.flexibleDataLength +
      header.value.flexibleDataLength)
  | .extension =>
    let (header, _) ← decoder.decode m ExtensionHeader.serializedSize ExtensionHeader.deserialize
    pure (ExtensionHeader.serializedSize + header.extension.flexibleDataLength)
  | .branch =>
    let (header, _) ← decoder.decode m BranchHeader.serializedSize BranchHeader.deserialize
    pure (BranchHeader.serializedSize + header.children.flexibleDataLength)
  | .branchWithValue =>
    let (header, _) ←
      decoder.decode m BranchWithValueHeader.serializedSize BranchWithValueHeader.deserialize
    pure (BranchWithValueHeader.serializedSize + header.children.flexibleDataLength +
      header.value.flexibleDataLength)

end MemTrieNodePtr

/-! ## Creating a node -/

namespace MemTrieNodeId

/-- `add_ref`: the refcount in the common header goes up by one; it returns the new refcount. -/
def addRef (id : MemTrieNodeId) (ar : Arena) : Option (Arena × Nat) := do
  let decoder : RawDecoder := ⟨id.pos, 0⟩
  let header ← decoder.peek ar.memory CommonHeader.serializedSize CommonHeader.deserialize
  let newRefcount ← if header.refcount + 1 < 2 ^ 32 then some (header.refcount + 1) else none
  let m ← decoder.overwrite ar.memory { header with refcount := newRefcount }.serialize
  pure ({ ar with memory := m }, newRefcount)

/-- `child.as_ptr(arena.memory()).view().memory_usage()`. -/
def memoryUsage (id : MemTrieNodeId) (m : ArenaMemory) : Option Nat := do
  let view ← MemTrieNodePtr.viewImpl m id.pos
  view.memoryUsage

end MemTrieNodeId

namespace InputMemTrieNode

/-- The first loop of `new_impl`: `add_ref` on every child. -/
def addChildRefs (ar : Arena) : InputMemTrieNode → Option Arena
  | .leaf _ _ => some ar
  | .extension _ child => (child.addRef ar).map (·.1)
  | .branch children | .branchWithValue children _ =>
    children.toList.foldlM
      (fun ar child => match child with
        | some child => (child.addRef ar).map (·.1)
        | none => some ar) ar

/-- `memory_usage += child...memory_usage()` over the present children. -/
def childrenMemoryUsage (m : ArenaMemory) (children : List (Option MemTrieNodeId)) (init : Nat) :
    Option Nat :=
  children.foldlM
    (fun memoryUsage child => match child with
      | some child => do
        let u ← child.memoryUsage m
        addU64 memoryUsage u
      | none => some memoryUsage) init

/-- The memory usage `new_impl` stores in a non-leaf node. -/
def memoryUsage (m : ArenaMemory) : InputMemTrieNode → Option Nat
  | .leaf _ _ => some 0
  | .extension ext child => do
    let keyBytes ← mulU64 ext.length trieCosts.byteOfKey
    let u ← addU64 trieCosts.nodeCost keyBytes
    let c ← child.memoryUsage m
    addU64 u c
  | .branch children => childrenMemoryUsage m children.toList trieCosts.nodeCost
  | .branchWithValue children value => do
    let valueLen := match value with
      | .ref valueRef => valueRef.length
      | .inlined v => v.length
    let valueBytes ← mulU64 valueLen trieCosts.byteOfValue
    let u ← addU64 trieCosts.nodeCost valueBytes
    let u ← addU64 u trieCosts.nodeCost
    childrenMemoryUsage m children.toList u

/-- The last part of `new_impl`: allocate the node's region and encode it there. -/
def encode (ar : Arena) (memoryUsage : Nat) (nodeHash : Option CryptoHash) :
    InputMemTrieNode → Option (Arena × ArenaSliceMut)
  | .leaf value ext => do
    let extensionHeader := EncodedExtensionHeader.fromInput ext
    let valueHeader ← EncodedValueHeader.fromInput value
    let (ar, data) ← RawEncoder.new ar (LeafHeader.serializedSize +
      extensionHeader.flexibleDataLength + valueHeader.flexibleDataLength)
    let (data, m) ← data.encode ar.memory
      (LeafHeader.serialize ⟨⟨0, .leaf⟩, valueHeader, extensionHeader⟩)
    let (data, m) ← data.encodeFlexible m extensionHeader.flexibleDataLength
      (EncodedExtensionHeader.encodeFlexibleData ext)
    let (data, m) ← data.encodeFlexible m valueHeader.flexibleDataLength
      (valueHeader.encodeFlexibleData value)
    let data ← data.finish
    pure ({ ar with memory := m }, data)
  | .extension ext child => do
    let extensionHeader := EncodedExtensionHeader.fromInput ext
    let (ar, data) ← RawEncoder.new ar
      (ExtensionHeader.serializedSize + extensionHeader.flexibleDataLength)
    let (data, m) ← data.encode ar.memory (ExtensionHeader.serialize
      ⟨⟨0, .extension⟩, NonLeafHeader.new memoryUsage nodeHash, child.pos, extensionHeader⟩)
    let (data, m) ← data.encodeFlexible m extensionHeader.flexibleDataLength
      (EncodedExtensionHeader.encodeFlexibleData ext)
    let data ← data.finish
    pure ({ ar with memory := m }, data)
  | .branch children => do
    let childrenHeader := EncodedChildrenHeader.fromInput children
    let (ar, data) ← RawEncoder.new ar
      (BranchHeader.serializedSize + childrenHeader.flexibleDataLength)
    let (data, m) ← data.encode ar.memory (BranchHeader.serialize
      ⟨⟨0, .branch⟩, NonLeafHeader.new memoryUsage nodeHash, childrenHeader⟩)
    let (data, m) ← data.encodeFlexible m childrenHeader.flexibleDataLength
      (childrenHeader.encodeFlexibleData children)
    let data ← data.finish
    pure ({ ar with memory := m }, data)
  | .branchWithValue children value => do
    let childrenHeader := EncodedChildrenHeader.fromInput children
    let valueHeader ← EncodedValueHeader.fromInput value
    let (ar, data) ← RawEncoder.new ar (BranchWithValueHeader.serializedSize +
      childrenHeader.flexibleDataLength + valueHeader.flexibleDataLength)
    let (data, m) ← data.encode ar.memory (BranchWithValueHeader.serialize
      ⟨⟨0, .branchWithValue⟩, NonLeafHeader.new memoryUsage nodeHash, valueHeader,
        childrenHeader⟩)
    let (data, m) ← data.encodeFlexible m childrenHeader.flexibleDataLength
      (childrenHeader.encodeFlexibleData children)
    let (data, m) ← data.encodeFlexible m valueHeader.flexibleDataLength
      (valueHeader.encodeFlexibleData value)
    let data ← data.finish
    pure ({ ar with memory := m }, data)

end InputMemTrieNode

/-- `MemTrieNodeId::new_impl`. -/
def MemTrieNodeId.newImpl (ar : Arena) (node : InputMemTrieNode) (nodeHash : Option CryptoHash) :
    Option (Arena × MemTrieNodeId) := do
  let ar ← node.addChildRefs ar
  let memoryUsage ← node.memoryUsage ar.memory
  let (ar, data) ← node.encode ar memoryUsage nodeHash
  pure (ar, ⟨data.pos⟩)

/-! ## Headers read back -/

theorem NodeKind.ofTag_tag (k : NodeKind) : NodeKind.ofTag (k.tag % 256) = some k := by
  cases k <;> rfl

theorem CryptoHash.deserialize_append (h : CryptoHash) (rest : List UInt8) :
    CryptoHash.deserialize (h.bytes ++ rest) = some (h, rest) := by
  simp [CryptoHash.deserialize, Borsh.readBytes_append h.length_eq, h.length_eq]

theorem ArenaPos.deserialize_append {p : ArenaPos} (hc : p.chunk < 2 ^ 32) (hp : p.pos < 2 ^ 32)
    (rest : List UInt8) : ArenaPos.deserialize (p.toBytes ++ rest) = some (p, rest) := by
  have hc' : p.chunk < 4294967296 := hc
  have hp' : p.pos < 4294967296 := hp
  simp [ArenaPos.deserialize, ArenaPos.toBytes, Nat.mod_eq_of_lt hc', Nat.mod_eq_of_lt hp']

theorem CommonHeader.deserialize_append {h : CommonHeader} (hr : h.refcount < 2 ^ 32)
    (rest : List UInt8) : CommonHeader.deserialize (h.serialize ++ rest) = some (h, rest) := by
  have hr' : h.refcount < 4294967296 := hr
  simp [deserialize, serialize, NodeKind.ofTag_tag, Nat.mod_eq_of_lt hr']

theorem NonLeafHeader.deserialize_append {h : NonLeafHeader} (hu : h.memoryUsage < 2 ^ 64)
    (rest : List UInt8) : NonLeafHeader.deserialize (h.serialize ++ rest) = some (h, rest) := by
  have hu' : h.memoryUsage < 18446744073709551616 := hu
  simp [deserialize, serialize, CryptoHash.deserialize_append, Nat.mod_eq_of_lt hu']

theorem EncodedExtensionHeader.deserialize_append {h : EncodedExtensionHeader}
    (hl : h.length < 2 ^ 16) (rest : List UInt8) :
    EncodedExtensionHeader.deserialize (h.serialize ++ rest) = some (h, rest) := by
  have hl' : h.length < 65536 := hl
  simp [deserialize, serialize, Nat.mod_eq_of_lt hl']

theorem EncodedValueHeader.deserialize_append {h : EncodedValueHeader}
    (hl : h.lengthAndInlined < 2 ^ 32) (rest : List UInt8) :
    EncodedValueHeader.deserialize (h.serialize ++ rest) = some (h, rest) := by
  have hl' : h.lengthAndInlined < 4294967296 := hl
  simp [deserialize, serialize, Nat.mod_eq_of_lt hl']

theorem EncodedChildrenHeader.deserialize_append {h : EncodedChildrenHeader}
    (hm : h.mask < 2 ^ 16) (rest : List UInt8) :
    EncodedChildrenHeader.deserialize (h.serialize ++ rest) = some (h, rest) := by
  have hm' : h.mask < 65536 := hm
  simp [deserialize, serialize, Nat.mod_eq_of_lt hm']

theorem LeafHeader.deserialize_append {h : LeafHeader} (hc : h.common.refcount < 2 ^ 32)
    (hv : h.value.lengthAndInlined < 2 ^ 32) (he : h.extension.length < 2 ^ 16)
    (rest : List UInt8) : LeafHeader.deserialize (h.serialize ++ rest) = some (h, rest) := by
  simp [deserialize, serialize, CommonHeader.deserialize_append hc,
    EncodedValueHeader.deserialize_append hv, EncodedExtensionHeader.deserialize_append he]

theorem ExtensionHeader.deserialize_append {h : ExtensionHeader}
    (hc : h.common.refcount < 2 ^ 32) (hu : h.nonleaf.memoryUsage < 2 ^ 64)
    (hchunk : h.child.chunk < 2 ^ 32) (hpos : h.child.pos < 2 ^ 32)
    (he : h.extension.length < 2 ^ 16) (rest : List UInt8) :
    ExtensionHeader.deserialize (h.serialize ++ rest) = some (h, rest) := by
  simp [deserialize, serialize, CommonHeader.deserialize_append hc,
    NonLeafHeader.deserialize_append hu, ArenaPos.deserialize_append hchunk hpos,
    EncodedExtensionHeader.deserialize_append he]

theorem BranchHeader.deserialize_append {h : BranchHeader} (hc : h.common.refcount < 2 ^ 32)
    (hu : h.nonleaf.memoryUsage < 2 ^ 64) (hm : h.children.mask < 2 ^ 16) (rest : List UInt8) :
    BranchHeader.deserialize (h.serialize ++ rest) = some (h, rest) := by
  simp [deserialize, serialize, CommonHeader.deserialize_append hc,
    NonLeafHeader.deserialize_append hu, EncodedChildrenHeader.deserialize_append hm]

theorem BranchWithValueHeader.deserialize_append {h : BranchWithValueHeader}
    (hc : h.common.refcount < 2 ^ 32) (hu : h.nonleaf.memoryUsage < 2 ^ 64)
    (hv : h.value.lengthAndInlined < 2 ^ 32) (hm : h.children.mask < 2 ^ 16)
    (rest : List UInt8) :
    BranchWithValueHeader.deserialize (h.serialize ++ rest) = some (h, rest) := by
  simp [deserialize, serialize, CommonHeader.deserialize_append hc,
    NonLeafHeader.deserialize_append hu, EncodedValueHeader.deserialize_append hv,
    EncodedChildrenHeader.deserialize_append hm]

theorem CryptoHash.deserialize_run (h : CryptoHash) : CryptoHash.deserialize.run h.bytes = some h :=
  Borsh.run_eq_some (by simpa using CryptoHash.deserialize_append h [])

/-! ## Flexible parts write and read back -/

/-- The bytes a value's flexible part holds: a reference's hash, or the inlined bytes. -/
def FlatStateValue.flexibleData : FlatStateValue → List UInt8
  | .ref valueRef => valueRef.hash.bytes
  | .inlined value => value

/-- The positions of the present children in index order: a branch's flexible part. -/
def childrenData (children : List (Option MemTrieNodeId)) : List UInt8 :=
  (children.filterMap id).flatMap (·.pos.toBytes)

/-- An `ArenaPos` whose fields fit in their `u32`s. -/
def ArenaPos.IsU32 (p : ArenaPos) : Prop := p.chunk < 2 ^ 32 ∧ p.pos < 2 ^ 32

theorem ArenaSliceMut.writePosAt_eq_some {target : ArenaSliceMut} {m m' : ArenaMemory} {j : Nat}
    {p : ArenaPos} (h : target.writePosAt m j p = some m') :
    m.writeSlice ⟨target.pos.chunk, target.pos.pos + j⟩ p.toBytes = some m' := by
  unfold ArenaSliceMut.writePosAt ArenaPos.offsetBy at h
  split_ifs at h
  · simpa using h
  · simp at h

theorem ArenaSliceMut.copyFromSlice_eq_some {target : ArenaSliceMut} {m m' : ArenaMemory}
    {src : List UInt8} (h : target.copyFromSlice m src = some m') :
    m.writeSlice target.pos src = some m' := by
  unfold ArenaSliceMut.copyFromSlice at h
  split_ifs at h
  exact h

namespace EncodedValueHeader

theorem inlinedMask_or {l : Nat} (hl : l < 2 ^ 31) : inlinedMask ||| l = 2 ^ 31 + l := by
  rw [← Nat.mul_one (2 ^ 31), Nat.two_pow_add_eq_or_of_lt hl]
  rfl

theorem decode_inlined {l : Nat} (hl : l < 2 ^ 31) :
    (⟨inlinedMask ||| l⟩ : EncodedValueHeader).decode = (l, true) := by
  have hlen : (2 ^ 31 + l) &&& 0x7FFFFFFF = l := by
    rw [show (0x7FFFFFFF : Nat) = 2 ^ 31 - 1 from rfl, Nat.and_two_pow_sub_one_eq_mod]
    omega
  have hbit : (2 ^ 31 + l) &&& inlinedMask = 2 ^ 31 := by
    rw [show inlinedMask = 2 ^ 31 from rfl, Nat.and_two_pow, Nat.testBit_two_pow_add_eq,
      Nat.testBit_lt_two_pow hl]
    rfl
  rw [decode]
  dsimp only
  rw [inlinedMask_or hl, hlen, hbit]
  rfl

theorem decode_ref {l : Nat} (hl : l < 2 ^ 31) : (⟨l⟩ : EncodedValueHeader).decode = (l, false) := by
  have hlen : l &&& 0x7FFFFFFF = l := by
    rw [show (0x7FFFFFFF : Nat) = 2 ^ 31 - 1 from rfl, Nat.and_two_pow_sub_one_eq_mod,
      Nat.mod_eq_of_lt hl]
  have hbit : l &&& inlinedMask = 0 := by
    rw [show inlinedMask = 2 ^ 31 from rfl, Nat.and_two_pow, Nat.testBit_lt_two_pow hl]
    rfl
  simp [decode, hlen, hbit]

/-- The header of a value below `2 ^ 31` bytes: its flexible part is the value's data, written
and read back as the same value. -/
theorem fromInput_spec {value : FlatStateValue} (hv : value.valueLen < 2 ^ 31) :
    ∃ h, fromInput value = some h ∧ h.lengthAndInlined < 2 ^ 32 ∧
      h.flexibleDataLength = value.flexibleData.length ∧
      (∀ target m m', h.encodeFlexibleData value target m = some m' →
        m.writeSlice target.pos value.flexibleData = some m') ∧
      ∀ source m, source.rawSlice m = some value.flexibleData →
        ∃ v, h.decodeFlexibleData source m = some v ∧ v.toFlatValue m = some value := by
  cases value with
  | ref valueRef =>
    have hl : valueRef.length < 2 ^ 31 := hv
    have hd := decode_ref hl
    refine ⟨⟨valueRef.length⟩, rfl, show valueRef.length < 2 ^ 32 by omega, ?_, ?_, ?_⟩
    · simp [flexibleDataLength, hd, FlatStateValue.flexibleData, valueRef.hash.length_eq]
    · intro target m m' h
      simp only [encodeFlexibleData, hd] at h
      have h' : target.copyFromSlice m valueRef.hash.bytes = some m' := by simpa using h
      exact ArenaSliceMut.copyFromSlice_eq_some h'
    · intro source m hread
      refine ⟨.ref valueRef.length valueRef.hash, ?_, rfl⟩
      simp [decodeFlexibleData, hd, hread, FlatStateValue.flexibleData,
        CryptoHash.deserialize_run]
  | inlined v =>
    have hl : v.length < 2 ^ 31 := hv
    have hd := decode_inlined hl
    refine ⟨⟨inlinedMask ||| v.length⟩, if_pos hl, ?_, ?_, ?_, ?_⟩
    · show inlinedMask ||| v.length < 2 ^ 32
      rw [inlinedMask_or hl]
      omega
    · simp [flexibleDataLength, hd, FlatStateValue.flexibleData]
    · intro target m m' h
      simp only [encodeFlexibleData, hd] at h
      have h' : target.copyFromSlice m v = some m' := by simpa using h
      exact ArenaSliceMut.copyFromSlice_eq_some h'
    · intro source m hread
      refine ⟨.inlined source, by simp [decodeFlexibleData, hd], ?_⟩
      simp [ValueView.toFlatValue, hread, FlatStateValue.flexibleData]

end EncodedValueHeader

theorem EncodedExtensionHeader.flexibleDataLength_fromInput {ext : List UInt8}
    (he : ext.length < 2 ^ 16) : (fromInput ext).flexibleDataLength = ext.length :=
  Nat.mod_eq_of_lt he

namespace EncodedChildrenHeader

variable (children : List.Vector (Option MemTrieNodeId) 16)

theorem testBit_mask_fromInput (i : Nat) : (fromInput children).mask.testBit i =
    (decide (i < 16) && (children.toList.getD i none).isSome) :=
  Bitmap.testBit_ofPred _ _ _

theorem mask_fromInput_lt : (fromInput children).mask < 2 ^ 16 := Bitmap.ofPred_lt _ _

/-- The mask's bits below `i` count the present children below `i`. -/
theorem countOnes_mask_fromInput_mod {i : Nat} (hi : i ≤ 16) :
    Bitmap.countOnes 16 ((fromInput children).mask % 2 ^ i) =
      (children.toList.take i).countP Option.isSome := by
  rw [fromInput, Bitmap.ofPred_mod _ hi, Bitmap.countOnes_ofPred _ hi,
    Bitmap.countP_range_getD (by simpa using hi)]

theorem countOnes_mask_fromInput :
    Bitmap.countOnes 16 (fromInput children).mask = (children.toList.filterMap id).length := by
  have h := countOnes_mask_fromInput_mod children (le_refl 16)
  rw [Nat.mod_eq_of_lt (mask_fromInput_lt children),
    List.take_of_length_le (by simp)] at h
  rw [h, List.length_filterMap_eq_countP]
  rfl

theorem flexibleDataLength_fromInput :
    (fromInput children).flexibleDataLength = (childrenData children.toList).length := by
  rw [flexibleDataLength, countOnes_mask_fromInput, childrenData,
    Bitmap.length_flatMap_of_width (fun c : MemTrieNodeId => c.pos.toBytes)
      (fun c => ArenaPos.length_toBytes c.pos)]

/-- The loop writes the present children's positions one after another from offset `j`, when the
mask's bits from `i` on mark the present children. -/
theorem encodeChildren_eq_some {h : EncodedChildrenHeader} {target : ArenaSliceMut} :
    ∀ {rest : List (Option MemTrieNodeId)} {i j : Nat} {m m' : ArenaMemory},
      (∀ k (hk : k < rest.length), (h.mask &&& 1 <<< (i + k) ≠ 0 ↔ rest[k].isSome)) →
      m.inBounds ⟨target.pos.chunk, target.pos.pos + j⟩ (childrenData rest).length = true →
      h.encodeChildren target rest i j m = some m' →
      m.writeSlice ⟨target.pos.chunk, target.pos.pos + j⟩ (childrenData rest) = some m'
  | [], _, _, m, m', _, hb, henc => by
    obtain rfl : m = m' := by simpa [encodeChildren] using henc
    exact ArenaMemory.writeSlice_nil (by simpa [childrenData] using hb)
  | child :: rest, i, j, m, m', hbits, hb, henc => by
    have hhead : h.mask &&& 1 <<< i ≠ 0 ↔ child.isSome := hbits 0 (by simp)
    have hrest : ∀ k (hk : k < rest.length),
        (h.mask &&& 1 <<< (i + 1 + k) ≠ 0 ↔ rest[k].isSome) := fun k hk => by
      have hk' := hbits (k + 1) (by simp; omega)
      rwa [show i + (k + 1) = i + 1 + k by omega] at hk'
    unfold encodeChildren at henc
    split_ifs at henc with hbit
    · obtain ⟨c, rfl⟩ := Option.isSome_iff_exists.mp (hhead.mp hbit)
      obtain ⟨c', hc', henc⟩ := Option.bind_eq_some_iff.mp henc
      cases hc'
      obtain ⟨m₁, hwrite, hloop⟩ := Option.bind_eq_some_iff.mp henc
      have hwrite' := ArenaSliceMut.writePosAt_eq_some hwrite
      have hdata : childrenData (some c :: rest) = c.pos.toBytes ++ childrenData rest := by
        simp [childrenData]
      -- the rest goes right after this child's 8 bytes, still in bounds
      have hb₁ : m₁.inBounds ⟨target.pos.chunk, target.pos.pos + (j + 8)⟩
          (childrenData rest).length = true := by
        rw [ArenaMemory.inBounds_of_writeSlice hwrite']
        obtain ⟨n, hn, hle⟩ := ArenaMemory.inBounds_iff.mp hb
        rw [hdata, List.length_append, ArenaPos.length_toBytes] at hle
        exact ArenaMemory.inBounds_iff.mpr ⟨n, hn, by dsimp only at hle ⊢; omega⟩
      have ih := encodeChildren_eq_some hrest hb₁ hloop
      rw [hdata, ← ArenaMemory.writeSlice_append, hwrite', Option.bind_some]
      simpa [Nat.add_assoc] using ih
    · have hnone : child = none := by simpa using mt hhead.mpr hbit
      subst hnone
      have hdata : childrenData (none :: rest) = childrenData rest := by simp [childrenData]
      rw [hdata] at hb ⊢
      exact encodeChildren_eq_some hrest hb henc

variable {children}

/-- The children's flexible part is their packed positions. -/
theorem encodeFlexibleData_eq_some {target : ArenaSliceMut} {m m' : ArenaMemory}
    (hb : m.inBounds target.pos (childrenData children.toList).length = true)
    (h : (fromInput children).encodeFlexibleData children target m = some m') :
    m.writeSlice target.pos (childrenData children.toList) = some m' := by
  have hbits : ∀ k (hk : k < children.toList.length),
      ((fromInput children).mask &&& 1 <<< (0 + k) ≠ 0 ↔ children.toList[k].isSome) := by
    intro k hk
    rw [Nat.zero_add, Bitmap.and_shiftLeft_ne_zero, testBit_mask_fromInput]
    have hk' : k < 16 := by simpa using hk
    simp [hk', List.getD_eq_getElem?_getD]
  simpa using encodeChildren_eq_some hbits (by simpa using hb) h

end EncodedChildrenHeader

theorem List.Vector.getElem?_toList {α : Type} {n : Nat} (v : List.Vector α n) (i : Fin n) :
    v.toList[i.val]? = some (v.get i) := by
  rw [List.getElem?_eq_getElem (by simp)]
  rfl

/-- Reading the packed positions of the present children at rank `r` gives the `r`-th. -/
theorem ArenaSlice.readPtrAt_childrenData {source : ArenaSlice} {m : ArenaMemory}
    {l : List (Option MemTrieNodeId)} (hread : source.rawSlice m = some (childrenData l))
    (hfit : ∀ c ∈ l.filterMap id, c.pos.IsU32) {r : Nat} (hr : r < (l.filterMap id).length) :
    source.readPtrAt m (r * 8) = some (l.filterMap id)[r].pos := by
  have hlen : (childrenData l).length = (l.filterMap id).length * 8 :=
    Bitmap.length_flatMap_of_width (fun c : MemTrieNodeId => c.pos.toBytes)
      (fun c => ArenaPos.length_toBytes c.pos) _
  have hslot : ((childrenData l).drop (r * 8)).take 8 = (l.filterMap id)[r].pos.toBytes :=
    Bitmap.take_drop_flatMap (fun c : MemTrieNodeId => c.pos.toBytes)
      (fun c => ArenaPos.length_toBytes c.pos) hr
  obtain ⟨hc, hp⟩ := hfit _ (List.getElem_mem hr)
  have hroom : r * 8 + 8 ≤ (childrenData l).length := by
    rw [hlen]
    have := Nat.mul_le_mul_right 8 (Nat.succ_le_of_lt hr)
    rw [Nat.succ_mul] at this
    exact this
  simp only [ArenaSlice.readPtrAt, hread, Option.bind_eq_bind, Option.bind_some, if_pos hroom,
    hslot, ArenaMemory.ofBytes_toBytes hc hp]

/-- A children view over the packed positions shows the children it was built from. -/
theorem ChildrenView.shows_fromInput {children : List.Vector (Option MemTrieNodeId) 16}
    (hfit : ∀ c ∈ children.toList.filterMap id, c.pos.IsU32) {source : ArenaSlice}
    {m : ArenaMemory} (hread : source.rawSlice m = some (childrenData children.toList)) :
    ((EncodedChildrenHeader.fromInput children).decodeFlexibleData source).Shows m children := by
  constructor
  · intro i
    have hi : (i : Nat) < 16 := i.isLt
    have htest := EncodedChildrenHeader.testBit_mask_fromInput children i
    have hget := List.Vector.getElem?_toList children i
    simp only [List.getD_eq_getElem?_getD, hget, Option.getD_some, hi, decide_true,
      Bool.true_and] at htest
    cases hc : children.get i with
    | none =>
      -- bit `i` of the mask is clear
      have hbit : (EncodedChildrenHeader.fromInput children).mask &&& 1 <<< (i : Nat) = 0 := by
        by_contra hne
        have hset := (Bitmap.and_shiftLeft_ne_zero _ _).mp hne
        rw [htest, hc] at hset
        exact absurd hset (by simp)
      simp [ChildrenView.get, EncodedChildrenHeader.decodeFlexibleData, hi, hbit]
    | some c =>
      have hbit : (EncodedChildrenHeader.fromInput children).mask &&& 1 <<< (i : Nat) ≠ 0 := by
        rw [Bitmap.and_shiftLeft_ne_zero, htest, hc]
        rfl
      -- the child sits at the rank of bit `i`: the present children below it
      have hrank := Bitmap.getElem?_filterMap_rank (hget.trans (congrArg some hc))
      obtain ⟨hr, hrc⟩ := List.getElem?_eq_some_iff.mp hrank
      have hidx : Bitmap.countOnes 16
          ((EncodedChildrenHeader.fromInput children).mask &&& 1 <<< (i : Nat) - 1) =
            (children.toList.take i).countP Option.isSome := by
        rw [Bitmap.and_shiftLeft_sub_one,
          EncodedChildrenHeader.countOnes_mask_fromInput_mod children hi.le]
      simp only [ChildrenView.get, EncodedChildrenHeader.decodeFlexibleData, hi, if_true, hbit,
        if_false, hidx, ArenaSlice.readPtrAt_childrenData hread hfit hr, hrc]
      rfl
  · have hlen := EncodedChildrenHeader.countOnes_mask_fromInput children
    unfold ChildrenView.iter
    dsimp only [EncodedChildrenHeader.decodeFlexibleData]
    rw [hlen, ← List.length_map (f := (·.pos)), Bitmap.mapM_range_eq_some (fun r hr => ?_) le_rfl,
      List.take_length]
    rw [List.getElem_map, ArenaSlice.readPtrAt_childrenData hread hfit (by simpa using hr)]

/-! ## The encoder writes one image, the decoder reads it -/

/-- The encoder has written `bytes` from the start of its region: memory `m` is `m₀` after one
write of them, and the region lies in memory. -/
structure RawEncoder.Wrote (e : RawEncoder) (m₀ m : ArenaMemory) (bytes : List UInt8) : Prop where
  pos_eq : e.pos = bytes.length
  write : m₀.writeSlice e.data.pos bytes = some m
  region : m.inBounds e.data.pos e.data.len = true

namespace RawEncoder

variable {e e' : RawEncoder} {m₀ m m' : ArenaMemory}

theorem new_eq_some {ar ar₁ : Arena} {n : Nat} (h : RawEncoder.new ar n = some (ar₁, e)) :
    ∃ data, ar.alloc n = some (ar₁, data) ∧ e = ⟨data, 0⟩ := by
  unfold RawEncoder.new at h
  obtain ⟨⟨ar₂, data⟩, halloc, he⟩ := Option.bind_eq_some_iff.mp h
  cases he
  exact ⟨data, halloc, rfl⟩

theorem write_eq_some {buf : List UInt8} (h : e.write m buf = some (e', m')) :
    e' = { e with pos := e.pos + buf.length } ∧ m.inBounds e.data.pos e.data.len = true ∧
      m.writeSlice ⟨e.data.pos.chunk, e.data.pos.pos + e.pos⟩ buf = some m' := by
  unfold write at h
  split_ifs at h with hc
  obtain ⟨m'', hw, he⟩ := Option.map_eq_some_iff.mp h
  cases he
  exact ⟨rfl, hc.1, hw⟩

/-- The header's write starts the image. -/
theorem wrote_encode {data : ArenaSliceMut} {bytes : List UInt8}
    (h : (⟨data, 0⟩ : RawEncoder).encode m₀ bytes = some (e, m)) :
    e.data = data ∧ e.Wrote m₀ m bytes := by
  obtain ⟨rfl, hregion, hw⟩ := write_eq_some h
  have hw' : m₀.writeSlice data.pos bytes = some m := by simpa using hw
  exact ⟨rfl, ⟨by simp, hw', by rw [ArenaMemory.inBounds_of_writeSlice hw']; exact hregion⟩⟩

/-- A flexible part whose encoder writes `flex` into its target extends the image by `flex`;
its offset fits in a `u32`. -/
theorem Wrote.encodeFlexible {bytes flex : List UInt8} {length : Nat}
    {enc : ArenaSliceMut → ArenaMemory → Option ArenaMemory} (hw : e.Wrote m₀ m bytes)
    (h : e.encodeFlexible m length enc = some (e', m'))
    (henc : ∀ target m m', m.inBounds target.pos flex.length = true → enc target m = some m' →
      m.writeSlice target.pos flex = some m')
    (hlen : flex.length = length) :
    e'.data = e.data ∧ e'.Wrote m₀ m' (bytes ++ flex) ∧ e.data.pos.pos + bytes.length < 2 ^ 32 := by
  unfold RawEncoder.encodeFlexible ArenaPos.offsetBy at h
  split_ifs at h with hroom hfit
  · simp only [Option.bind_eq_bind, Option.bind_some] at h
    obtain ⟨m₁, henc₁, he⟩ := Option.bind_eq_some_iff.mp h
    obtain ⟨rfl, rfl⟩ := Prod.mk.inj (Option.some.inj he).symm
    have hb : m.inBounds ⟨e.data.pos.chunk, e.data.pos.pos + e.pos⟩ flex.length = true := by
      obtain ⟨n, hn, hle⟩ := ArenaMemory.inBounds_iff.mp hw.region
      exact ArenaMemory.inBounds_iff.mpr ⟨n, hn, by dsimp only; omega⟩
    have hflex := henc _ m _ hb henc₁
    refine ⟨rfl, ⟨by simp [hw.pos_eq, hlen], ?_, ?_⟩, by rw [← hw.pos_eq]; exact hfit⟩
    · rw [← ArenaMemory.writeSlice_append, hw.write, Option.bind_some, ← hw.pos_eq]
      exact hflex
    · rw [ArenaMemory.inBounds_of_writeSlice hflex]
      exact hw.region
  · simp at h

theorem Wrote.finish {bytes : List UInt8} {data : ArenaSliceMut} (hw : e.Wrote m₀ m bytes)
    (h : e.finish = some data) : data = e.data ∧ data.len = bytes.length := by
  unfold RawEncoder.finish at h
  split_ifs at h with hpos
  cases h
  exact ⟨rfl, hpos ▸ hw.pos_eq⟩

end RawEncoder

namespace RawDecoder

variable {d : RawDecoder} {m : ArenaMemory} {n : Nat} {bytes : List UInt8}

theorem slice_eq (hfit : d.data.pos + d.pos < 2 ^ 32) (len : Nat) :
    d.slice len = some ⟨⟨d.data.chunk, d.data.pos + d.pos⟩, len⟩ := by
  have hfit' : d.data.pos + d.pos < 4294967296 := hfit
  simp [slice, ArenaPos.offsetBy, hfit']

/-- Within a region that reads `bytes`, `peek` decodes the next `size` of them. -/
theorem peek_eq {α : Type} (hread : m.rawSlice d.data n = some bytes)
    (hfit : d.data.pos + d.pos < 2 ^ 32) (size : Nat) (hsize : d.pos + size ≤ n)
    (deserialize : Borsh.Reader α) :
    d.peek m size deserialize = deserialize.run ((bytes.drop d.pos).take size) := by
  have hsub := ArenaMemory.rawSlice_sub hread hsize
  simp only [peek, slice_eq hfit, ArenaSlice.rawSlice, hsub, Option.bind_eq_bind,
    Option.bind_some]

theorem decode_eq {α : Type} (hread : m.rawSlice d.data n = some bytes)
    (hfit : d.data.pos + d.pos < 2 ^ 32) (size : Nat) (hsize : d.pos + size ≤ n)
    (deserialize : Borsh.Reader α) :
    d.decode m size deserialize =
      (deserialize.run ((bytes.drop d.pos).take size)).map (·, { d with pos := d.pos + size }) := by
  simp only [decode, peek_eq hread hfit size hsize, Option.bind_eq_bind]
  cases deserialize.run ((bytes.drop d.pos).take size) <;> rfl

theorem decodeFlexible_eq {V : Type} (hfit : d.data.pos + d.pos < 2 ^ 32) (length : Nat)
    (decodeFlexibleData : ArenaSlice → Option V) :
    d.decodeFlexible length decodeFlexibleData =
      (decodeFlexibleData ⟨⟨d.data.chunk, d.data.pos + d.pos⟩, length⟩).map
        (·, { d with pos := d.pos + length }) := by
  simp only [decodeFlexible, slice_eq hfit, Option.bind_eq_bind, Option.bind_some]
  cases decodeFlexibleData ⟨⟨d.data.chunk, d.data.pos + d.pos⟩, length⟩ <;> rfl

end RawDecoder

/-! ## Each layout decodes what was encoded -/

@[simp] theorem CommonHeader.length_serialize (h : CommonHeader) : h.serialize.length = 5 := by
  simp [serialize]

@[simp] theorem LeafHeader.length_serialize (h : LeafHeader) : h.serialize.length = 11 := by
  simp [serialize, EncodedValueHeader.serialize, EncodedExtensionHeader.serialize]

@[simp] theorem NonLeafHeader.length_serialize (h : NonLeafHeader) : h.serialize.length = 40 := by
  simp [serialize, h.hash.length_eq]

@[simp] theorem ExtensionHeader.length_serialize (h : ExtensionHeader) :
    h.serialize.length = 55 := by
  simp [serialize, EncodedExtensionHeader.serialize]

@[simp] theorem BranchHeader.length_serialize (h : BranchHeader) : h.serialize.length = 47 := by
  simp [serialize, EncodedChildrenHeader.serialize]

@[simp] theorem BranchWithValueHeader.length_serialize (h : BranchWithValueHeader) :
    h.serialize.length = 51 := by
  simp [serialize, EncodedValueHeader.serialize, EncodedChildrenHeader.serialize]

theorem ExtensionHeader.serialize_eq (h : ExtensionHeader) : h.serialize =
    h.common.serialize ++ (h.nonleaf.serialize ++ h.child.toBytes ++ h.extension.serialize) := by
  simp [serialize]

theorem BranchHeader.serialize_eq (h : BranchHeader) :
    h.serialize = h.common.serialize ++ (h.nonleaf.serialize ++ h.children.serialize) := by
  simp [serialize]

theorem BranchWithValueHeader.serialize_eq (h : BranchWithValueHeader) : h.serialize =
    h.common.serialize ++ (h.nonleaf.serialize ++ h.value.serialize ++ h.children.serialize) := by
  simp [serialize]

theorem LeafHeader.serialize_eq (h : LeafHeader) :
    h.serialize = h.common.serialize ++ (h.value.serialize ++ h.extension.serialize) := by
  simp [serialize]

/-- A leaf's image: its header, the extension, the value's data. -/
theorem MemTrieNodePtr.viewImpl_leaf {m : ArenaMemory} {p : ArenaPos} {rc : Nat} {value : FlatStateValue}
    {ext : List UInt8} {vh : EncodedValueHeader} (hv : value.valueLen < 2 ^ 31)
    (hvh : EncodedValueHeader.fromInput value = some vh) (he : ext.length < 2 ^ 16)
    (hrc : rc < 2 ^ 32)
    (hread : m.rawSlice p (11 + ext.length + value.flexibleData.length) = some
      (LeafHeader.serialize ⟨⟨rc, .leaf⟩, vh, EncodedExtensionHeader.fromInput ext⟩ ++ ext ++
        value.flexibleData))
    (hfit : p.pos + 11 + ext.length < 2 ^ 32) :
    (∃ view, viewImpl m p = some view ∧ view.Shows m (.leaf value ext)) ∧
      sizeOfAllocation m p = some (11 + ext.length + value.flexibleData.length) := by
  obtain ⟨vh', hvh', hbound, hflen, -, hdecode⟩ := EncodedValueHeader.fromInput_spec hv
  obtain rfl : vh = vh' := Option.some.inj (hvh.symm.trans hvh')
  set hdr : LeafHeader := ⟨⟨rc, .leaf⟩, vh, EncodedExtensionHeader.fromInput ext⟩ with hhdr
  have helen := EncodedExtensionHeader.flexibleDataLength_fromInput he
  have hcommon : CommonHeader.deserialize.run
      (((hdr.serialize ++ ext ++ value.flexibleData).drop 0).take 5) = some ⟨rc, .leaf⟩ := by
    rw [List.drop_zero, List.append_assoc, hdr.serialize_eq, List.append_assoc,
      List.take_left' (CommonHeader.length_serialize _)]
    exact Borsh.run_eq_some
      (by simpa using CommonHeader.deserialize_append hrc [])
  have hheader : LeafHeader.deserialize.run
      (((hdr.serialize ++ ext ++ value.flexibleData).drop 0).take 11) = some hdr := by
    have hlen : hdr.extension.length < 2 ^ 16 := by
      rw [hhdr]
      exact Nat.mod_lt _ (by norm_num)
    have hdes := LeafHeader.deserialize_append hrc hbound hlen []
    rw [List.drop_zero, List.append_assoc, List.take_left' (LeafHeader.length_serialize _)]
    exact Borsh.run_eq_some (by simpa using hdes)
  have himg : (hdr.serialize ++ ext ++ value.flexibleData).length =
      11 + ext.length + value.flexibleData.length := by simp [Nat.add_assoc]
  rw [← himg] at hread
  -- the extension and the value's data, where the decoder looks for them
  have hextSrc : m.rawSlice ⟨p.chunk, p.pos + 11⟩ ext.length = some ext := by
    rw [ArenaMemory.rawSlice_sub hread (show 11 + ext.length ≤ _ by rw [himg]; omega)]
    simp
  have hvalSrc : m.rawSlice ⟨p.chunk, p.pos + (11 + ext.length)⟩ value.flexibleData.length =
      some value.flexibleData := by
    rw [ArenaMemory.rawSlice_sub hread (show 11 + ext.length + value.flexibleData.length ≤ _ by
      rw [himg]), List.drop_left' (by simp), List.take_length]
  obtain ⟨v, hv, hvv⟩ := hdecode ⟨⟨p.chunk, p.pos + (11 + ext.length)⟩, _⟩ m hvalSrc
  have hpeek : (⟨p, 0⟩ : RawDecoder).peek m CommonHeader.serializedSize CommonHeader.deserialize =
      some ⟨rc, .leaf⟩ := by
    rw [RawDecoder.peek_eq hread (by dsimp only; omega) _ (by rw [himg]; show 0 + 5 ≤ _; omega)]
    exact hcommon
  have hdec : (⟨p, 0⟩ : RawDecoder).decode m LeafHeader.serializedSize LeafHeader.deserialize =
      some (hdr, ⟨p, 11⟩) := by
    rw [RawDecoder.decode_eq hread (by dsimp only; omega) _ (by rw [himg]; show 0 + 11 ≤ _; omega)]
    rw [show (⟨p, 0⟩ : RawDecoder).pos = 0 from rfl, show LeafHeader.serializedSize = 11 from rfl,
      hheader]
    rfl
  have hflex₁ : (⟨p, 11⟩ : RawDecoder).decodeFlexible hdr.extension.flexibleDataLength
      (some ∘ EncodedExtensionHeader.decodeFlexibleData) =
        some (⟨⟨p.chunk, p.pos + 11⟩, ext.length⟩, ⟨p, 11 + ext.length⟩) := by
    rw [RawDecoder.decodeFlexible_eq (by dsimp only; omega), helen]
    rfl
  have hflex₂ : (⟨p, 11 + ext.length⟩ : RawDecoder).decodeFlexible hdr.value.flexibleDataLength
      (hdr.value.decodeFlexibleData · m) =
        some (v, ⟨p, 11 + ext.length + value.flexibleData.length⟩) := by
    rw [RawDecoder.decodeFlexible_eq (by dsimp only; omega), hflen]
    simp [hdr, hv]
  have hview : viewImpl m p = some (.leaf ⟨⟨p.chunk, p.pos + 11⟩, ext.length⟩ v) := by
    simp only [viewImpl, hpeek, hdec, hflex₁, hflex₂, Option.bind_eq_bind, Option.bind_some]
    rfl
  refine ⟨⟨_, hview, hextSrc, hvv⟩, ?_⟩
  simp only [sizeOfAllocation, hpeek, hdec, Option.bind_eq_bind, Option.bind_some]
  rw [helen, hflen]
  rfl

/-- What `encode` does for a leaf: it allocates the leaf's size and writes its image there. -/
theorem InputMemTrieNode.encode_leaf {ar ar' : Arena} {memoryUsage : Nat}
    {nodeHash : Option CryptoHash} {value : FlatStateValue} {ext : List UInt8}
    {data : ArenaSliceMut} (hv : value.valueLen < 2 ^ 31) (he : ext.length < 2 ^ 16)
    (h : (InputMemTrieNode.leaf value ext).encode ar memoryUsage nodeHash = some (ar', data)) :
    ∃ vh ar₁, EncodedValueHeader.fromInput value = some vh ∧
      ar.alloc data.len = some (ar₁, data) ∧ ar'.allocator = ar₁.allocator ∧
      data.len = 11 + ext.length + value.flexibleData.length ∧
      ar₁.memory.writeSlice data.pos
        (LeafHeader.serialize ⟨⟨0, .leaf⟩, vh, EncodedExtensionHeader.fromInput ext⟩ ++ ext ++
          value.flexibleData) = some ar'.memory ∧
      data.pos.pos + 11 + ext.length < 2 ^ 32 := by
  obtain ⟨vh, hvh, -, hflen, henc, -⟩ := EncodedValueHeader.fromInput_spec hv
  unfold InputMemTrieNode.encode at h
  simp only [hvh, Option.bind_eq_bind, Option.bind_some] at h
  obtain ⟨⟨ar₁, e₀⟩, hnew, h⟩ := Option.bind_eq_some_iff.mp h
  obtain ⟨⟨e₁, m₁⟩, hhdr, h⟩ := Option.bind_eq_some_iff.mp h
  obtain ⟨⟨e₂, m₂⟩, hext, h⟩ := Option.bind_eq_some_iff.mp h
  obtain ⟨⟨e₃, m₃⟩, hval, h⟩ := Option.bind_eq_some_iff.mp h
  obtain ⟨data', hfin, h⟩ := Option.bind_eq_some_iff.mp h
  obtain ⟨rfl, rfl⟩ := Prod.mk.inj (Option.some.inj h)
  obtain ⟨d, halloc, rfl⟩ := RawEncoder.new_eq_some hnew
  -- the header, then the extension, then the value's data, each right after the last
  obtain ⟨hd₁, hw₁⟩ := RawEncoder.wrote_encode hhdr
  obtain ⟨hd₂, hw₂, -⟩ := hw₁.encodeFlexible hext
    (fun _ _ _ _ h => ArenaSliceMut.copyFromSlice_eq_some h)
    (EncodedExtensionHeader.flexibleDataLength_fromInput he).symm
  obtain ⟨hd₃, hw₃, hfit⟩ := hw₂.encodeFlexible hval (fun _ _ _ _ h => henc _ _ _ h) hflen.symm
  obtain ⟨rfl, hlen⟩ := hw₃.finish hfin
  have hd : e₃.data = d := by rw [hd₃, hd₂, hd₁]
  have hlen' : e₃.data.len = 11 + ext.length + value.flexibleData.length := by
    rw [hlen]
    simp [Nat.add_assoc]
  have hn : LeafHeader.serializedSize + (EncodedExtensionHeader.fromInput ext).flexibleDataLength +
      vh.flexibleDataLength = 11 + ext.length + value.flexibleData.length := by
    rw [EncodedExtensionHeader.flexibleDataLength_fromInput he, hflen]
    rfl
  refine ⟨vh, ar₁, hvh, ?_, rfl, hlen', hw₃.write, ?_⟩
  · rw [hlen', hd, ← hn]
    exact halloc
  · rw [hd₃]
    simpa [Nat.add_assoc] using hfit

/-- An extension's image: its header, which holds the child, then the extension. -/
theorem MemTrieNodePtr.viewImpl_extension {m : ArenaMemory} {p : ArenaPos} {rc : Nat} {ext : List UInt8}
    {child : MemTrieNodeId} {nonleaf : NonLeafHeader} (he : ext.length < 2 ^ 16)
    (hchild : child.pos.IsU32) (hu : nonleaf.memoryUsage < 2 ^ 64)
    (hrc : rc < 2 ^ 32)
    (hread : m.rawSlice p (55 + ext.length) = some (ExtensionHeader.serialize
      ⟨⟨rc, .extension⟩, nonleaf, child.pos, EncodedExtensionHeader.fromInput ext⟩ ++ ext))
    (hfit : p.pos + 55 < 2 ^ 32) :
    (∃ view, viewImpl m p = some view ∧ view.Shows m (.extension ext child)) ∧
      sizeOfAllocation m p = some (55 + ext.length) := by
  set hdr : ExtensionHeader :=
    ⟨⟨rc, .extension⟩, nonleaf, child.pos, EncodedExtensionHeader.fromInput ext⟩ with hhdr
  have helen := EncodedExtensionHeader.flexibleDataLength_fromInput he
  have hcommon : CommonHeader.deserialize.run (((hdr.serialize ++ ext).drop 0).take 5) =
      some ⟨rc, .extension⟩ := by
    rw [List.drop_zero, hdr.serialize_eq, List.append_assoc,
      List.take_left' (CommonHeader.length_serialize _)]
    exact Borsh.run_eq_some
      (by simpa using CommonHeader.deserialize_append hrc [])
  have hheader : ExtensionHeader.deserialize.run (((hdr.serialize ++ ext).drop 0).take 55) =
      some hdr := by
    have hlen : hdr.extension.length < 2 ^ 16 := by
      rw [hhdr]
      exact Nat.mod_lt _ (by norm_num)
    have hdes := ExtensionHeader.deserialize_append hrc hu hchild.1 hchild.2 hlen []
    rw [List.drop_zero, List.take_left' (ExtensionHeader.length_serialize _)]
    exact Borsh.run_eq_some (by simpa using hdes)
  have himg : (hdr.serialize ++ ext).length = 55 + ext.length := by simp
  rw [← himg] at hread
  have hextSrc : m.rawSlice ⟨p.chunk, p.pos + 55⟩ ext.length = some ext := by
    rw [ArenaMemory.rawSlice_sub hread (show 55 + ext.length ≤ _ by rw [himg])]
    simp
  have hpeek : (⟨p, 0⟩ : RawDecoder).peek m CommonHeader.serializedSize CommonHeader.deserialize =
      some ⟨rc, .extension⟩ := by
    rw [RawDecoder.peek_eq hread (by dsimp only; omega) _ (by rw [himg]; show 0 + 5 ≤ _; omega)]
    exact hcommon
  have hdec : (⟨p, 0⟩ : RawDecoder).decode m ExtensionHeader.serializedSize
      ExtensionHeader.deserialize = some (hdr, ⟨p, 55⟩) := by
    rw [RawDecoder.decode_eq hread (by dsimp only; omega) _ (by rw [himg]; show 0 + 55 ≤ _; omega)]
    rw [show (⟨p, 0⟩ : RawDecoder).pos = 0 from rfl,
      show ExtensionHeader.serializedSize = 55 from rfl, hheader]
    rfl
  have hflex : (⟨p, 55⟩ : RawDecoder).decodeFlexible hdr.extension.flexibleDataLength
      (some ∘ EncodedExtensionHeader.decodeFlexibleData) =
        some (⟨⟨p.chunk, p.pos + 55⟩, ext.length⟩, ⟨p, 55 + ext.length⟩) := by
    rw [RawDecoder.decodeFlexible_eq (by dsimp only; omega), helen]
    rfl
  have hview : viewImpl m p =
      some (.extension nonleaf.hash nonleaf.memoryUsage ⟨⟨p.chunk, p.pos + 55⟩, ext.length⟩
        child.pos) := by
    simp only [viewImpl, hpeek, hdec, hflex, Option.bind_eq_bind, Option.bind_some]
    rfl
  refine ⟨⟨_, hview, hextSrc, rfl⟩, ?_⟩
  simp only [sizeOfAllocation, hpeek, hdec, Option.bind_eq_bind, Option.bind_some]
  rw [helen]
  rfl

/-- A branch's image: its header, then the packed positions of its present children. -/
theorem MemTrieNodePtr.viewImpl_branch {m : ArenaMemory} {p : ArenaPos} {rc : Nat}
    {children : List.Vector (Option MemTrieNodeId) 16} {nonleaf : NonLeafHeader}
    (hchildren : ∀ c ∈ children.toList.filterMap id, c.pos.IsU32)
    (hu : nonleaf.memoryUsage < 2 ^ 64)
    (hrc : rc < 2 ^ 32)
    (hread : m.rawSlice p (47 + (childrenData children.toList).length) = some
      (BranchHeader.serialize ⟨⟨rc, .branch⟩, nonleaf, EncodedChildrenHeader.fromInput children⟩ ++
        childrenData children.toList))
    (hfit : p.pos + 47 < 2 ^ 32) :
    (∃ view, viewImpl m p = some view ∧ view.Shows m (.branch children)) ∧
      sizeOfAllocation m p = some (47 + (childrenData children.toList).length) := by
  set hdr : BranchHeader :=
    ⟨⟨rc, .branch⟩, nonleaf, EncodedChildrenHeader.fromInput children⟩ with hhdr
  set data := childrenData children.toList with hdata
  have hclen := EncodedChildrenHeader.flexibleDataLength_fromInput children
  have hcommon : CommonHeader.deserialize.run (((hdr.serialize ++ data).drop 0).take 5) =
      some ⟨rc, .branch⟩ := by
    rw [List.drop_zero, hdr.serialize_eq, List.append_assoc,
      List.take_left' (CommonHeader.length_serialize _)]
    exact Borsh.run_eq_some
      (by simpa using CommonHeader.deserialize_append hrc [])
  have hheader : BranchHeader.deserialize.run (((hdr.serialize ++ data).drop 0).take 47) =
      some hdr := by
    have hdes := BranchHeader.deserialize_append (h := hdr) hrc hu
      (EncodedChildrenHeader.mask_fromInput_lt children) []
    rw [List.drop_zero, List.take_left' (BranchHeader.length_serialize _)]
    exact Borsh.run_eq_some (by simpa using hdes)
  have himg : (hdr.serialize ++ data).length = 47 + data.length := by simp
  rw [← himg] at hread
  have hsrc : (⟨⟨p.chunk, p.pos + 47⟩, data.length⟩ : ArenaSlice).rawSlice m = some data := by
    rw [ArenaSlice.rawSlice, ArenaMemory.rawSlice_sub hread (show 47 + data.length ≤ _ by
      rw [himg])]
    simp
  have hpeek : (⟨p, 0⟩ : RawDecoder).peek m CommonHeader.serializedSize CommonHeader.deserialize =
      some ⟨rc, .branch⟩ := by
    rw [RawDecoder.peek_eq hread (by dsimp only; omega) _ (by rw [himg]; show 0 + 5 ≤ _; omega)]
    exact hcommon
  have hdec : (⟨p, 0⟩ : RawDecoder).decode m BranchHeader.serializedSize
      BranchHeader.deserialize = some (hdr, ⟨p, 47⟩) := by
    rw [RawDecoder.decode_eq hread (by dsimp only; omega) _ (by rw [himg]; show 0 + 47 ≤ _; omega)]
    rw [show (⟨p, 0⟩ : RawDecoder).pos = 0 from rfl,
      show BranchHeader.serializedSize = 47 from rfl, hheader]
    rfl
  have hflex : (⟨p, 47⟩ : RawDecoder).decodeFlexible hdr.children.flexibleDataLength
      (some ∘ hdr.children.decodeFlexibleData) =
        some (hdr.children.decodeFlexibleData ⟨⟨p.chunk, p.pos + 47⟩, data.length⟩,
          ⟨p, 47 + data.length⟩) := by
    rw [RawDecoder.decodeFlexible_eq (by dsimp only; omega), hclen]
    rfl
  have hview : viewImpl m p = some (.branch nonleaf.hash nonleaf.memoryUsage
      (hdr.children.decodeFlexibleData ⟨⟨p.chunk, p.pos + 47⟩, data.length⟩)) := by
    simp only [viewImpl, hpeek, hdec, hflex, Option.bind_eq_bind, Option.bind_some]
    rfl
  refine ⟨⟨_, hview, ChildrenView.shows_fromInput hchildren hsrc⟩, ?_⟩
  simp only [sizeOfAllocation, hpeek, hdec, Option.bind_eq_bind, Option.bind_some]
  rw [hclen]
  rfl

/-- A branch with a value: its header, the packed positions of its children, the value's
data. -/
theorem MemTrieNodePtr.viewImpl_branchWithValue {m : ArenaMemory} {p : ArenaPos} {rc : Nat}
    {children : List.Vector (Option MemTrieNodeId) 16} {value : FlatStateValue}
    {nonleaf : NonLeafHeader} {vh : EncodedValueHeader}
    (hchildren : ∀ c ∈ children.toList.filterMap id, c.pos.IsU32)
    (hv : value.valueLen < 2 ^ 31) (hvh : EncodedValueHeader.fromInput value = some vh)
    (hu : nonleaf.memoryUsage < 2 ^ 64)
    (hrc : rc < 2 ^ 32)
    (hread : m.rawSlice p (51 + (childrenData children.toList).length +
      value.flexibleData.length) = some (BranchWithValueHeader.serialize
        ⟨⟨rc, .branchWithValue⟩, nonleaf, vh, EncodedChildrenHeader.fromInput children⟩ ++
          childrenData children.toList ++ value.flexibleData))
    (hfit : p.pos + 51 + (childrenData children.toList).length < 2 ^ 32) :
    (∃ view, viewImpl m p = some view ∧ view.Shows m (.branchWithValue children value)) ∧
      sizeOfAllocation m p =
        some (51 + (childrenData children.toList).length + value.flexibleData.length) := by
  obtain ⟨vh', hvh', hbound, hflen, -, hdecode⟩ := EncodedValueHeader.fromInput_spec hv
  obtain rfl : vh = vh' := Option.some.inj (hvh.symm.trans hvh')
  set hdr : BranchWithValueHeader :=
    ⟨⟨rc, .branchWithValue⟩, nonleaf, vh, EncodedChildrenHeader.fromInput children⟩ with hhdr
  set data := childrenData children.toList with hdata
  have hclen := EncodedChildrenHeader.flexibleDataLength_fromInput children
  have hcommon : CommonHeader.deserialize.run
      (((hdr.serialize ++ data ++ value.flexibleData).drop 0).take 5) =
        some ⟨rc, .branchWithValue⟩ := by
    rw [List.drop_zero, List.append_assoc, hdr.serialize_eq, List.append_assoc,
      List.take_left' (CommonHeader.length_serialize _)]
    exact Borsh.run_eq_some
      (by simpa using CommonHeader.deserialize_append hrc [])
  have hheader : BranchWithValueHeader.deserialize.run
      (((hdr.serialize ++ data ++ value.flexibleData).drop 0).take 51) = some hdr := by
    have hdes := BranchWithValueHeader.deserialize_append (h := hdr) hrc hu hbound
      (EncodedChildrenHeader.mask_fromInput_lt children) []
    rw [List.drop_zero, List.append_assoc,
      List.take_left' (BranchWithValueHeader.length_serialize _)]
    exact Borsh.run_eq_some (by simpa using hdes)
  have himg : (hdr.serialize ++ data ++ value.flexibleData).length =
      51 + data.length + value.flexibleData.length := by simp [Nat.add_assoc]
  rw [← himg] at hread
  have hsrc : (⟨⟨p.chunk, p.pos + 51⟩, data.length⟩ : ArenaSlice).rawSlice m = some data := by
    rw [ArenaSlice.rawSlice, ArenaMemory.rawSlice_sub hread (show 51 + data.length ≤ _ by
      rw [himg]; omega)]
    simp
  have hvalSrc : m.rawSlice ⟨p.chunk, p.pos + (51 + data.length)⟩ value.flexibleData.length =
      some value.flexibleData := by
    rw [ArenaMemory.rawSlice_sub hread (show 51 + data.length + value.flexibleData.length ≤ _ by
      rw [himg]), List.drop_left' (by simp), List.take_length]
  obtain ⟨v, hv, hvv⟩ := hdecode ⟨⟨p.chunk, p.pos + (51 + data.length)⟩, _⟩ m hvalSrc
  have hpeek : (⟨p, 0⟩ : RawDecoder).peek m CommonHeader.serializedSize CommonHeader.deserialize =
      some ⟨rc, .branchWithValue⟩ := by
    rw [RawDecoder.peek_eq hread (by dsimp only; omega) _ (by rw [himg]; show 0 + 5 ≤ _; omega)]
    exact hcommon
  have hdec : (⟨p, 0⟩ : RawDecoder).decode m BranchWithValueHeader.serializedSize
      BranchWithValueHeader.deserialize = some (hdr, ⟨p, 51⟩) := by
    rw [RawDecoder.decode_eq hread (by dsimp only; omega) _ (by rw [himg]; show 0 + 51 ≤ _; omega)]
    rw [show (⟨p, 0⟩ : RawDecoder).pos = 0 from rfl,
      show BranchWithValueHeader.serializedSize = 51 from rfl, hheader]
    rfl
  have hflex₁ : (⟨p, 51⟩ : RawDecoder).decodeFlexible hdr.children.flexibleDataLength
      (some ∘ hdr.children.decodeFlexibleData) =
        some (hdr.children.decodeFlexibleData ⟨⟨p.chunk, p.pos + 51⟩, data.length⟩,
          ⟨p, 51 + data.length⟩) := by
    rw [RawDecoder.decodeFlexible_eq (by dsimp only; omega), hclen]
    rfl
  have hflex₂ : (⟨p, 51 + data.length⟩ : RawDecoder).decodeFlexible hdr.value.flexibleDataLength
      (hdr.value.decodeFlexibleData · m) =
        some (v, ⟨p, 51 + data.length + value.flexibleData.length⟩) := by
    rw [RawDecoder.decodeFlexible_eq (by dsimp only; omega), hflen]
    simp [hdr, hv]
  have hview : viewImpl m p = some (.branchWithValue nonleaf.hash nonleaf.memoryUsage
      (hdr.children.decodeFlexibleData ⟨⟨p.chunk, p.pos + 51⟩, data.length⟩) v) := by
    simp only [viewImpl, hpeek, hdec, hflex₁, hflex₂, Option.bind_eq_bind, Option.bind_some]
    rfl
  refine ⟨⟨_, hview, ChildrenView.shows_fromInput hchildren hsrc, hvv⟩, ?_⟩
  simp only [sizeOfAllocation, hpeek, hdec, Option.bind_eq_bind, Option.bind_some]
  rw [hclen, hflen]
  rfl

/-- What `encode` does for an extension: it allocates the extension's size and writes its
image there. -/
theorem InputMemTrieNode.encode_extension {ar ar' : Arena} {memoryUsage : Nat}
    {nodeHash : Option CryptoHash} {ext : List UInt8} {child : MemTrieNodeId}
    {data : ArenaSliceMut} (he : ext.length < 2 ^ 16)
    (h : (InputMemTrieNode.extension ext child).encode ar memoryUsage nodeHash =
      some (ar', data)) :
    ∃ ar₁, ar.alloc data.len = some (ar₁, data) ∧ ar'.allocator = ar₁.allocator ∧
      data.len = 55 + ext.length ∧
      ar₁.memory.writeSlice data.pos (ExtensionHeader.serialize
        ⟨⟨0, .extension⟩, NonLeafHeader.new memoryUsage nodeHash, child.pos,
          EncodedExtensionHeader.fromInput ext⟩ ++ ext) = some ar'.memory ∧
      data.pos.pos + 55 < 2 ^ 32 := by
  unfold InputMemTrieNode.encode at h
  obtain ⟨⟨ar₁, e₀⟩, hnew, h⟩ := Option.bind_eq_some_iff.mp h
  obtain ⟨⟨e₁, m₁⟩, hhdr, h⟩ := Option.bind_eq_some_iff.mp h
  obtain ⟨⟨e₂, m₂⟩, hext, h⟩ := Option.bind_eq_some_iff.mp h
  obtain ⟨data', hfin, h⟩ := Option.bind_eq_some_iff.mp h
  obtain ⟨rfl, rfl⟩ := Prod.mk.inj (Option.some.inj h)
  obtain ⟨d, halloc, rfl⟩ := RawEncoder.new_eq_some hnew
  obtain ⟨hd₁, hw₁⟩ := RawEncoder.wrote_encode hhdr
  obtain ⟨hd₂, hw₂, hfit⟩ := hw₁.encodeFlexible hext
    (fun _ _ _ _ h => ArenaSliceMut.copyFromSlice_eq_some h)
    (EncodedExtensionHeader.flexibleDataLength_fromInput he).symm
  obtain ⟨rfl, hlen⟩ := hw₂.finish hfin
  have hlen' : e₂.data.len = 55 + ext.length := by
    rw [hlen]
    simp
  have hn : ExtensionHeader.serializedSize +
      (EncodedExtensionHeader.fromInput ext).flexibleDataLength = 55 + ext.length := by
    rw [EncodedExtensionHeader.flexibleDataLength_fromInput he]
    rfl
  refine ⟨ar₁, ?_, rfl, hlen', hw₂.write, ?_⟩
  · rw [hlen', hd₂, hd₁, ← hn]
    exact halloc
  · rw [hd₂]
    simpa using hfit

/-- What `encode` does for a branch: it allocates the branch's size and writes its image
there. -/
theorem InputMemTrieNode.encode_branch {ar ar' : Arena} {memoryUsage : Nat}
    {nodeHash : Option CryptoHash} {children : List.Vector (Option MemTrieNodeId) 16}
    {data : ArenaSliceMut}
    (h : (InputMemTrieNode.branch children).encode ar memoryUsage nodeHash = some (ar', data)) :
    ∃ ar₁, ar.alloc data.len = some (ar₁, data) ∧ ar'.allocator = ar₁.allocator ∧
      data.len = 47 + (childrenData children.toList).length ∧
      ar₁.memory.writeSlice data.pos (BranchHeader.serialize
        ⟨⟨0, .branch⟩, NonLeafHeader.new memoryUsage nodeHash,
          EncodedChildrenHeader.fromInput children⟩ ++ childrenData children.toList) =
        some ar'.memory ∧
      data.pos.pos + 47 < 2 ^ 32 := by
  have hclen := EncodedChildrenHeader.flexibleDataLength_fromInput children
  unfold InputMemTrieNode.encode at h
  obtain ⟨⟨ar₁, e₀⟩, hnew, h⟩ := Option.bind_eq_some_iff.mp h
  obtain ⟨⟨e₁, m₁⟩, hhdr, h⟩ := Option.bind_eq_some_iff.mp h
  obtain ⟨⟨e₂, m₂⟩, hchildren, h⟩ := Option.bind_eq_some_iff.mp h
  obtain ⟨data', hfin, h⟩ := Option.bind_eq_some_iff.mp h
  obtain ⟨rfl, rfl⟩ := Prod.mk.inj (Option.some.inj h)
  obtain ⟨d, halloc, rfl⟩ := RawEncoder.new_eq_some hnew
  obtain ⟨hd₁, hw₁⟩ := RawEncoder.wrote_encode hhdr
  obtain ⟨hd₂, hw₂, hfit⟩ := hw₁.encodeFlexible hchildren
    (fun _ _ _ hb h => EncodedChildrenHeader.encodeFlexibleData_eq_some hb h) hclen.symm
  obtain ⟨rfl, hlen⟩ := hw₂.finish hfin
  have hlen' : e₂.data.len = 47 + (childrenData children.toList).length := by
    rw [hlen]
    simp
  refine ⟨ar₁, ?_, rfl, hlen', hw₂.write, ?_⟩
  · rw [hlen', hd₂, hd₁, ← hclen]
    exact halloc
  · rw [hd₂]
    simpa using hfit

/-- What `encode` does for a branch with a value: it allocates the node's size and writes its
image there. -/
theorem InputMemTrieNode.encode_branchWithValue {ar ar' : Arena} {memoryUsage : Nat}
    {nodeHash : Option CryptoHash} {children : List.Vector (Option MemTrieNodeId) 16}
    {value : FlatStateValue} {data : ArenaSliceMut} (hv : value.valueLen < 2 ^ 31)
    (h : (InputMemTrieNode.branchWithValue children value).encode ar memoryUsage nodeHash =
      some (ar', data)) :
    ∃ vh ar₁, EncodedValueHeader.fromInput value = some vh ∧
      ar.alloc data.len = some (ar₁, data) ∧ ar'.allocator = ar₁.allocator ∧
      data.len = 51 + (childrenData children.toList).length + value.flexibleData.length ∧
      ar₁.memory.writeSlice data.pos (BranchWithValueHeader.serialize
        ⟨⟨0, .branchWithValue⟩, NonLeafHeader.new memoryUsage nodeHash, vh,
          EncodedChildrenHeader.fromInput children⟩ ++ childrenData children.toList ++
            value.flexibleData) = some ar'.memory ∧
      data.pos.pos + 51 + (childrenData children.toList).length < 2 ^ 32 := by
  obtain ⟨vh, hvh, -, hflen, henc, -⟩ := EncodedValueHeader.fromInput_spec hv
  have hclen := EncodedChildrenHeader.flexibleDataLength_fromInput children
  unfold InputMemTrieNode.encode at h
  simp only [hvh, Option.bind_eq_bind, Option.bind_some] at h
  obtain ⟨⟨ar₁, e₀⟩, hnew, h⟩ := Option.bind_eq_some_iff.mp h
  obtain ⟨⟨e₁, m₁⟩, hhdr, h⟩ := Option.bind_eq_some_iff.mp h
  obtain ⟨⟨e₂, m₂⟩, hchildren, h⟩ := Option.bind_eq_some_iff.mp h
  obtain ⟨⟨e₃, m₃⟩, hval, h⟩ := Option.bind_eq_some_iff.mp h
  obtain ⟨data', hfin, h⟩ := Option.bind_eq_some_iff.mp h
  obtain ⟨rfl, rfl⟩ := Prod.mk.inj (Option.some.inj h)
  obtain ⟨d, halloc, rfl⟩ := RawEncoder.new_eq_some hnew
  -- the header, then the children's positions, then the value's data
  obtain ⟨hd₁, hw₁⟩ := RawEncoder.wrote_encode hhdr
  obtain ⟨hd₂, hw₂, -⟩ := hw₁.encodeFlexible hchildren
    (fun _ _ _ hb h => EncodedChildrenHeader.encodeFlexibleData_eq_some hb h) hclen.symm
  obtain ⟨hd₃, hw₃, hfit⟩ := hw₂.encodeFlexible hval (fun _ _ _ _ h => henc _ _ _ h) hflen.symm
  obtain ⟨rfl, hlen⟩ := hw₃.finish hfin
  have hd : e₃.data = d := by rw [hd₃, hd₂, hd₁]
  have hlen' : e₃.data.len =
      51 + (childrenData children.toList).length + value.flexibleData.length := by
    rw [hlen]
    simp [Nat.add_assoc]
  have hn : BranchWithValueHeader.serializedSize +
      (EncodedChildrenHeader.fromInput children).flexibleDataLength + vh.flexibleDataLength =
        51 + (childrenData children.toList).length + value.flexibleData.length := by
    rw [hclen, hflen]
    rfl
  refine ⟨vh, ar₁, hvh, ?_, rfl, hlen', hw₃.write, ?_⟩
  · rw [hlen', hd, ← hn]
    exact halloc
  · rw [hd₃]
    simpa [Nat.add_assoc] using hfit

/-! ## `new_impl` writes a node that reads back as itself -/

/-- The ids of a node's children, in index order. -/
def InputMemTrieNode.childIds : InputMemTrieNode → List MemTrieNodeId
  | .leaf _ _ => []
  | .extension _ child => [child]
  | .branch children | .branchWithValue children _ => children.toList.filterMap id

/-- The lengths a node's headers hold: an extension shorter than `2^16` bytes, a value shorter
than `2^31`. -/
def InputMemTrieNode.InBounds : InputMemTrieNode → Prop
  | .leaf value ext => ext.length < 2 ^ 16 ∧ value.valueLen < 2 ^ 31
  | .extension ext _ => ext.length < 2 ^ 16
  | .branch _ => True
  | .branchWithValue _ value => value.valueLen < 2 ^ 31

/-- Summing the children's usages with checked additions stays a `u64`. -/
theorem InputMemTrieNode.childrenMemoryUsage_lt {m : ArenaMemory} :
    ∀ {children : List (Option MemTrieNodeId)} {init mu : Nat},
      childrenMemoryUsage m children init = some mu → init < 2 ^ 64 → mu < 2 ^ 64
  | [], init, mu, h, hinit => by
    obtain rfl : init = mu := by simpa [childrenMemoryUsage] using h
    exact hinit
  | child :: children, init, mu, h, hinit => by
    unfold childrenMemoryUsage at h
    rw [List.foldlM_cons] at h
    obtain ⟨u, hu, h⟩ := Option.bind_eq_some_iff.mp h
    have hu' : u < 2 ^ 64 := by
      cases child with
      | none => simpa [← Option.some.inj hu] using hinit
      | some c =>
        obtain ⟨_, -, hadd⟩ := Option.bind_eq_some_iff.mp hu
        exact (addU64_eq_some.mp hadd).2 ▸ (addU64_eq_some.mp hadd).1
    exact childrenMemoryUsage_lt h hu'

/-- The usage `new_impl` stores is a `u64`: every sum and product on the way is checked. -/
theorem InputMemTrieNode.memoryUsage_lt {m : ArenaMemory} {node : InputMemTrieNode} {mu : Nat}
    (h : node.memoryUsage m = some mu) : mu < 2 ^ 64 := by
  cases node with
  | leaf => simp [memoryUsage] at h; omega
  | extension ext child =>
    simp only [memoryUsage, Option.bind_eq_bind] at h
    obtain ⟨_, -, h⟩ := Option.bind_eq_some_iff.mp h
    obtain ⟨_, -, h⟩ := Option.bind_eq_some_iff.mp h
    obtain ⟨_, -, h⟩ := Option.bind_eq_some_iff.mp h
    exact (addU64_eq_some.mp h).2 ▸ (addU64_eq_some.mp h).1
  | branch children =>
    exact childrenMemoryUsage_lt h (by norm_num [trieCosts])
  | branchWithValue children value =>
    simp only [memoryUsage, Option.bind_eq_bind] at h
    obtain ⟨_, -, h⟩ := Option.bind_eq_some_iff.mp h
    obtain ⟨_, -, h⟩ := Option.bind_eq_some_iff.mp h
    obtain ⟨u, hu, h⟩ := Option.bind_eq_some_iff.mp h
    exact childrenMemoryUsage_lt h ((addU64_eq_some.mp hu).2 ▸ (addU64_eq_some.mp hu).1)

/-- A live allocation's position fits its two `u32`s. -/
theorem ArenaInv.isU32_of_live {ar : Arena} {live : List ArenaSliceMut}
    {free : Nat → List ArenaPos} (hinv : ArenaInv ar live free) {s : ArenaSliceMut}
    (hs : s ∈ live) : s.pos.IsU32 := by
  obtain ⟨hchunk, hend, -⟩ := hinv.inside _ (ArenaInv.mem_blocks_of_live hs)
  have hlen := hinv.chunks_length_le
  simp only [ArenaSliceMut.reserved] at hchunk hend
  exact ⟨by omega, by unfold chunkSize at hend; omega⟩

/-- `encode` writes an image that `view_impl` reads back as the node, in a region that the
allocator handed out and whose size `size_of_allocation` reads back. -/
theorem InputMemTrieNode.encode_round_trip {ar ar' : Arena} {node : InputMemTrieNode}
    {mu : Nat} {nodeHash : Option CryptoHash} {data : ArenaSliceMut} (hbounds : node.InBounds)
    (hids : ∀ c ∈ node.childIds, c.pos.IsU32) (hu : mu < 2 ^ 64)
    (h : node.encode ar mu nodeHash = some (ar', data)) :
    (∃ view, MemTrieNodePtr.viewImpl ar'.memory data.pos = some view ∧
        view.Shows ar'.memory node) ∧
      ∃ ar₁, ar.alloc data.len = some (ar₁, data) ∧ ar'.allocator = ar₁.allocator ∧
        MemTrieNodePtr.sizeOfAllocation ar'.memory data.pos = some data.len := by
  cases node with
  | leaf value ext =>
    obtain ⟨he, hv⟩ := hbounds
    obtain ⟨vh, ar₁, hvh, halloc, hal, hlen, hwrite, hfit⟩ := encode_leaf hv he h
    have hread := ArenaMemory.rawSlice_writeSlice_self hwrite
    simp only [List.length_append, LeafHeader.length_serialize] at hread
    obtain ⟨hview, hsize⟩ := MemTrieNodePtr.viewImpl_leaf hv hvh he (by norm_num) hread hfit
    exact ⟨hview, ar₁, halloc, hal, hlen ▸ hsize⟩
  | extension ext child =>
    obtain ⟨ar₁, halloc, hal, hlen, hwrite, hfit⟩ := encode_extension hbounds h
    have hread := ArenaMemory.rawSlice_writeSlice_self hwrite
    simp only [List.length_append, ExtensionHeader.length_serialize] at hread
    obtain ⟨hview, hsize⟩ := MemTrieNodePtr.viewImpl_extension hbounds
      (hids child (by simp [childIds])) hu (by norm_num) hread hfit
    exact ⟨hview, ar₁, halloc, hal, hlen ▸ hsize⟩
  | branch children =>
    obtain ⟨ar₁, halloc, hal, hlen, hwrite, hfit⟩ := encode_branch h
    have hread := ArenaMemory.rawSlice_writeSlice_self hwrite
    simp only [List.length_append, BranchHeader.length_serialize] at hread
    obtain ⟨hview, hsize⟩ := MemTrieNodePtr.viewImpl_branch hids hu (by norm_num) hread hfit
    exact ⟨hview, ar₁, halloc, hal, hlen ▸ hsize⟩
  | branchWithValue children value =>
    obtain ⟨vh, ar₁, hvh, halloc, hal, hlen, hwrite, hfit⟩ := encode_branchWithValue hbounds h
    have hread := ArenaMemory.rawSlice_writeSlice_self hwrite
    simp only [List.length_append, BranchWithValueHeader.length_serialize] at hread
    obtain ⟨hview, hsize⟩ := MemTrieNodePtr.viewImpl_branchWithValue hids hbounds hvh hu (by norm_num) hread
      hfit
    exact ⟨hview, ar₁, halloc, hal, hlen ▸ hsize⟩

/-- `new_impl` of a leaf, which references no child, keeps the arena's invariant, with the leaf's
allocation live. -/
theorem MemTrieNodeId.newImpl_leaf_arenaInv {ar ar' : Arena} {live : List ArenaSliceMut}
    {free : Nat → List ArenaPos} {value : FlatStateValue} {ext : List UInt8}
    {nodeHash : Option CryptoHash} {id : MemTrieNodeId} (hinv : ArenaInv ar live free)
    (hbounds : (InputMemTrieNode.leaf value ext).InBounds)
    (h : MemTrieNodeId.newImpl ar (.leaf value ext) nodeHash = some (ar', id)) :
    ∃ s free', s.pos = id.pos ∧ ArenaInv ar' (live ++ [s]) free' := by
  unfold MemTrieNodeId.newImpl at h
  obtain ⟨ar₁, hrefs, h⟩ := Option.bind_eq_some_iff.mp h
  obtain ⟨mu, -, h⟩ := Option.bind_eq_some_iff.mp h
  obtain ⟨⟨ar₂, data⟩, henc, h⟩ := Option.bind_eq_some_iff.mp h
  obtain ⟨rfl, rfl⟩ := Prod.mk.inj (Option.some.inj h)
  -- a leaf adds no reference
  obtain rfl : ar₁ = ar := (Option.some.inj hrefs).symm
  obtain ⟨vh, ar₃, -, halloc, hal, hlen, hwrite, -⟩ :=
    InputMemTrieNode.encode_leaf hbounds.2 hbounds.1 henc
  have hmax : data.len ≤ maxAllocSize := by
    obtain ⟨r, hr, -⟩ := Option.map_eq_some_iff.mp halloc
    exact (Allocator.allocate_eq_some hr).1
  obtain ⟨-, free', hinv₃⟩ := hinv.alloc (by omega) hmax halloc
  have hwithin : ArenaSliceMut.Within ⟨data.pos, (LeafHeader.serialize
      ⟨⟨0, .leaf⟩, vh, EncodedExtensionHeader.fromInput ext⟩ ++ ext ++ value.flexibleData).length⟩
      data :=
    ⟨rfl, le_refl _, by simp [hlen]; omega⟩
  have hinv₂ := hinv₃.write (List.mem_append_right _ (List.mem_singleton_self _)) hwithin hwrite
  have har₂ : ar₂ = ⟨ar₂.memory, ar₃.allocator⟩ := by
    rw [← hal]
  exact ⟨data, free', rfl, har₂ ▸ hinv₂⟩

/-- `new_impl` of a node whose children are live: after the children's `add_ref`s, it allocates
a region, and the node it writes there reads back through `view_impl` as the input node, with
`size_of_allocation` the size it allocated. -/
theorem MemTrieNodeId.newImpl_view_round_trip {ar ar' : Arena} {live : List ArenaSliceMut}
    {free : Nat → List ArenaPos} {node : InputMemTrieNode} {nodeHash : Option CryptoHash}
    {id : MemTrieNodeId} (hinv : ArenaInv ar live free)
    (hlive : ∀ c ∈ node.childIds, ∃ s ∈ live, s.pos = c.pos) (hbounds : node.InBounds)
    (h : MemTrieNodeId.newImpl ar node nodeHash = some (ar', id)) :
    (∃ view, MemTrieNodePtr.viewImpl ar'.memory id.pos = some view ∧
        view.Shows ar'.memory node) ∧
      ∃ ar₁ ar₂ n, node.addChildRefs ar = some ar₁ ∧ ar₁.alloc n = some (ar₂, ⟨id.pos, n⟩) ∧
        ar'.allocator = ar₂.allocator ∧
        MemTrieNodePtr.sizeOfAllocation ar'.memory id.pos = some n := by
  unfold MemTrieNodeId.newImpl at h
  obtain ⟨ar₁, hrefs, h⟩ := Option.bind_eq_some_iff.mp h
  obtain ⟨mu, hmu, h⟩ := Option.bind_eq_some_iff.mp h
  obtain ⟨⟨ar₂, data⟩, henc, h⟩ := Option.bind_eq_some_iff.mp h
  obtain ⟨rfl, rfl⟩ := Prod.mk.inj (Option.some.inj h)
  have hids : ∀ c ∈ node.childIds, c.pos.IsU32 := fun c hc => by
    obtain ⟨s, hs, hpos⟩ := hlive c hc
    exact hpos ▸ hinv.isU32_of_live hs
  obtain ⟨hview, ar₃, halloc, hal, hsize⟩ :=
    InputMemTrieNode.encode_round_trip hbounds hids (InputMemTrieNode.memoryUsage_lt hmu) henc
  exact ⟨hview, ar₁, ar₃, data.len, hrefs, halloc, hal, hsize⟩

/-- A branch node with the node `id` as its one child, at nibble 1. -/
def branchOver (id : MemTrieNodeId) : InputMemTrieNode :=
  .branch (List.Vector.ofFn fun i : Fin 16 => if i.val = 1 then some id else none)

theorem childIds_branchOver (id : MemTrieNodeId) : (branchOver id).childIds = [id] := rfl

/-- `new_impl` of a branch over a leaf that `new_impl` wrote first: the leaf is live when the
branch references it. -/
theorem newImpl_view_round_trip_branch : ∃ ar₁ id₁ ar₂ id₂,
    MemTrieNodeId.newImpl Arena.new (.leaf (.inlined [7]) [0x32]) none = some (ar₁, id₁) ∧
      MemTrieNodeId.newImpl ar₁ (branchOver id₁) none = some (ar₂, id₂) ∧
      ((∃ view, MemTrieNodePtr.viewImpl ar₂.memory id₂.pos = some view ∧
          view.Shows ar₂.memory (branchOver id₁)) ∧
        ∃ ar₃ ar₄ n, (branchOver id₁).addChildRefs ar₁ = some ar₃ ∧
          ar₃.alloc n = some (ar₄, ⟨id₂.pos, n⟩) ∧ ar₂.allocator = ar₄.allocator ∧
          MemTrieNodePtr.sizeOfAllocation ar₂.memory id₂.pos = some n) := by
  obtain ⟨r, h⟩ := Option.isSome_iff_exists.mp (show ((MemTrieNodeId.newImpl Arena.new
    (.leaf (.inlined [7]) [0x32]) none).bind fun r₁ =>
      MemTrieNodeId.newImpl r₁.1 (branchOver r₁.2) none).isSome = true by decide)
  obtain ⟨⟨ar₁, id₁⟩, h₁, h₂⟩ := Option.bind_eq_some_iff.mp h
  obtain ⟨s, free', hpos, hinv⟩ := MemTrieNodeId.newImpl_leaf_arenaInv arenaInv_new
    (by unfold InputMemTrieNode.InBounds; decide) h₁
  have hlive : ∀ c ∈ (branchOver id₁).childIds, ∃ s' ∈ [] ++ [s], s'.pos = c.pos := by
    intro c hc
    rw [childIds_branchOver, List.mem_singleton] at hc
    exact ⟨s, List.mem_append_right _ (List.mem_singleton_self _), hc ▸ hpos⟩
  exact ⟨ar₁, id₁, r.1, r.2, h₁, h₂, MemTrieNodeId.newImpl_view_round_trip hinv hlive trivial h₂⟩

end Unc
