import Mathlib
import UncNode.Lib.RcHeap
import UncNode.Trie.MemTrieNode

/-!
# Node refcounts in the arena — `core/store/src/trie/mem/node/encoding.rs`

A node keeps its refcount in the common header at the start of its allocation. `add_ref` raises
it; `remove_ref` lowers it, and a node left without references is deallocated and drops the
references it holds to its children, recursively. The nodes of the arena are a refcounted heap
(`RcHeap`) with a cell at each node's position and the node's children as the cell's children:
`Stores` says that the arena holds such a heap, each node's allocation holding the bytes
`new_impl` writes for it with the heap's refcount in its header.

* `Stored.viewImpl`: every node of the heap decodes to itself;
* `Stores.addRef`, `Stores.newImpl`: `add_ref` takes a reference and `new_impl` allocates a
  cell, as the heap does;
* `Stores.removeRef`: `remove_ref` and the heap's `release` fail together, and otherwise leave
  an arena that holds the released heap;
* `NodesReachable.nodesInv`: along every run of the three calls the arena stores the heap, the
  counts are right and the heap has no cycle; so
* **`NodesReachable.header_refcount`**: the refcount in each node's header is the number of
  references to it, from other nodes and from outside;
* **`NodesReachable.viewImpl_of_reach`**: every node reached from a held reference decodes to
  itself;
* **`NodesReachable.removeRef_isSome`**: `remove_ref` of a held reference returns;
* **`NodesReachable.activeAllocsCount_eq`**: the arena holds one allocation per node.
-/

set_option autoImplicit false

namespace Unc

/-! ## `remove_ref` -/

/-- `MemTrieNodeView::iter_children`, read to the end. -/
def MemTrieNodeView.iterChildren (m : ArenaMemory) : MemTrieNodeView → Option (List ArenaPos)
  | .leaf _ _ => some []
  | .extension _ _ _ child => some [child]
  | .branch _ _ children => children.iter m
  | .branchWithValue _ _ children _ => children.iter m

/-- `MemTrieNodeId::remove_ref`. The recursion into the children has no bound in the code; here
it runs on fuel. `header.refcount - 1` is a `u32` subtraction, which panics at zero. -/
def MemTrieNodeId.removeRef : Nat → MemTrieNodeId → Arena → Option (Arena × Nat)
  | 0, _, _ => none
  | fuel + 1, id, ar => do
    let decoder : RawDecoder := ⟨id.pos, 0⟩
    let header ← decoder.peek ar.memory CommonHeader.serializedSize CommonHeader.deserialize
    let newRefcount ← if 1 ≤ header.refcount then some (header.refcount - 1) else none
    let m ← decoder.overwrite ar.memory { header with refcount := newRefcount }.serialize
    let ar : Arena := { ar with memory := m }
    if newRefcount = 0 then
      let view ← MemTrieNodePtr.viewImpl ar.memory id.pos
      let childrenToUnref ← view.iterChildren ar.memory
      let allocSize ← MemTrieNodePtr.sizeOfAllocation ar.memory id.pos
      let ar ← ar.dealloc id.pos allocSize
      let ar ← childrenToUnref.foldlM
        (fun ar child => (MemTrieNodeId.removeRef fuel ⟨child⟩ ar).map (·.1)) ar
      pure (ar, newRefcount)
    else pure (ar, newRefcount)

/-! ## A node's bytes -/

/-- The kind of a node. -/
def InputMemTrieNode.kind : InputMemTrieNode → NodeKind
  | .leaf _ _ => .leaf
  | .extension _ _ => .extension
  | .branch _ => .branch
  | .branchWithValue _ _ => .branchWithValue

/-- The bytes of a node's allocation with the refcount `rc` and the non-leaf header `nonleaf` in
its header: what `new_impl` writes, with `rc = 0`. -/
def InputMemTrieNode.image (rc : Nat) (nonleaf : NonLeafHeader) :
    InputMemTrieNode → Option (List UInt8)
  | .leaf value ext => (EncodedValueHeader.fromInput value).map fun vh =>
    LeafHeader.serialize ⟨⟨rc, .leaf⟩, vh, EncodedExtensionHeader.fromInput ext⟩ ++ ext ++
      value.flexibleData
  | .extension ext child => some (ExtensionHeader.serialize
    ⟨⟨rc, .extension⟩, nonleaf, child.pos, EncodedExtensionHeader.fromInput ext⟩ ++ ext)
  | .branch children => some (BranchHeader.serialize
    ⟨⟨rc, .branch⟩, nonleaf, EncodedChildrenHeader.fromInput children⟩ ++
      childrenData children.toList)
  | .branchWithValue children value => (EncodedValueHeader.fromInput value).map fun vh =>
    BranchWithValueHeader.serialize ⟨⟨rc, .branchWithValue⟩, nonleaf, vh,
      EncodedChildrenHeader.fromInput children⟩ ++ childrenData children.toList ++
        value.flexibleData

namespace InputMemTrieNode

variable {node : InputMemTrieNode} {rc : Nat} {nonleaf : NonLeafHeader} {bytes : List UInt8}

/-- The image starts with the common header, and the rest of it does not depend on the
refcount. -/
theorem image_eq_common (h : node.image rc nonleaf = some bytes) :
    ∃ rest, bytes = CommonHeader.serialize ⟨rc, node.kind⟩ ++ rest ∧
      ∀ rc', node.image rc' nonleaf = some (CommonHeader.serialize ⟨rc', node.kind⟩ ++ rest) := by
  cases node with
  | leaf value ext =>
    obtain ⟨vh, hvh, rfl⟩ := Option.map_eq_some_iff.mp h
    refine ⟨vh.serialize ++ ((EncodedExtensionHeader.fromInput ext).serialize ++
      (ext ++ value.flexibleData)), ?_, fun rc' => ?_⟩ <;>
      simp [image, hvh, LeafHeader.serialize_eq, kind]
  | extension ext child =>
    obtain rfl := Option.some.inj h.symm
    refine ⟨nonleaf.serialize ++ (child.pos.toBytes ++
      ((EncodedExtensionHeader.fromInput ext).serialize ++ ext)), ?_, fun rc' => ?_⟩ <;>
      simp [image, ExtensionHeader.serialize_eq, kind]
  | branch children =>
    obtain rfl := Option.some.inj h.symm
    refine ⟨nonleaf.serialize ++ ((EncodedChildrenHeader.fromInput children).serialize ++
      childrenData children.toList), ?_, fun rc' => ?_⟩ <;>
      simp [image, BranchHeader.serialize_eq, kind]
  | branchWithValue children value =>
    obtain ⟨vh, hvh, rfl⟩ := Option.map_eq_some_iff.mp h
    refine ⟨nonleaf.serialize ++ (vh.serialize ++
      ((EncodedChildrenHeader.fromInput children).serialize ++
        (childrenData children.toList ++ value.flexibleData))), ?_, fun rc' => ?_⟩ <;>
      simp [image, hvh, BranchWithValueHeader.serialize_eq, kind]

/-- An image is at least a leaf's header long. -/
theorem le_length_image (h : node.image rc nonleaf = some bytes) : 11 ≤ bytes.length := by
  cases node with
  | leaf value ext =>
    obtain ⟨vh, -, rfl⟩ := Option.map_eq_some_iff.mp h
    simp only [List.length_append, LeafHeader.length_serialize]
    omega
  | extension ext child =>
    obtain rfl := Option.some.inj h.symm
    simp only [List.length_append, ExtensionHeader.length_serialize]
    omega
  | branch children =>
    obtain rfl := Option.some.inj h.symm
    simp only [List.length_append, BranchHeader.length_serialize]
    omega
  | branchWithValue children value =>
    obtain ⟨vh, -, rfl⟩ := Option.map_eq_some_iff.mp h
    simp only [List.length_append, BranchWithValueHeader.length_serialize]
    omega

end InputMemTrieNode

/-- The common header at the start of an image reads as the refcount and the kind. -/
theorem RawDecoder.peek_of_image {m : ArenaMemory} {p : ArenaPos} {node : InputMemTrieNode}
    {rc : Nat} {nonleaf : NonLeafHeader} {bytes : List UInt8}
    (himage : node.image rc nonleaf = some bytes) (hread : m.rawSlice p bytes.length = some bytes)
    (hrc : rc < 2 ^ 32) (hfit : p.pos < 2 ^ 32) :
    (⟨p, 0⟩ : RawDecoder).peek m CommonHeader.serializedSize CommonHeader.deserialize =
      some ⟨rc, node.kind⟩ := by
  have hlen := InputMemTrieNode.le_length_image himage
  obtain ⟨rest, rfl, -⟩ := InputMemTrieNode.image_eq_common himage
  rw [RawDecoder.peek_eq hread (by dsimp only; omega) _ (by show 0 + 5 ≤ _; omega),
    List.drop_zero, show CommonHeader.serializedSize = 5 from rfl,
    List.take_left' (CommonHeader.length_serialize _)]
  exact Borsh.run_eq_some (by simpa using CommonHeader.deserialize_append hrc [])

/-- **An image decodes to its node**, and `size_of_allocation` reads its length. -/
theorem MemTrieNodePtr.viewImpl_of_image {m : ArenaMemory} {p : ArenaPos}
    {node : InputMemTrieNode} {rc : Nat} {nonleaf : NonLeafHeader} {bytes : List UInt8}
    (himage : node.image rc nonleaf = some bytes) (hread : m.rawSlice p bytes.length = some bytes)
    (hrc : rc < 2 ^ 32) (hu : nonleaf.memoryUsage < 2 ^ 64) (hbounds : node.InBounds)
    (hids : ∀ c ∈ node.childIds, c.pos.IsU32) (hfit : p.pos + bytes.length < 2 ^ 32) :
    (∃ view, viewImpl m p = some view ∧ view.Shows m node) ∧
      sizeOfAllocation m p = some bytes.length := by
  cases node with
  | leaf value ext =>
    obtain ⟨vh, hvh, rfl⟩ := Option.map_eq_some_iff.mp himage
    simp only [List.length_append, LeafHeader.length_serialize] at hread hfit ⊢
    exact viewImpl_leaf hbounds.2 hvh hbounds.1 hrc hread (by omega)
  | extension ext child =>
    obtain rfl := Option.some.inj himage.symm
    simp only [List.length_append, ExtensionHeader.length_serialize] at hread hfit ⊢
    exact viewImpl_extension hbounds (hids child (by simp [InputMemTrieNode.childIds])) hu hrc
      hread (by omega)
  | branch children =>
    obtain rfl := Option.some.inj himage.symm
    simp only [List.length_append, BranchHeader.length_serialize] at hread hfit ⊢
    exact viewImpl_branch hids hu hrc hread (by omega)
  | branchWithValue children value =>
    obtain ⟨vh, hvh, rfl⟩ := Option.map_eq_some_iff.mp himage
    simp only [List.length_append, BranchWithValueHeader.length_serialize] at hread hfit ⊢
    exact viewImpl_branchWithValue hids hbounds hvh hu hrc hread (by omega)

/-- The children a view shows are the ones `iter_children` lists. -/
theorem MemTrieNodeView.iterChildren_of_shows {m : ArenaMemory} {view : MemTrieNodeView}
    {node : InputMemTrieNode} (h : view.Shows m node) :
    view.iterChildren m = some (node.childIds.map (·.pos)) := by
  cases view <;> cases node <;> simp only [Shows] at h
  case leaf.leaf => rfl
  case extension.extension => rw [h.2]; rfl
  case branch.branch => exact h.2
  case branchWithValue.branchWithValue => exact h.1.2

/-- What `encode` does, in terms of the image: one allocation of the image's length, and one
write of the image into it. -/
theorem InputMemTrieNode.encode_image {ar ar' : Arena} {node : InputMemTrieNode} {mu : Nat}
    {nodeHash : Option CryptoHash} {data : ArenaSliceMut} (hbounds : node.InBounds)
    (h : node.encode ar mu nodeHash = some (ar', data)) :
    ∃ ar₁ bytes, node.image 0 (NonLeafHeader.new mu nodeHash) = some bytes ∧
      ar.alloc bytes.length = some (ar₁, data) ∧ data.len = bytes.length ∧
      ar'.allocator = ar₁.allocator ∧ ar₁.memory.writeSlice data.pos bytes = some ar'.memory := by
  cases node with
  | leaf value ext =>
    obtain ⟨vh, ar₁, hvh, halloc, hal, hlen, hwrite, -⟩ := encode_leaf hbounds.2 hbounds.1 h
    refine ⟨ar₁, _, by simp [image, hvh], ?_, ?_, hal, hwrite⟩ <;>
      simp only [List.length_append, LeafHeader.length_serialize, ← hlen, halloc]
  | extension ext child =>
    obtain ⟨ar₁, halloc, hal, hlen, hwrite, -⟩ := encode_extension hbounds h
    refine ⟨ar₁, _, rfl, ?_, ?_, hal, hwrite⟩ <;>
      simp only [List.length_append, ExtensionHeader.length_serialize, ← hlen, halloc]
  | branch children =>
    obtain ⟨ar₁, halloc, hal, hlen, hwrite, -⟩ := encode_branch h
    refine ⟨ar₁, _, rfl, ?_, ?_, hal, hwrite⟩ <;>
      simp only [List.length_append, BranchHeader.length_serialize, ← hlen, halloc]
  | branchWithValue children value =>
    obtain ⟨vh, ar₁, hvh, halloc, hal, hlen, hwrite, -⟩ := encode_branchWithValue hbounds h
    refine ⟨ar₁, _, by simp [image, hvh], ?_, ?_, hal, hwrite⟩ <;>
      simp only [List.length_append, BranchWithValueHeader.length_serialize, ← hlen, halloc]

/-! ## Live allocations -/

instance : Std.Symm ArenaSliceMut.Apart := ⟨fun _ _ h => h.symm⟩

/-- Apart regions that are not empty start at different positions. -/
theorem ArenaSliceMut.Apart.pos_ne {s t : ArenaSliceMut} (h : ArenaSliceMut.Apart s t)
    (hs : 1 ≤ s.len) (ht : 1 ≤ t.len) : s.pos ≠ t.pos := by
  intro hpos
  unfold ArenaSliceMut.Apart at h
  rw [hpos] at h
  omega

namespace ArenaInv

variable {ar : Arena} {live : List ArenaSliceMut} {free : Nat → List ArenaPos}
  {s t : ArenaSliceMut}

/-- Live allocations at different positions are apart. -/
theorem apart_of_pos_ne (hinv : ArenaInv ar live free) (hs : s ∈ live) (ht : t ∈ live)
    (hpos : s.pos ≠ t.pos) : ArenaSliceMut.Apart s t :=
  hinv.live_apart.forall hs ht fun hst => hpos (hst ▸ rfl)

/-- Two live allocations at one position are one allocation. -/
theorem eq_of_pos_eq (hinv : ArenaInv ar live free) (hs : s ∈ live) (ht : t ∈ live)
    (hpos : s.pos = t.pos) : s = t := by
  by_contra hne
  exact (hinv.live_apart.forall hs ht hne).pos_ne (hinv.live_size s hs).1
    (hinv.live_size t ht).1 hpos

theorem live_nodup (hinv : ArenaInv ar live free) : live.Nodup :=
  hinv.live_apart.imp_of_mem fun {s _} hs _ hap hst => by
    subst hst
    exact hap.pos_ne (hinv.live_size s hs).1 (hinv.live_size s hs).1 rfl

/-- A live allocation ends inside its chunk, below `2^32`. -/
theorem end_lt (hinv : ArenaInv ar live free) (hs : s ∈ live) : s.pos.pos + s.len < 2 ^ 32 := by
  obtain ⟨-, hend, -⟩ := hinv.inside _ (mem_blocks_of_live hs)
  have hres := len_le_reservedSize (hinv.live_size s hs).1 (hinv.live_size s hs).2
  simp only [ArenaSliceMut.reserved] at hend
  unfold chunkSize at hend
  omega

end ArenaInv

/-! ## The arena stores a heap of nodes -/

/-- The nodes of an arena as a refcounted heap: the cell at a node's position holds its refcount
and the node. -/
abbrev NodeHeap : Type := RcHeap.Heap ArenaPos InputMemTrieNode

/-- The positions of a node's children: the references the node holds. -/
def InputMemTrieNode.childPositions (node : InputMemTrieNode) : List ArenaPos :=
  node.childIds.map (·.pos)

/-- The numbers in a node's headers fit their fields: the `u32` refcount, the `u64` memory
usage, the lengths, and the children's positions. -/
structure InputMemTrieNode.Fits (node : InputMemTrieNode) (rc : Nat) (nonleaf : NonLeafHeader) :
    Prop where
  refcount : rc < 2 ^ 32
  memoryUsage : nonleaf.memoryUsage < 2 ^ 64
  bounds : node.InBounds
  ids : ∀ c ∈ node.childIds, c.pos.IsU32

/-- The live allocation of `bytes.length` bytes at `p` holds `bytes`, the image of the cell's node
with the cell's refcount. -/
structure Stored (m : ArenaMemory) (live : List ArenaSliceMut) (p : ArenaPos)
    (c : RcHeap.Cell InputMemTrieNode) (nonleaf : NonLeafHeader) (bytes : List UInt8) : Prop where
  image : c.payload.image c.refcount nonleaf = some bytes
  fits : c.payload.Fits c.refcount nonleaf
  live : ⟨p, bytes.length⟩ ∈ live
  read : m.rawSlice p bytes.length = some bytes

/-- The arena, with live allocations `live` and free lists `free`, stores the heap `h`: every
cell is stored at its position, and every live allocation is a cell's. -/
structure Stores (ar : Arena) (live : List ArenaSliceMut) (free : Nat → List ArenaPos)
    (h : NodeHeap) : Prop where
  arena : ArenaInv ar live free
  nodes : ∀ p c, h.cells p = some c → ∃ nonleaf bytes, Stored ar.memory live p c nonleaf bytes
  live : ∀ s ∈ live, (h.cells s.pos).isSome

variable {ar ar' : Arena} {live : List ArenaSliceMut} {free : Nat → List ArenaPos}
  {h : NodeHeap} {p : ArenaPos} {c : RcHeap.Cell InputMemTrieNode}

/-- `overwrite` at the start of a node writes at the node's position. -/
theorem RawDecoder.overwrite_zero {m : ArenaMemory} (hp : p.pos < 2 ^ 32) (bytes : List UInt8) :
    (⟨p, 0⟩ : RawDecoder).overwrite m bytes = m.writeSlice p bytes := by
  simp only [RawDecoder.overwrite, ArenaPos.offsetBy, Nat.add_zero, hp, ↓reduceIte,
    Option.bind_eq_bind, Option.bind_some]

namespace Stored

variable {m : ArenaMemory} {nonleaf : NonLeafHeader} {bytes : List UInt8}

/-- A stored node decodes to itself, and `size_of_allocation` reads its allocation's size. -/
theorem viewImpl (hst : Stored m live p c nonleaf bytes) (hinv : ArenaInv ar live free) :
    (∃ view, MemTrieNodePtr.viewImpl m p = some view ∧ view.Shows m c.payload) ∧
      MemTrieNodePtr.sizeOfAllocation m p = some bytes.length :=
  MemTrieNodePtr.viewImpl_of_image hst.image hst.read hst.fits.refcount hst.fits.memoryUsage
    hst.fits.bounds hst.fits.ids (hinv.end_lt hst.live)

theorem pos_lt (hst : Stored m live p c nonleaf bytes) (hinv : ArenaInv ar live free) :
    p.pos < 2 ^ 32 := by
  have hend := hinv.end_lt hst.live
  dsimp only at hend
  omega

/-- The common header of a stored node reads as the cell's refcount and the node's kind. -/
theorem peek (hst : Stored m live p c nonleaf bytes) (hinv : ArenaInv ar live free) :
    (⟨p, 0⟩ : RawDecoder).peek m CommonHeader.serializedSize CommonHeader.deserialize =
      some ⟨c.refcount, c.payload.kind⟩ :=
  RawDecoder.peek_of_image hst.image hst.read hst.fits.refcount (hst.pos_lt hinv)

end Stored

namespace Stores

/-- Only the cells of the heap matter. -/
theorem congr {h' : NodeHeap} (hs : Stores ar live free h) (hcells : h'.cells = h.cells) :
    Stores ar live free h' :=
  ⟨hs.arena, hcells ▸ hs.nodes, hcells ▸ hs.live⟩

/-- Two cells' allocations are apart. -/
theorem apart (hs : Stores ar live free h) {q : ArenaPos} {nonleaf nonleaf' : NonLeafHeader}
    {c' : RcHeap.Cell InputMemTrieNode} {bytes bytes' : List UInt8}
    (hp : Stored ar.memory live p c nonleaf bytes) (hq : Stored ar.memory live q c' nonleaf' bytes')
    (hpq : q ≠ p) : ArenaSliceMut.Apart ⟨q, bytes'.length⟩ ⟨p, bytes.length⟩ :=
  hs.arena.apart_of_pos_ne hq.live hp.live hpq

/-- A common header fits at the start of a node's allocation. -/
theorem writeSlice_header (hs : Stores ar live free h) (hc : h.cells p = some c)
    (header : CommonHeader) : ∃ m, ar.memory.writeSlice p header.serialize = some m := by
  obtain ⟨nonleaf, bytes, hst⟩ := hs.nodes p c hc
  obtain ⟨k, hk, hend⟩ := ArenaMemory.inBounds_iff.mp (hs.arena.inBounds_live hst.live)
  have hlen := InputMemTrieNode.le_length_image hst.image
  refine ArenaMemory.writeSlice_isSome (ArenaMemory.inBounds_iff.mpr ⟨k, hk, ?_⟩)
  rw [CommonHeader.length_serialize]
  dsimp only at hend
  omega

/-- **A write of a node's common header** with the refcount `rc` stores the heap with `rc` in the
node's cell. -/
theorem setRefcount (hs : Stores ar live free h) (hc : h.cells p = some c) {rc : Nat}
    (hrc : rc < 2 ^ 32) {m : ArenaMemory}
    (hw : ar.memory.writeSlice p (CommonHeader.serialize ⟨rc, c.payload.kind⟩) = some m) :
    Stores ⟨m, ar.allocator⟩ live free (h.set p { c with refcount := rc }) := by
  obtain ⟨nonleaf, bytes, hst⟩ := hs.nodes p c hc
  obtain ⟨rest, rfl, himage⟩ := InputMemTrieNode.image_eq_common hst.image
  have hlen : ∀ rc', (CommonHeader.serialize ⟨rc', c.payload.kind⟩).length = 5 :=
    fun _ => CommonHeader.length_serialize _
  -- the header is the first five bytes of the node's allocation
  have hwithin : ArenaSliceMut.Within ⟨p, (CommonHeader.serialize ⟨rc, c.payload.kind⟩).length⟩
      ⟨p, (CommonHeader.serialize ⟨c.refcount, c.payload.kind⟩ ++ rest).length⟩ := by
    refine ⟨rfl, le_refl _, ?_⟩
    simp only [List.length_append, hlen]
    omega
  have hrest : ar.memory.rawSlice
      ⟨p.chunk, p.pos + (CommonHeader.serialize ⟨rc, c.payload.kind⟩).length⟩ rest.length =
        some rest := by
    rw [hlen, ArenaMemory.rawSlice_sub hst.read (by simp [hlen]), List.drop_left' (hlen _),
      List.take_length]
  refine ⟨hs.arena.write hst.live hwithin hw, fun q c' hc' => ?_, fun s hs' => ?_⟩
  · by_cases hq : q = p
    · subst hq
      obtain rfl := Option.some.inj ((RcHeap.Heap.cells_set_self _ _ _).symm.trans hc')
      have hlive := hst.live
      simp only [List.length_append, hlen] at hlive
      refine ⟨nonleaf, _, himage rc, { hst.fits with refcount := hrc }, ?_, ?_⟩
      · simpa only [List.length_append, hlen] using hlive
      · rw [List.length_append]
        exact ArenaMemory.rawSlice_writeSlice_prefix hw hrest
    · rw [RcHeap.Heap.cells_set_of_ne hq] at hc'
      obtain ⟨nonleaf', bytes', hst'⟩ := hs.nodes q c' hc'
      refine ⟨nonleaf', bytes', { hst' with read := ?_ }⟩
      rw [ArenaMemory.rawSlice_writeSlice_of_apart hw
        ((hs.apart hst hst' hq).mono ⟨rfl, le_refl _, le_refl _⟩ hwithin)]
      exact hst'.read
  · by_cases hsp : s.pos = p
    · rw [hsp, RcHeap.Heap.cells_set_self]
      rfl
    · rw [RcHeap.Heap.cells_set_of_ne hsp]
      exact hs.live s hs'

/-- **Deallocating a node's allocation** stores the heap without the node. -/
theorem dealloc (hs : Stores ar live free h) {nonleaf : NonLeafHeader} {bytes : List UInt8}
    (hst : Stored ar.memory live p c nonleaf bytes) (hd : ar.dealloc p bytes.length = some ar') :
    ∃ free', Stores ar' (live.erase ⟨p, bytes.length⟩) free' (h.erase p) := by
  obtain ⟨k, -, hinv⟩ := hs.arena.dealloc hst.live hd
  have hlen := InputMemTrieNode.le_length_image hst.image
  refine ⟨_, hinv, fun q c' hc' => ?_, fun s hs' => ?_⟩
  · have hq : q ≠ p := fun hq => by subst hq; simp at hc'
    rw [RcHeap.Heap.cells_erase_of_ne hq] at hc'
    obtain ⟨nonleaf', bytes', hst'⟩ := hs.nodes q c' hc'
    -- the link written into the freed region is apart from every other node
    have hap : ArenaSliceMut.Apart ⟨q, bytes'.length⟩ ⟨p, 8⟩ :=
      (hs.apart hst hst' hq).mono ⟨rfl, le_refl _, le_refl _⟩
        ⟨rfl, le_refl _, by dsimp only; omega⟩
    refine ⟨nonleaf', bytes', { hst' with live := ?_, read := ?_ }⟩
    · exact (List.mem_erase_of_ne fun heq => hq (congrArg ArenaSliceMut.pos heq)).mpr hst'.live
    · rw [Arena.rawSlice_dealloc hd hap]
      exact hst'.read
  · obtain ⟨hne, hs''⟩ := hs.arena.live_nodup.mem_erase_iff.mp hs'
    have hsp : s.pos ≠ p := fun hsp => hne (hs.arena.eq_of_pos_eq hs'' hst.live hsp)
    rw [RcHeap.Heap.cells_erase_of_ne hsp]
    exact hs.live s hs''

/-! ## `add_ref` -/

/-- **`add_ref` takes a reference as the heap does**: it returns the raised refcount, and the
arena stores the heap with one more reference to the node. -/
theorem addRef (hs : Stores ar live free h) (hc : h.cells p = some c) {n : Nat}
    (hr : MemTrieNodeId.addRef ⟨p⟩ ar = some (ar', n)) :
    n = c.refcount + 1 ∧ Stores ar' live free (h.incr p) := by
  obtain ⟨nonleaf, bytes, hst⟩ := hs.nodes p c hc
  simp only [MemTrieNodeId.addRef, hst.peek hs.arena, Option.bind_eq_bind, Option.bind_some,
    RawDecoder.overwrite_zero (hst.pos_lt hs.arena)] at hr
  split_ifs at hr with hlt
  · obtain ⟨m, hm, hr⟩ := Option.bind_eq_some_iff.mp hr
    obtain ⟨rfl, rfl⟩ := Prod.mk.inj (Option.some.inj hr)
    rw [RcHeap.Heap.incr_of_cells hc]
    exact ⟨rfl, hs.setRefcount hc hlt hm⟩
  · simp at hr

/-- `add_ref` of a node whose refcount stays a `u32` returns. -/
theorem addRef_isSome (hs : Stores ar live free h) (hc : h.cells p = some c)
    (hlt : c.refcount + 1 < 2 ^ 32) :
    ∃ ar', MemTrieNodeId.addRef ⟨p⟩ ar = some (ar', c.refcount + 1) := by
  obtain ⟨nonleaf, bytes, hst⟩ := hs.nodes p c hc
  obtain ⟨m, hm⟩ := hs.writeSlice_header hc ⟨c.refcount + 1, c.payload.kind⟩
  refine ⟨⟨m, ar.allocator⟩, ?_⟩
  simp only [MemTrieNodeId.addRef, hst.peek hs.arena, Option.bind_eq_bind, Option.bind_some,
    if_pos hlt, RawDecoder.overwrite_zero (hst.pos_lt hs.arena), hm]
  rfl

/-! ## `new_impl` -/

/-- The `add_ref`s of `new_impl`'s first loop, one for each present child. -/
theorem foldlM_addRef : ∀ (l : List (Option MemTrieNodeId)) {ar ar₁ : Arena} {h : NodeHeap},
    Stores ar live free h → (∀ x ∈ (l.filterMap id).map (·.pos), (h.cells x).isSome) →
    l.foldlM (fun ar child => match child with
      | some child => (child.addRef ar).map (·.1)
      | none => some ar) ar = some ar₁ →
    Stores ar₁ live free (((l.filterMap id).map (·.pos)).foldl RcHeap.Heap.incr h)
  | [], ar, ar₁, h, hs, _, hr => by
    obtain rfl : ar = ar₁ := by simpa using hr
    exact hs
  | none :: l, ar, ar₁, h, hs, hch, hr => by
    rw [List.foldlM_cons] at hr
    exact foldlM_addRef l hs hch hr
  | some child :: l, ar, ar₁, h, hs, hch, hr => by
    rw [List.foldlM_cons] at hr
    obtain ⟨ar₂, h₂, hr⟩ := Option.bind_eq_some_iff.mp hr
    obtain ⟨⟨ar₃, n⟩, hadd, rfl⟩ := Option.map_eq_some_iff.mp h₂
    obtain ⟨c, hc⟩ := Option.isSome_iff_exists.mp (hch child.pos List.mem_cons_self)
    have hs₂ := (hs.addRef hc hadd).2
    exact foldlM_addRef l hs₂ (fun x hx => by
      rw [RcHeap.Heap.isSome_cells_incr]
      exact hch x (List.mem_cons_of_mem _ hx)) hr

/-- **The first loop of `new_impl`** takes a reference to each child, as the heap does. -/
theorem addChildRefs (hs : Stores ar live free h) {node : InputMemTrieNode}
    (hch : ∀ x ∈ node.childPositions, (h.cells x).isSome) {ar₁ : Arena}
    (hr : node.addChildRefs ar = some ar₁) :
    Stores ar₁ live free (node.childPositions.foldl RcHeap.Heap.incr h) := by
  cases node with
  | leaf value ext =>
    obtain rfl := Option.some.inj hr
    exact hs
  | extension ext child =>
    obtain ⟨⟨ar₂, n⟩, hadd, rfl⟩ := Option.map_eq_some_iff.mp hr
    obtain ⟨c, hc⟩ := Option.isSome_iff_exists.mp (hch child.pos (by
      simp [InputMemTrieNode.childPositions, InputMemTrieNode.childIds]))
    exact (hs.addRef hc hadd).2
  | branch children => exact foldlM_addRef children.toList hs hch hr
  | branchWithValue children value => exact foldlM_addRef children.toList hs hch hr

/-- A node written into a fresh allocation is stored as a new cell, with no reference yet. -/
theorem allocNode (hs : Stores ar live free h) {node : InputMemTrieNode} {nonleaf : NonLeafHeader}
    {bytes : List UInt8} (himage : node.image 0 nonleaf = some bytes)
    (hfits : node.Fits 0 nonleaf) {ar₁ : Arena} {data : ArenaSliceMut}
    (halloc : ar.alloc bytes.length = some (ar₁, data)) {m : ArenaMemory}
    (hwrite : ar₁.memory.writeSlice data.pos bytes = some m) :
    h.cells data.pos = none ∧
      ∃ free', Stores ⟨m, ar₁.allocator⟩ (live ++ [data]) free' (h.set data.pos ⟨0, node⟩) := by
  have hlen := InputMemTrieNode.le_length_image himage
  have hmax : bytes.length ≤ maxAllocSize := by
    obtain ⟨r, hr, -⟩ := Option.map_eq_some_iff.mp halloc
    exact (Allocator.allocate_eq_some hr).1
  obtain ⟨hdlen, free', hinv₁⟩ := hs.arena.alloc (by omega) hmax halloc
  have hdata : data ∈ live ++ [data] := List.mem_append_right _ (List.mem_singleton_self _)
  -- the new allocation is apart from every live one
  have hapart : ∀ s ∈ live, ArenaSliceMut.Apart s data := fun s hs' =>
    (List.pairwise_append.mp hinv₁.live_apart).2.2 s hs' data (List.mem_singleton_self _)
  have hwithin : ArenaSliceMut.Within ⟨data.pos, bytes.length⟩ data :=
    ⟨rfl, le_refl _, by dsimp only; omega⟩
  have hfresh : h.cells data.pos = none := by
    by_contra hsome
    obtain ⟨c', hc'⟩ := Option.ne_none_iff_exists'.mp hsome
    obtain ⟨nonleaf', bytes', hst'⟩ := hs.nodes _ c' hc'
    have hlen' := InputMemTrieNode.le_length_image hst'.image
    exact (hapart _ hst'.live).pos_ne (by dsimp only; omega) (by omega) rfl
  refine ⟨hfresh, free', hinv₁.write hdata hwithin hwrite, fun q c' hc' => ?_, fun s hs' => ?_⟩
  · by_cases hq : q = data.pos
    · subst hq
      obtain rfl := Option.some.inj ((RcHeap.Heap.cells_set_self _ _ _).symm.trans hc')
      refine ⟨nonleaf, bytes, himage, hfits, ?_, ArenaMemory.rawSlice_writeSlice_self hwrite⟩
      rw [← hdlen]
      exact hdata
    · rw [RcHeap.Heap.cells_set_of_ne hq] at hc'
      obtain ⟨nonleaf', bytes', hst'⟩ := hs.nodes q c' hc'
      refine ⟨nonleaf', bytes', { hst' with live := List.mem_append_left _ hst'.live, read := ?_ }⟩
      rw [ArenaMemory.rawSlice_writeSlice_of_apart hwrite
          ((hapart _ hst'.live).mono ⟨rfl, le_refl _, le_refl _⟩ hwithin),
        Arena.rawSlice_alloc halloc (hs.arena.inBounds_live hst'.live)]
      exact hst'.read
  · by_cases hsd : s.pos = data.pos
    · rw [hsd, RcHeap.Heap.cells_set_self]
      rfl
    · rw [RcHeap.Heap.cells_set_of_ne hsd]
      rcases List.mem_append.mp hs' with hs' | hs'
      · exact hs.live s hs'
      · exact absurd (congrArg ArenaSliceMut.pos (List.mem_singleton.mp hs')) hsd

/-- **`new_impl` allocates a cell as the heap does**: the node's position held no cell, and the
arena stores the heap with the node allocated there, after a reference to each child. -/
theorem newImpl (hs : Stores ar live free h) {node : InputMemTrieNode}
    {nodeHash : Option CryptoHash} {id : MemTrieNodeId}
    (hch : ∀ x ∈ node.childPositions, (h.cells x).isSome) (hbounds : node.InBounds)
    (hr : MemTrieNodeId.newImpl ar node nodeHash = some (ar', id)) :
    h.cells id.pos = none ∧ ∃ live' free',
      Stores ar' live' free' (RcHeap.alloc InputMemTrieNode.childPositions h id.pos node) := by
  unfold MemTrieNodeId.newImpl at hr
  obtain ⟨ar₁, hrefs, hr⟩ := Option.bind_eq_some_iff.mp hr
  obtain ⟨mu, hmu, hr⟩ := Option.bind_eq_some_iff.mp hr
  obtain ⟨⟨⟨m₂, al₂⟩, data⟩, henc, hr⟩ := Option.bind_eq_some_iff.mp hr
  obtain ⟨rfl, rfl⟩ := Prod.mk.inj (Option.some.inj hr)
  obtain ⟨ar₃, bytes, himage, halloc, -, hal, hwrite⟩ := InputMemTrieNode.encode_image hbounds henc
  dsimp only at hal hwrite
  subst hal
  -- the children are nodes, so their positions fit the header's `u32`s
  have hids : ∀ c ∈ node.childIds, c.pos.IsU32 := fun c hc => by
    obtain ⟨cell, hcell⟩ := Option.isSome_iff_exists.mp (hch c.pos (List.mem_map_of_mem hc))
    obtain ⟨_, _, hst⟩ := hs.nodes c.pos cell hcell
    exact hs.arena.isU32_of_live hst.live
  have hfits : node.Fits 0 (NonLeafHeader.new mu nodeHash) :=
    ⟨by norm_num, InputMemTrieNode.memoryUsage_lt hmu, hbounds, hids⟩
  obtain ⟨hfresh, free', hs'⟩ :=
    (hs.addChildRefs hch hrefs).allocNode himage hfits halloc hwrite
  rw [RcHeap.Heap.cells_foldl_incr, Option.map_eq_none_iff] at hfresh
  exact ⟨hfresh, _, free', hs'⟩

/-! ## `remove_ref` -/

/-- **`remove_ref` drops a reference as the heap's `release` does.** Of a root reference, in a
heap whose counts are right, the two fail together; otherwise `remove_ref` returns the lowered
refcount, and the arena stores the released heap. By induction on the fuel: the children's loop
runs in lockstep with `release`'s, each child a root of the heap left so far. -/
theorem removeRef :
    ∀ {fuel : Nat} {p : ArenaPos} {ar : Arena} {live : List ArenaSliceMut}
      {free : Nat → List ArenaPos} {h : NodeHeap} {roots : Multiset ArenaPos}
      {c : RcHeap.Cell InputMemTrieNode},
      Stores ar live free h → RcHeap.Accounts InputMemTrieNode.childPositions roots h →
      p ∈ roots → h.cells p = some c →
      Option.Rel (fun r h' => r.2 = c.refcount - 1 ∧ ∃ live' free', Stores r.1 live' free' h')
        (MemTrieNodeId.removeRef fuel ⟨p⟩ ar)
        (RcHeap.release InputMemTrieNode.childPositions fuel p h)
  | 0, _, _, _, _, _, _, _, _, _, _, _ => by
    simp only [MemTrieNodeId.removeRef, RcHeap.release]
    exact .none
  | fuel + 1, p, ar, live, free, h, roots, c, hs, hacc, hp, hc => by
    obtain ⟨nonleaf, bytes, hst⟩ := hs.nodes p c hc
    -- a root reference is counted, so the refcount is at least one
    have hpos : 1 ≤ c.refcount := by
      have := hacc.counted p c hc
      have := Multiset.count_pos.mpr hp
      omega
    obtain ⟨m, hm⟩ := hs.writeSlice_header hc ⟨c.refcount - 1, c.payload.kind⟩
    have hs₁ := hs.setRefcount hc (by have := hst.fits.refcount; omega) hm
    simp only [MemTrieNodeId.removeRef, hst.peek hs.arena, Option.bind_eq_bind, Option.bind_some,
      if_pos hpos, RawDecoder.overwrite_zero (hst.pos_lt hs.arena),
      hm, RcHeap.release, hc, if_neg (show c.refcount ≠ 0 by omega)]
    by_cases hone : c.refcount = 1
    · -- the last reference: the node is freed and its children released in turn
      rw [if_pos (show c.refcount - 1 = 0 by omega), if_pos hone]
      obtain ⟨nonleaf₁, bytes₁, hst₁⟩ := hs₁.nodes p _ (RcHeap.Heap.cells_set_self _ _ _)
      obtain ⟨⟨view, hview, hshows⟩, hsize⟩ := hst₁.viewImpl hs₁.arena
      obtain ⟨ar₂, hd⟩ := hs₁.arena.dealloc_isSome hst₁.live
      obtain ⟨free₂, hs₂⟩ := hs₁.dealloc hst₁ hd
      dsimp only at hd
      have hpure : ∀ o : Option Arena,
          (o.bind fun a => pure (a, c.refcount - 1)) = o.map (·, c.refcount - 1) :=
        fun o => by cases o <;> rfl
      simp only [hview, Option.bind_some, MemTrieNodeView.iterChildren_of_shows hshows, hsize, hd,
        hpure]
      refine RcHeap.rel_map_left (RcHeap.foldlM_rel
        (fun l g g' => (∃ live free, Stores g live free g') ∧
          RcHeap.Accounts InputMemTrieNode.childPositions (roots.erase p + ↑l) g') ?_ _ ?_)
        fun _ _ _ hxy => ⟨rfl, hxy.1⟩
      · rintro y l g g' ⟨⟨live', free', hsg⟩, haccg⟩
        have hy : y ∈ roots.erase p + ↑(y :: l) := Multiset.mem_add.mpr (.inr (by simp))
        obtain ⟨cy, hcy⟩ := Option.isSome_iff_exists.mp (haccg.rooted y hy)
        refine RcHeap.rel_map_left (removeRef hsg haccg hy hcy) fun _ g₁ hg₁ hx => ⟨hx.2, ?_⟩
        have herase : (roots.erase p + ↑(y :: l)).erase y = roots.erase p + ↑l := by
          rw [← Multiset.cons_coe, Multiset.add_cons, Multiset.erase_cons_head]
        exact herase ▸ haccg.release hy hg₁
      · exact ⟨⟨_, _, hs₂.congr (RcHeap.Heap.cells_erase_set h p _).symm⟩, hacc.free hp hc hone⟩
    · rw [if_neg (show c.refcount - 1 ≠ 0 by omega), if_neg hone]
      exact .some ⟨rfl, live, free, hs₁⟩

end Stores

theorem stores_new : Stores Arena.new [] (fun _ => []) RcHeap.Heap.empty where
  arena := arenaInv_new
  nodes _ _ hc := by simp at hc
  live _ hs := by simp at hs

/-! ## Runs -/

/-- The states that runs of `new_impl`, `add_ref` and `remove_ref` reach from an empty arena,
with the heap of nodes they build and the references held from outside, the roots. `new_impl` is
given a node whose children are nodes and whose lengths fit its headers, `add_ref` a node, and
`remove_ref` a reference that is held. -/
inductive NodesReachable : Arena → NodeHeap → Multiset ArenaPos → Prop
  | new : NodesReachable Arena.new RcHeap.Heap.empty 0
  | newImpl {ar ar' : Arena} {h : NodeHeap} {roots : Multiset ArenaPos} {node : InputMemTrieNode}
      {nodeHash : Option CryptoHash} {id : MemTrieNodeId} :
      NodesReachable ar h roots → (∀ x ∈ node.childPositions, (h.cells x).isSome) →
      node.InBounds → MemTrieNodeId.newImpl ar node nodeHash = some (ar', id) →
      NodesReachable ar' (RcHeap.alloc InputMemTrieNode.childPositions h id.pos node) roots
  | addRef {ar ar' : Arena} {h : NodeHeap} {roots : Multiset ArenaPos} {p : ArenaPos} {n : Nat} :
      NodesReachable ar h roots → (h.cells p).isSome →
      MemTrieNodeId.addRef ⟨p⟩ ar = some (ar', n) → NodesReachable ar' (h.incr p) (p ::ₘ roots)
  | removeRef {ar ar' : Arena} {h : NodeHeap} {roots : Multiset ArenaPos} {p : ArenaPos}
      {fuel n : Nat} :
      NodesReachable ar h roots → p ∈ roots →
      MemTrieNodeId.removeRef fuel ⟨p⟩ ar = some (ar', n) →
      NodesReachable ar' ((RcHeap.release InputMemTrieNode.childPositions fuel p h).getD h)
        (roots.erase p)

/-- What holds along every run: the arena stores the heap, each cell's refcount counts the
references to it, and the heap has no cycle. -/
structure NodesInv (ar : Arena) (h : NodeHeap) (roots : Multiset ArenaPos) : Prop where
  stores : ∃ live free, Stores ar live free h
  accounts : RcHeap.Accounts InputMemTrieNode.childPositions roots h
  ranked : ∃ rank, RcHeap.Ranked InputMemTrieNode.childPositions rank h

namespace NodesInv

variable {roots : Multiset ArenaPos}

theorem new : NodesInv Arena.new RcHeap.Heap.empty 0 :=
  ⟨⟨_, _, stores_new⟩, RcHeap.accounts_empty, ⟨fun _ => 0, fun _ _ hc => by simp at hc⟩⟩

theorem newImpl (hi : NodesInv ar h roots) {node : InputMemTrieNode}
    {nodeHash : Option CryptoHash} {id : MemTrieNodeId}
    (hch : ∀ x ∈ node.childPositions, (h.cells x).isSome) (hbounds : node.InBounds)
    (hr : MemTrieNodeId.newImpl ar node nodeHash = some (ar', id)) :
    NodesInv ar' (RcHeap.alloc InputMemTrieNode.childPositions h id.pos node) roots := by
  obtain ⟨live, free, hs⟩ := hi.stores
  obtain ⟨rank, hrank⟩ := hi.ranked
  obtain ⟨hfresh, hs'⟩ := hs.newImpl hch hbounds hr
  -- the new node ranks above each of its children
  have hn : ∀ x ∈ node.childPositions, rank x < (node.childPositions.map (rank · + 1)).sum :=
    fun x hx => List.le_sum_of_mem (List.mem_map_of_mem (f := (rank · + 1)) hx)
  exact ⟨hs', hi.accounts.alloc hfresh node hch,
    ⟨_, hrank.alloc hi.accounts hfresh hch hn⟩⟩

theorem addRef (hi : NodesInv ar h roots) (hp : (h.cells p).isSome) {n : Nat}
    (hr : MemTrieNodeId.addRef ⟨p⟩ ar = some (ar', n)) : NodesInv ar' (h.incr p) (p ::ₘ roots) := by
  obtain ⟨live, free, hs⟩ := hi.stores
  obtain ⟨rank, hrank⟩ := hi.ranked
  obtain ⟨c, hc⟩ := Option.isSome_iff_exists.mp hp
  exact ⟨⟨live, free, (hs.addRef hc hr).2⟩, hi.accounts.incr hp, ⟨rank, hrank.incr p⟩⟩

theorem removeRef (hi : NodesInv ar h roots) (hp : p ∈ roots) {fuel n : Nat}
    (hr : MemTrieNodeId.removeRef fuel ⟨p⟩ ar = some (ar', n)) :
    NodesInv ar' ((RcHeap.release InputMemTrieNode.childPositions fuel p h).getD h)
      (roots.erase p) := by
  obtain ⟨live, free, hs⟩ := hi.stores
  obtain ⟨rank, hrank⟩ := hi.ranked
  obtain ⟨c, hc⟩ := Option.isSome_iff_exists.mp (hi.accounts.rooted p hp)
  have hrel : Option.Rel _ (MemTrieNodeId.removeRef fuel ⟨p⟩ ar) _ :=
    hs.removeRef hi.accounts hp hc
  rw [hr] at hrel
  -- `remove_ref` returned, so `release` did too
  obtain ⟨h', hrel', -, hs'⟩ := RcHeap.rel_some_left hrel
  rw [hrel', Option.getD_some]
  exact ⟨hs', hi.accounts.release hp hrel', ⟨rank, hrank.of_release hrel'⟩⟩

end NodesInv

/-- Every reachable state keeps the invariant. -/
theorem NodesReachable.nodesInv {roots : Multiset ArenaPos} (hr : NodesReachable ar h roots) :
    NodesInv ar h roots := by
  induction hr with
  | new => exact NodesInv.new
  | newImpl _ hch hbounds hnew ih => exact ih.newImpl hch hbounds hnew
  | addRef _ hp hadd ih => exact ih.addRef hp hadd
  | removeRef _ hp hrem ih => exact ih.removeRef hp hrem

/-! ## What every run keeps -/

variable {roots : Multiset ArenaPos}

/-- **The refcount in a node's header counts the references to it**, along every run: one for
each child slot of a node that points at it, and one for each reference held from outside. -/
theorem NodesReachable.header_refcount (hr : NodesReachable ar h roots)
    (hc : h.cells p = some c) :
    (⟨p, 0⟩ : RawDecoder).peek ar.memory CommonHeader.serializedSize CommonHeader.deserialize =
      some ⟨RcHeap.parents InputMemTrieNode.childPositions h p + roots.count p,
        c.payload.kind⟩ := by
  have hi := hr.nodesInv
  obtain ⟨live, free, hs⟩ := hi.stores
  obtain ⟨nonleaf, bytes, hst⟩ := hs.nodes p c hc
  rw [hst.peek hs.arena, hi.accounts.counted p c hc]

/-- **`remove_ref` of a held reference returns**, along every run, given fuel for the depth of
the nodes below it: it never meets a refcount of zero, a node it cannot decode, or a region it
cannot free. It returns the number of references left. -/
theorem NodesReachable.removeRef_isSome (hr : NodesReachable ar h roots) (hp : p ∈ roots) :
    ∃ fuel ar', MemTrieNodeId.removeRef fuel ⟨p⟩ ar =
      some (ar', RcHeap.parents InputMemTrieNode.childPositions h p + roots.count p - 1) := by
  have hi := hr.nodesInv
  obtain ⟨live, free, hs⟩ := hi.stores
  obtain ⟨rank, hrank⟩ := hi.ranked
  obtain ⟨c, hc⟩ := Option.isSome_iff_exists.mp (hi.accounts.rooted p hp)
  -- `release` has enough fuel above the node's rank, and `remove_ref` runs in lockstep
  obtain ⟨h', hrel'⟩ := RcHeap.release_isSome hi.accounts hrank hp (Nat.lt_succ_self (rank p))
  have hrel : Option.Rel _ (MemTrieNodeId.removeRef (rank p + 1) ⟨p⟩ ar) _ :=
    hs.removeRef hi.accounts hp hc
  rw [hrel'] at hrel
  obtain ⟨⟨ar', n⟩, hrem, hn, -⟩ := RcHeap.rel_some_right hrel
  refine ⟨rank p + 1, ar', ?_⟩
  rw [hrem, ← hi.accounts.counted p c hc, ← hn]

/-- **The arena holds one allocation for each node**, along every run: no node's allocation is
leaked when `remove_ref` drops it, and none is freed twice. -/
theorem NodesReachable.activeAllocsCount_eq (hr : NodesReachable ar h roots) :
    ar.allocator.activeAllocsCount = h.support.card := by
  obtain ⟨live, free, hs⟩ := hr.nodesInv.stores
  have hnodup : (live.map (·.pos)).Nodup :=
    hs.arena.live_nodup.map_on fun s hs' t ht hst => hs.arena.eq_of_pos_eq hs' ht hst
  -- the live allocations start exactly at the nodes
  have hsupp : (live.map (·.pos)).toFinset = h.support := by
    ext x
    rw [List.mem_toFinset, List.mem_map, h.mem_support]
    constructor
    · rintro ⟨s, hs', rfl⟩
      exact hs.live s hs'
    · intro hx
      obtain ⟨c, hc⟩ := Option.isSome_iff_exists.mp hx
      obtain ⟨_, _, hst⟩ := hs.nodes x c hc
      exact ⟨_, hst.live, rfl⟩
  rw [hs.arena.count, ← hsupp, List.toFinset_card_of_nodup hnodup, List.length_map]

/-! ## A run through a branch -/

/-- The heap after a leaf at `id₁`, a branch over it at `id₂`, and a reference to the branch. -/
def branchRunHeap (id₁ id₂ : MemTrieNodeId) : NodeHeap :=
  (RcHeap.alloc InputMemTrieNode.childPositions
    (RcHeap.alloc InputMemTrieNode.childPositions RcHeap.Heap.empty id₁.pos
      (.leaf (.inlined [7]) [0x32])) id₂.pos (branchOver id₁)).incr id₂.pos

theorem childPositions_branchOver (id : MemTrieNodeId) :
    (branchOver id).childPositions = [id.pos] := rfl

/-- A run of four calls: `new_impl` of a leaf, `new_impl` of a branch over it, `add_ref` of the
branch, and `remove_ref` of it. -/
theorem branch_run : ∃ ar₁ id₁ ar₂ id₂ ar₃ n₃ ar₄ n₄,
    MemTrieNodeId.newImpl Arena.new (.leaf (.inlined [7]) [0x32]) none = some (ar₁, id₁) ∧
      MemTrieNodeId.newImpl ar₁ (branchOver id₁) none = some (ar₂, id₂) ∧
      MemTrieNodeId.addRef ⟨id₂.pos⟩ ar₂ = some (ar₃, n₃) ∧
      MemTrieNodeId.removeRef 2 ⟨id₂.pos⟩ ar₃ = some (ar₄, n₄) := by
  obtain ⟨r, h⟩ := Option.isSome_iff_exists.mp (show ((MemTrieNodeId.newImpl Arena.new
    (.leaf (.inlined [7]) [0x32]) none).bind fun r₁ =>
      (MemTrieNodeId.newImpl r₁.1 (branchOver r₁.2) none).bind fun r₂ =>
        (MemTrieNodeId.addRef r₂.2 r₂.1).bind fun r₃ =>
          MemTrieNodeId.removeRef 2 r₂.2 r₃.1).isSome = true by decide)
  obtain ⟨⟨ar₁, id₁⟩, h₁, h⟩ := Option.bind_eq_some_iff.mp h
  obtain ⟨⟨ar₂, id₂⟩, h₂, h⟩ := Option.bind_eq_some_iff.mp h
  obtain ⟨⟨ar₃, n₃⟩, h₃, h₄⟩ := Option.bind_eq_some_iff.mp h
  exact ⟨ar₁, id₁, ar₂, id₂, ar₃, n₃, r.1, r.2, h₁, h₂, h₃, h₄⟩

section BranchRun

variable {ar₁ ar₂ ar₃ : Arena} {id₁ id₂ : MemTrieNodeId} {n₃ : Nat}
  (h₁ : MemTrieNodeId.newImpl Arena.new (.leaf (.inlined [7]) [0x32]) none = some (ar₁, id₁))
  (h₂ : MemTrieNodeId.newImpl ar₁ (branchOver id₁) none = some (ar₂, id₂))
  (h₃ : MemTrieNodeId.addRef ⟨id₂.pos⟩ ar₂ = some (ar₃, n₃))
include h₁ h₂ h₃

/-- The first three calls of `branch_run`, as a run: the branch is held from outside. -/
theorem branch_run_reachable : NodesReachable ar₃ (branchRunHeap id₁ id₂) {id₂.pos} := by
  have hleaf : NodesReachable ar₁ (RcHeap.alloc InputMemTrieNode.childPositions
      RcHeap.Heap.empty id₁.pos (.leaf (.inlined [7]) [0x32])) 0 :=
    .newImpl .new (by simp [InputMemTrieNode.childPositions, InputMemTrieNode.childIds])
      (by unfold InputMemTrieNode.InBounds; decide) h₁
  have hbranch : NodesReachable ar₂ (RcHeap.alloc InputMemTrieNode.childPositions
      (RcHeap.alloc InputMemTrieNode.childPositions RcHeap.Heap.empty id₁.pos
        (.leaf (.inlined [7]) [0x32])) id₂.pos (branchOver id₁)) 0 :=
    .newImpl hleaf (by simp [childPositions_branchOver, RcHeap.alloc]) trivial h₂
  exact .addRef hbranch (by simp [RcHeap.alloc]) h₃

end BranchRun

theorem branch_run_cells (id₁ id₂ : MemTrieNodeId) :
    (branchRunHeap id₁ id₂).cells id₂.pos = some ⟨1, branchOver id₁⟩ := by
  rw [branchRunHeap, RcHeap.Heap.incr_of_cells (c := ⟨0, branchOver id₁⟩) (by simp [RcHeap.alloc])]
  simp

/-- The header of the leaf below the held branch counts its one parent slot. -/
theorem header_refcount_branch : ∃ ar₁ id₁ ar₂ id₂ ar₃ n₃,
    MemTrieNodeId.newImpl Arena.new (.leaf (.inlined [7]) [0x32]) none = some (ar₁, id₁) ∧
      MemTrieNodeId.newImpl ar₁ (branchOver id₁) none = some (ar₂, id₂) ∧
      MemTrieNodeId.addRef ⟨id₂.pos⟩ ar₂ = some (ar₃, n₃) ∧
      ∃ c, (branchRunHeap id₁ id₂).cells id₁.pos = some c ∧
        (⟨id₁.pos, 0⟩ : RawDecoder).peek ar₃.memory CommonHeader.serializedSize
            CommonHeader.deserialize =
          some ⟨RcHeap.parents InputMemTrieNode.childPositions (branchRunHeap id₁ id₂) id₁.pos +
            ({id₂.pos} : Multiset ArenaPos).count id₁.pos, c.payload.kind⟩ := by
  obtain ⟨ar₁, id₁, ar₂, id₂, ar₃, n₃, -, -, h₁, h₂, h₃, -⟩ := branch_run
  have hr := branch_run_reachable h₁ h₂ h₃
  -- the leaf is a cell: a child of the branch
  obtain ⟨c, hc⟩ := Option.isSome_iff_exists.mp (hr.nodesInv.accounts.closed _ _
    (branch_run_cells id₁ id₂) id₁.pos (by simp [childPositions_branchOver]))
  exact ⟨ar₁, id₁, ar₂, id₂, ar₃, n₃, h₁, h₂, h₃, c, hc,
    NodesReachable.header_refcount hr hc⟩

/-- `remove_ref` of the held branch, given fuel for the leaf below it, returns. -/
theorem removeRef_isSome_branch : ∃ ar₁ id₁ ar₂ id₂ ar₃ n₃,
    MemTrieNodeId.newImpl Arena.new (.leaf (.inlined [7]) [0x32]) none = some (ar₁, id₁) ∧
      MemTrieNodeId.newImpl ar₁ (branchOver id₁) none = some (ar₂, id₂) ∧
      MemTrieNodeId.addRef ⟨id₂.pos⟩ ar₂ = some (ar₃, n₃) ∧
      ∃ fuel ar', MemTrieNodeId.removeRef fuel ⟨id₂.pos⟩ ar₃ =
        some (ar', RcHeap.parents InputMemTrieNode.childPositions (branchRunHeap id₁ id₂) id₂.pos +
          ({id₂.pos} : Multiset ArenaPos).count id₂.pos - 1) := by
  obtain ⟨ar₁, id₁, ar₂, id₂, ar₃, n₃, -, -, h₁, h₂, h₃, -⟩ := branch_run
  exact ⟨ar₁, id₁, ar₂, id₂, ar₃, n₃, h₁, h₂, h₃,
    NodesReachable.removeRef_isSome (branch_run_reachable h₁ h₂ h₃)
      (Multiset.mem_singleton_self _)⟩

/-- After `remove_ref` of the held branch, which drops it and the leaf below it, the arena's
count of active allocations is still the number of nodes. -/
theorem activeAllocsCount_eq_branch : ∃ ar₁ id₁ ar₂ id₂ ar₃ n₃ ar₄ n₄,
    MemTrieNodeId.newImpl Arena.new (.leaf (.inlined [7]) [0x32]) none = some (ar₁, id₁) ∧
      MemTrieNodeId.newImpl ar₁ (branchOver id₁) none = some (ar₂, id₂) ∧
      MemTrieNodeId.addRef ⟨id₂.pos⟩ ar₂ = some (ar₃, n₃) ∧
      MemTrieNodeId.removeRef 2 ⟨id₂.pos⟩ ar₃ = some (ar₄, n₄) ∧
      ar₄.allocator.activeAllocsCount =
        ((RcHeap.release InputMemTrieNode.childPositions 2 id₂.pos (branchRunHeap id₁ id₂)).getD
          (branchRunHeap id₁ id₂)).support.card := by
  obtain ⟨ar₁, id₁, ar₂, id₂, ar₃, n₃, ar₄, n₄, h₁, h₂, h₃, h₄⟩ := branch_run
  exact ⟨ar₁, id₁, ar₂, id₂, ar₃, n₃, ar₄, n₄, h₁, h₂, h₃, h₄,
    NodesReachable.activeAllocsCount_eq
      (.removeRef (branch_run_reachable h₁ h₂ h₃) (Multiset.mem_singleton_self _) h₄)⟩

end Unc
