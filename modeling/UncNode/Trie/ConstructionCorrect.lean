import Mathlib
import UncNode.Lib.Outcome
import UncNode.Trie.Construction
import UncNode.Trie.MemTrieLookup
import UncNode.Trie.RightmostPath

/-!
# The constructor builds the trie of its stack

The segments of a `TrieConstructor` are read as the frames of `RightmostPath` (`SegmentRel`): the
trail bytes decode to the frame's nibbles, and the finished children are nodes of a heap that
stand for the frame's children. The allocation the constructor calls is only assumed to keep a
heap (`AllocSpec`); the arena's `MemTrieNodeId::new` does (`allocSpec_new`). Each step is proved
once, as an `Outcome`: it fails only where an allocation fails, and what it returns is read as
the expected frames.

* `SegmentRel.intoNode`: `into_node` of a finished segment allocates the node its frame closes
  into;
* `popSegment_spec`, `popFrom_spec`: popping finishes the bottom frames into the one above;
* **`finalize_spec`**: `finalize` of a stable stack returns a root that stands for the canonical
  trie the stack finishes into, or fails in an allocation.
-/

set_option autoImplicit false

namespace Unc

variable {σ : Type}

/-! ## Allocations that keep a heap -/

/-- What the constructor needs of its allocation: from a state that stands for a heap by `R`, an
allocation of a node whose children are cells either fails or takes a free address, and the new
state stands for the heap with the node allocated there. -/
def AllocSpec (new : σ → InputMemTrieNode → Option (σ × MemTrieNodeId))
    (R : σ → NodeHeap → Prop) : Prop :=
  ∀ s h node s' id, R s h → (∀ x ∈ node.childPositions, (h.cells x).isSome) → node.InBounds →
    new s node = some (s', id) →
      h.cells id.pos = none ∧ R s' (RcHeap.alloc InputMemTrieNode.childPositions h id.pos node)

/-- An allocation of a node whose children are cells fails, from a state that stands for a
heap. -/
def AllocFails (new : σ → InputMemTrieNode → Option (σ × MemTrieNodeId))
    (R : σ → NodeHeap → Prop) : Prop :=
  ∃ s h node, R s h ∧ (∀ x ∈ node.childPositions, (h.cells x).isSome) ∧ node.InBounds ∧
    new s node = none

/-- The arena's allocation keeps the heap that the arena stores. -/
theorem allocSpec_new :
    AllocSpec MemTrieNodeId.new fun ar h => ∃ live free, Stores ar live free h := by
  rintro ar h node ar' id ⟨live, free, hs⟩ hch hbounds hnew
  obtain ⟨hfresh, live', free', hs'⟩ := hs.newImpl hch hbounds hnew
  exact ⟨hfresh, live', free', hs'⟩

section Alloc

variable {new : σ → InputMemTrieNode → Option (σ × MemTrieNodeId)} {R : σ → NodeHeap → Prop}

theorem AllocSpec.outcome (hnew : AllocSpec new R) {s : σ} {h : NodeHeap}
    {node : InputMemTrieNode} (hR : R s h)
    (hch : ∀ x ∈ node.childPositions, (h.cells x).isSome) (hb : node.InBounds) :
    Outcome (AllocFails new R) (fun r => ∃ h', R r.1 h' ∧ h.Keeps h' ∧
      h'.payload r.2.pos = some node) (new s node) := by
  cases hr : new s node with
  | none => exact .fail ⟨s, h, node, hR, hch, hb, hr⟩
  | some r =>
    obtain ⟨hfresh, hR'⟩ := hnew s h node r.1 r.2 hR hch hb hr
    refine .pure ⟨_, hR', RcHeap.keeps_alloc hfresh node, ?_⟩
    rw [RcHeap.payload_alloc, if_pos rfl]

end Alloc

/-! ## Segments read as frames -/

/-- Trail bytes that `from_encoded` reads as the nibbles `trail`, with the leaf flag `isLeaf`. -/
def TrailOf (bytes : List UInt8) (isLeaf : Bool) (trail : List Nibble) : Prop :=
  ∃ slice, NibbleSlice.fromEncoded bytes = some (slice, isLeaf) ∧
    slice.nibbles = trail.map nibbleByte

/-- A segment read as a frame, its finished children standing for the frame's in the heap. -/
structure SegmentRel (h : NodeHeap) (s : TrieConstructionSegment)
    (f : Frame FlatStateValue) : Prop where
  isBranch : s.isBranch = f.isBranch
  value : s.value = f.value
  trail : TrailOf s.trail s.isLeaf f.trail
  children : List.Forall₂ (fun c x => c.1 = nibbleByte x.1 ∧ Denotes h c.2.pos x.2)
    s.children f.children
  child : Option.Rel (fun id t => Denotes h id.pos t) s.child f.child

/-- The lengths a segment's node holds in its headers. -/
structure SegmentFits (s : TrieConstructionSegment) : Prop where
  trail : s.trail.length < 2 ^ 16
  value : ∀ v, s.value = some v → v.valueLen < 2 ^ 31

variable {h h' : NodeHeap} {s : TrieConstructionSegment} {f : Frame FlatStateValue}

theorem Denotes.isSome {p : ArenaPos} {t : TrieNode FlatStateValue} (hd : Denotes h p t) :
    (h.cells p).isSome := by
  cases hd <;>
    · rename_i hp
      obtain ⟨c, hc, -⟩ := RcHeap.Heap.payload_eq_some.mp hp
      simp [hc]

theorem option_rel_imp {α β : Type} {r q : α → β → Prop} (hrq : ∀ a b, r a b → q a b) :
    ∀ {a : Option α} {b : Option β}, Option.Rel r a b → Option.Rel q a b
  | _, _, .none => .none
  | _, _, .some hr => .some (hrq _ _ hr)

theorem option_rel_none_right {α β : Type} {r : α → β → Prop} {a : Option α}
    (h : Option.Rel r a none) : a = none := by
  cases h
  rfl

theorem SegmentRel.mono (hk : h.Keeps h') (hrel : SegmentRel h s f) : SegmentRel h' s f where
  isBranch := hrel.isBranch
  value := hrel.value
  trail := hrel.trail
  children := hrel.children.imp fun _ _ hc => ⟨hc.1, hc.2.mono hk⟩
  child := option_rel_imp (fun _ _ hd => hd.mono hk) hrel.child

theorem forall₂_segmentRel_mono (hk : h.Keeps h') {segs : List TrieConstructionSegment}
    {fs : List (Frame FlatStateValue)} (hrel : List.Forall₂ (SegmentRel h) segs fs) :
    List.Forall₂ (SegmentRel h') segs fs :=
  hrel.imp fun _ _ hr => hr.mono hk

theorem forall₂_append_right {α β : Type} {r : α → β → Prop} :
    ∀ {l : List α} {fs gs : List β}, List.Forall₂ r l (fs ++ gs) →
      ∃ l₁ l₂, l = l₁ ++ l₂ ∧ List.Forall₂ r l₁ fs ∧ List.Forall₂ r l₂ gs
  | l, [], _, hl => ⟨[], l, rfl, .nil, hl⟩
  | _ :: _, _ :: _, _, .cons hr hl =>
    let ⟨l₁, l₂, he, h₁, h₂⟩ := forall₂_append_right hl
    ⟨_ :: l₁, l₂, he ▸ rfl, .cons hr h₁, h₂⟩

/-! ## Trails -/

theorem nibbleByte_lt (x : Nibble) : nibbleByte x < 16 :=
  UInt8.lt_iff_toNat_lt.mpr (by simp)

theorem trailOf_hexPrefix (trail : List Nibble) (isLeaf : Bool) :
    TrailOf (hexPrefix (trail.map nibbleByte) isLeaf) isLeaf trail := by
  have hlt : ∀ x ∈ trail.map nibbleByte, x < 16 := fun x hx => by
    obtain ⟨y, -, rfl⟩ := List.mem_map.mp hx
    exact nibbleByte_lt y
  obtain ⟨slice, hdec, hnib⟩ := fromEncoded_hexPrefix hlt isLeaf
  exact ⟨slice, hdec, hnib⟩

/-- A trail holds two nibbles a byte, after its header. -/
theorem TrailOf.length_le {bytes : List UInt8} {isLeaf : Bool} {trail : List Nibble}
    (ht : TrailOf bytes isLeaf trail) : bytes.length * 2 ≤ trail.length + 2 := by
  obtain ⟨slice, hdec, hnib⟩ := ht
  cases bytes with
  | nil => simp [NibbleSlice.fromEncoded] at hdec
  | cons d0 rest =>
    simp only [NibbleSlice.fromEncoded, Option.some.injEq, Prod.mk.injEq] at hdec
    obtain ⟨rfl, -⟩ := hdec
    have hlen := congrArg List.length hnib
    rw [NibbleSlice.length_nibbles, List.length_map] at hlen
    simp only [NibbleSlice.len, List.length_cons] at hlen ⊢
    split at hlen <;> omega

theorem TrailOf.encodesKey {bytes : List UInt8} {isLeaf : Bool} {trail : List Nibble}
    (ht : TrailOf bytes isLeaf trail) : EncodesKey bytes trail := by
  obtain ⟨slice, hdec, hnib⟩ := ht
  simp [EncodesKey, hdec, hnib]

section Slices

variable {slice : NibbleSlice} {trail : List Nibble}

theorem at_zero_of (hs : slice.nibbles = trail.map nibbleByte) :
    slice.at 0 = (trail.head?).map nibbleByte := by
  rw [NibbleSlice.at_zero, hs, List.head?_map]

end Slices

/-! ## `into_node` -/

/-- A frame that `into_node` accepts: a branch with a finished child, a leaf, or an extension
with its child. -/
def Frame.Closed (f : Frame FlatStateValue) : Prop :=
  (f.isBranch = true ∧ f.children ≠ [] ∧ f.child = none) ∨
  (f.isBranch = false ∧ f.value.isSome ∧ f.child = none ∧ f.children = []) ∨
  (f.isBranch = false ∧ f.value = none ∧ f.child.isSome ∧ f.children = [])

theorem LeafFrame.closed (hf : LeafFrame f) : f.Closed :=
  .inr (.inl ⟨hf.isBranch, hf.value, hf.child, hf.children⟩)

/-- An open frame with a node finished below it is closed. -/
theorem Frame.Open.closed_fill (hf : f.Open) (t : TrieNode FlatStateValue) : (f.fill t).Closed := by
  rcases hf with ⟨c, hf⟩ | hf
  · left
    simp [Frame.fill, hf.isBranch, hf.trail, hf.child]
  · right; right
    simp [Frame.fill, hf.isBranch, hf.value, hf.children]

/-- The children array holds, at each nibble, a node that stands for the frame's child there. -/
theorem foldlM_setChild :
    ∀ {cs : List (UInt8 × MemTrieNodeId)} {xs : List (Nibble × TrieNode FlatStateValue)},
      List.Forall₂ (fun c x => c.1 = nibbleByte x.1 ∧ Denotes h c.2.pos x.2) cs xs →
      ∀ (arr : List.Vector (Option MemTrieNodeId) 16) (g : Nibble → TrieNode FlatStateValue),
        (∀ i, arr.get i = none → g i = .empty) →
        (∀ i id, arr.get i = some id → Denotes h id.pos (g i)) →
        ∃ arr', cs.foldlM TrieConstructionSegment.setChild arr = some arr' ∧
          (∀ i, arr'.get i = none → xs.foldl (fun f c => Function.update f c.1 c.2) g i = .empty) ∧
          (∀ i id, arr'.get i = some id →
            Denotes h id.pos (xs.foldl (fun f c => Function.update f c.1 c.2) g i))
  | [], [], .nil, arr, _, hnone, hsome => ⟨arr, rfl, hnone, hsome⟩
  | c :: cs, x :: xs, .cons ⟨hk, hd⟩ hrest, arr, g, hnone, hsome => by
    have hlt : c.1.toNat < 16 := by rw [hk, toNat_nibbleByte]; exact x.1.isLt
    have hidx : (⟨c.1.toNat, hlt⟩ : Fin 16) = x.1 := Fin.ext (by simp [hk])
    have hstep : TrieConstructionSegment.setChild arr c =
        some (arr.set x.1 (some c.2)) := by
      simp only [TrieConstructionSegment.setChild, dif_pos hlt, hidx]
    rw [List.foldlM_cons, hstep]
    refine foldlM_setChild hrest _ _ (fun i hi => ?_) (fun i id hi => ?_)
    · by_cases hix : x.1 = i
      · subst hix
        simp at hi
      · rw [List.Vector.get_set_of_ne hix] at hi
        simp [Function.update_of_ne (Ne.symm hix), hnone i hi]
    · by_cases hix : x.1 = i
      · subst hix
        rw [List.Vector.get_set_same] at hi
        obtain rfl := Option.some.inj hi
        simpa using hd
      · rw [List.Vector.get_set_of_ne hix] at hi
        simpa [Function.update_of_ne (Ne.symm hix)] using hsome i id hi

theorem childrenArray_spec {cs : List (UInt8 × MemTrieNodeId)}
    {xs : List (Nibble × TrieNode FlatStateValue)}
    (hrel : List.Forall₂ (fun c x => c.1 = nibbleByte x.1 ∧ Denotes h c.2.pos x.2) cs xs) :
    ∃ arr, TrieConstructionSegment.childrenArray cs = some arr ∧
      (∀ i, arr.get i = none → childrenOf xs i = .empty) ∧
      (∀ i id, arr.get i = some id → Denotes h id.pos (childrenOf xs i)) :=
  foldlM_setChild hrel _ _ (fun _ _ => rfl) fun i id hi => by
    rw [List.Vector.get_replicate] at hi
    cases hi

/-- The children of a branch node whose slots stand for nodes are cells. -/
theorem childIds_isSome {arr : List.Vector (Option MemTrieNodeId) 16}
    {g : Nibble → TrieNode FlatStateValue}
    (hsome : ∀ i id, arr.get i = some id → Denotes h id.pos (g i)) :
    ∀ x ∈ (arr.toList.filterMap id).map (·.pos), (h.cells x).isSome := by
  intro x hx
  obtain ⟨id, hid, rfl⟩ := List.mem_map.mp hx
  obtain ⟨o, ho, hoid⟩ := List.mem_filterMap.mp hid
  obtain rfl : o = some id := hoid
  obtain ⟨i, hi⟩ := (List.Vector.mem_iff_get _ _).mp ho
  exact (hsome i id hi).isSome

/-- **`into_node` of a closed segment**: it builds a node whose children are cells and whose
lengths fit its headers, and the node stands for the frame's node wherever it is allocated. -/
theorem SegmentRel.inputNode (hrel : SegmentRel h s f) (hc : f.Closed) (hfits : SegmentFits s) :
    ∃ node, s.inputNode = some node ∧ (∀ x ∈ node.childPositions, (h.cells x).isSome) ∧
      node.InBounds ∧ ∀ h' p, h.Keeps h' → h'.payload p = some node → Denotes h' p f.close := by
  rcases hc with ⟨hb, hne, hch⟩ | ⟨hb, hv, hch, hcs⟩ | ⟨hb, hv, hch, hcs⟩
  · -- a branch: the children array, and the value if there is one
    have hsb : s.isBranch = true := hrel.isBranch.trans hb
    have hsne : s.children.isEmpty = false := by
      cases hx : s.children with
      | nil =>
        have := hrel.children
        rw [hx] at this
        exact absurd (List.forall₂_nil_left_iff.mp this) hne
      | cons _ _ => rfl
    have hsch : s.child = none := option_rel_none_right (hch ▸ hrel.child)
    obtain ⟨arr, harr, hnone, hsome⟩ := childrenArray_spec hrel.children
    have hclose : f.close = .branch (childrenOf f.children) f.value := by simp [Frame.close, hb]
    cases hval : f.value with
    | none =>
      refine ⟨.branch arr, ?_, childIds_isSome hsome, trivial, fun h' p hk hp => ?_⟩
      · simp [TrieConstructionSegment.inputNode, hsb, hsne, hsch, harr, hrel.value, hval]
      · rw [hclose, hval]
        exact .branch hp hnone fun i id hi => (hsome i id hi).mono hk
    | some v =>
      refine ⟨.branchWithValue arr v, ?_, childIds_isSome hsome,
        hfits.value v (hrel.value.trans hval), fun h' p hk hp => ?_⟩
      · simp [TrieConstructionSegment.inputNode, hsb, hsne, hsch, harr, hrel.value, hval]
      · rw [hclose, hval]
        exact .branchWithValue hp hnone fun i id hi => (hsome i id hi).mono hk
  · -- a leaf
    obtain ⟨v, hval⟩ := Option.isSome_iff_exists.mp hv
    have hsch : s.child = none := option_rel_none_right (hch ▸ hrel.child)
    have hscs : s.children = [] := List.forall₂_nil_right_iff.mp (hcs ▸ hrel.children)
    refine ⟨.leaf v s.trail, ?_, by simp [InputMemTrieNode.childPositions,
      InputMemTrieNode.childIds], ⟨hfits.trail, hfits.value v (hrel.value.trans hval)⟩,
      fun h' p _ hp => ?_⟩
    · simp [TrieConstructionSegment.inputNode, hrel.isBranch, hb, hrel.value, hval, hsch, hscs]
    · simp only [Frame.close, hb, hval, Bool.false_eq_true, if_false]
      exact .leaf hp hrel.trail.encodesKey
  · -- an extension with its child
    obtain ⟨t, ht⟩ := Option.isSome_iff_exists.mp hch
    obtain ⟨id, hsch, hd⟩ := RcHeap.rel_some_right (ht ▸ hrel.child)
    have hscs : s.children = [] := List.forall₂_nil_right_iff.mp (hcs ▸ hrel.children)
    refine ⟨.extension s.trail id, ?_, ?_, hfits.trail, fun h' p hk hp => ?_⟩
    · simp [TrieConstructionSegment.inputNode, hrel.isBranch, hb, hrel.value, hv, hsch, hscs]
    · simpa [InputMemTrieNode.childPositions, InputMemTrieNode.childIds] using hd.isSome
    · simp only [Frame.close, hb, hv, ht, Bool.false_eq_true, if_false, Option.getD_some]
      exact .extension hp hrel.trail.encodesKey (hd.mono hk)

section Alloc

variable {new : σ → InputMemTrieNode → Option (σ × MemTrieNodeId)} {R : σ → NodeHeap → Prop}
  (hnew : AllocSpec new R)
include hnew

theorem SegmentRel.intoNode {arena : σ} (hR : R arena h) (hrel : SegmentRel h s f)
    (hc : f.Closed) (hfits : SegmentFits s) :
    Outcome (AllocFails new R) (fun r => ∃ h', R r.1 h' ∧ h.Keeps h' ∧
      Denotes h' r.2.pos f.close) (s.intoNode new arena) := by
  obtain ⟨node, hnode, hch, hb, hd⟩ := hrel.inputNode hc hfits
  refine Outcome.bind_of_eq hnode ((hnew.outcome hR hch hb).mono ?_)
  rintro r ⟨h', hR', hk, hp⟩
  exact ⟨h', hR', hk, hd h' r.2.pos hk hp⟩

end Alloc

/-! ## The stack of segments -/

theorem forall₂_concat_right {α β : Type} {r : α → β → Prop} {l : List α} {fs : List β} {b : β}
    (h : List.Forall₂ r l (fs ++ [b])) : ∃ l' a, l = l' ++ [a] ∧ List.Forall₂ r l' fs ∧ r a b := by
  obtain ⟨l₁, l₂, rfl, h₁, h₂⟩ := forall₂_append_right h
  obtain ⟨a, l₂', hab, hnil, rfl⟩ := List.forall₂_cons_right_iff.mp h₂
  obtain rfl := List.forall₂_nil_right_iff.mp hnil
  exact ⟨l₁, a, rfl, h₁, hab⟩

/-- The constructor `c` stands for the stack `fs` of frames over the heap `h`, which its arena
stands for; each of its segments fits the headers of its node. -/
structure StackRel (R : σ → NodeHeap → Prop) (c : TrieConstructor σ) (h : NodeHeap)
    (fs : List (Frame FlatStateValue)) : Prop where
  arena : R c.arena h
  segments : List.Forall₂ (SegmentRel h) c.segments fs
  fits : ∀ s ∈ c.segments, SegmentFits s

/-- The constructor stands for the stack `fs` over a heap that keeps `h`. -/
def Reaches (R : σ → NodeHeap → Prop) (h : NodeHeap) (fs : List (Frame FlatStateValue))
    (c : TrieConstructor σ) : Prop :=
  ∃ h', h.Keeps h' ∧ StackRel R c h' fs

theorem collapse_closed {os : List (Frame FlatStateValue)} {g : Frame FlatStateValue}
    (hopen : ∀ f ∈ os, f.Open) (hg : g.Closed) : (collapse os g).Closed := by
  cases os with
  | nil => exact hg
  | cons f os => exact (hopen f List.mem_cons_self).closed_fill _

section Alloc

variable {new : σ → InputMemTrieNode → Option (σ × MemTrieNodeId)} {R : σ → NodeHeap → Prop}
  (hnew : AllocSpec new R)
include hnew

/-- **`pop_segment`**: the bottom segment, finished, becomes the child of the segment above, at
its trail's nibble for a branch. -/
theorem popSegment_spec {c : TrieConstructor σ} {fs : List (Frame FlatStateValue)}
    {fp fg : Frame FlatStateValue} (hc : StackRel R c h (fs ++ [fp, fg]))
    (hpb : fp.isBranch = true → fp.trail ≠ []) (hpe : fp.isBranch = false → fp.child = none)
    (hg : fg.Closed) :
    Outcome (AllocFails new R) (Reaches R h (fs ++ [fp.fill fg.close])) (c.popSegment new) := by
  have hrel : List.Forall₂ (SegmentRel h) c.segments ((fs ++ [fp]) ++ [fg]) := by
    simpa using hc.segments
  obtain ⟨segs', sg, hseg, hrs', hrg⟩ := forall₂_concat_right hrel
  obtain ⟨segs, sp, rfl, hrs, hrp⟩ := forall₂_concat_right hrs'
  have hmem : ∀ s ∈ segs ++ [sp] ++ [sg], SegmentFits s := hseg ▸ hc.fits
  have hfp : SegmentFits sp := hmem sp (by simp)
  simp only [TrieConstructor.popSegment]
  refine Outcome.bind_of_eq (by rw [hseg]; simp)
    (Outcome.bind (hrg.intoNode hnew hc.arena hg (hmem sg (by simp))) ?_)
  rintro ⟨arena', node⟩ ⟨h', hR', hk, hd⟩
  have hdrop : c.segments.dropLast = segs ++ [sp] := by rw [hseg, List.dropLast_concat]
  rw [hdrop, List.dropLast_concat]
  refine Outcome.bind_of_eq (List.getLast?_concat ..) ?_
  have hrs' := forall₂_segmentRel_mono hk hrs
  have hrp' := hrp.mono hk
  -- the segments above the parent are kept, and the parent takes the node
  have hstack : ∀ {sp' : TrieConstructionSegment} {fp' : Frame FlatStateValue},
      SegmentRel h' sp' fp' → sp'.trail = sp.trail → sp'.value = sp.value →
        Reaches R h (fs ++ [fp']) ⟨arena', segs ++ [sp']⟩ := fun hr ht hv =>
    ⟨h', hk, hR', List.rel_append hrs' (.cons hr .nil), fun s hs => by
      rcases List.mem_append.mp hs with hs | hs
      · exact hmem s (by simp [hs])
      · rw [List.mem_singleton.mp hs]
        exact ⟨ht ▸ hfp.trail, hv ▸ hfp.value⟩⟩
  cases hb : fp.isBranch with
  | true =>
    obtain ⟨c0, T, hT⟩ := List.exists_cons_of_ne_nil (hpb hb)
    obtain ⟨slice, hdec, hnib⟩ := hrp.trail
    have hfirst : slice.at 0 = some (nibbleByte c0) := by rw [at_zero_of hnib, hT]; rfl
    have hfill : fp.fill fg.close = { fp with children := fp.children ++ [(c0, fg.close)] } := by
      simp [Frame.fill, hb, hT]
    rw [if_pos (hrp.isBranch.trans hb)]
    refine Outcome.bind_of_eq hdec (Outcome.bind_of_eq hfirst (Outcome.pure ?_))
    rw [hfill]
    exact hstack ⟨hrp'.isBranch, hrp'.value, hrp'.trail,
      List.rel_append hrp'.children (.cons ⟨rfl, hd⟩ .nil), hrp'.child⟩ rfl rfl
  | false =>
    have hsch : sp.child = none := option_rel_none_right (hpe hb ▸ hrp.child)
    have hfill : fp.fill fg.close = { fp with child := some fg.close } := by simp [Frame.fill, hb]
    rw [if_neg (by simp [hrp.isBranch, hb]), if_neg (by simp [hsch])]
    refine Outcome.pure ?_
    rw [hfill]
    exact hstack ⟨hrp'.isBranch, hrp'.value, hrp'.trail, hrp'.children, .some hd⟩ rfl rfl

/-- **The pops of `finalize` and `add_leaf`**: the open frames below segment `i` are finished one
by one, from the bottom, into the frame at `i`. -/
theorem popFrom_spec {i : Nat} {pre : List (Frame FlatStateValue)} (hi : pre.length = i) :
    ∀ {os : List (Frame FlatStateValue)} {c : TrieConstructor σ} {h : NodeHeap}
      {g : Frame FlatStateValue} {fuel : Nat}, StackRel R c h (pre ++ os ++ [g]) →
      (∀ f ∈ os, f.Open) → g.Closed → os.length ≤ fuel →
      Outcome (AllocFails new R) (Reaches R h (pre ++ [collapse os g]))
        (TrieConstructor.popFrom new i fuel c) := by
  intro os
  induction os using List.reverseRecOn with
  | nil =>
    intro c h g fuel hc _ _ _
    have hlen : ¬ i + 1 < c.segments.length := by simp [hc.segments.length_eq, hi]
    have hstop : TrieConstructor.popFrom new i fuel c = some c := by
      cases fuel <;> simp [TrieConstructor.popFrom, hlen]
    rw [hstop]
    exact Outcome.pure ⟨h, RcHeap.Heap.Keeps.refl h, by simpa [collapse] using hc⟩
  | append_singleton os fp ih =>
    intro c h g fuel hc hopen hg hfuel
    obtain ⟨fuel, rfl⟩ : ∃ n, fuel = n + 1 := ⟨fuel - 1, by simp at hfuel; omega⟩
    have hlen : i + 1 < c.segments.length := by simp [hc.segments.length_eq, hi]
    have hfp : fp.Open := hopen fp (by simp)
    have hc' : StackRel R c h ((pre ++ os) ++ [fp, g]) := by simpa using hc
    simp only [TrieConstructor.popFrom, hlen, if_true]
    refine Outcome.bind (popSegment_spec hnew hc' (fun _ => hfp.trail_ne_nil)
      (fun _ => hfp.child) hg) ?_
    rintro c₁ ⟨h₁, hk₁, hc₁⟩
    have hopen' : ∀ f ∈ os, f.Open := fun f hf => hopen f (by simp [hf])
    refine (ih (by simpa using hc₁) hopen' (hfp.closed_fill _) (by simp at hfuel; omega)).mono ?_
    rintro c₂ ⟨h₂, hk₂, hc₂⟩
    rw [collapse_append_singleton]
    exact ⟨h₂, hk₁.trans hk₂, hc₂⟩

/-- **`finalize` of a stable stack** returns a root that stands for the trie the stack finishes
into, which is canonical; or an allocation fails. -/
theorem finalize_spec {c : TrieConstructor σ} {opens : List (Frame FlatStateValue)}
    {g : Frame FlatStateValue} (hc : StackRel R c h (opens ++ [g])) (hs : Stable opens g) :
    Outcome (AllocFails new R) (fun r => ∃ h' root, R r.1 h' ∧ h.Keeps h' ∧ r.2 = some root ∧
      Denotes h' root.pos (wrap opens g.close) ∧ TrieNode.Canonical (wrap opens g.close))
      (c.finalize new) := by
  have hg : g.Closed := hs.leaf.closed
  refine Outcome.bind (popFrom_spec hnew List.length_nil (by simpa using hc) hs.allOpen hg
    (by simp [hc.segments.length_eq])) ?_
  rintro c₁ ⟨h₁, hk₁, hc₁⟩
  -- one segment is left, the stack finished into one frame
  have hone : List.Forall₂ (SegmentRel h₁) c₁.segments [collapse opens g] := by
    simpa using hc₁.segments
  obtain ⟨s, l, hrel, hnil, hs₁⟩ := List.forall₂_cons_right_iff.mp hone
  obtain rfl := List.forall₂_nil_right_iff.mp hnil
  rw [hs₁, List.head?_cons]
  refine Outcome.bind (hrel.intoNode hnew hc₁.arena (collapse_closed hs.allOpen hg)
    (hc₁.fits s (by simp [hs₁]))) ?_
  rintro ⟨arena, root⟩ ⟨h₂, hR₂, hk₂, hd⟩
  exact Outcome.pure ⟨h₂, root, hR₂, hk₁.trans hk₂, rfl, by rwa [wrap_close], hs.canonical⟩

end Alloc

/-- `finalize` over the arena of two segments for the key `[0x12]`: a branch with a value at
its first nibble, over the leaf of its second nibble. `pop_segment` puts the leaf's node into
the branch, and `finalize` allocates the branch. -/
theorem finalize_spec_branch :
    Outcome (AllocFails MemTrieNodeId.new fun ar h => ∃ live free, Stores ar live free h)
      (fun r => ∃ h' root, (∃ live free, Stores r.1 live free h') ∧
        RcHeap.Heap.empty.Keeps h' ∧ r.2 = some root ∧
        Denotes h' root.pos
          (wrap [Frame.branchAt ⟨(0x12 : UInt8).toNat / 16, toNat_div_sixteen_lt 0x12⟩
              (some (FlatStateValue.inlined [5]))]
            (Frame.leafOf [⟨(0x12 : UInt8).toNat % 16, toNat_mod_sixteen_lt 0x12⟩]
              (FlatStateValue.inlined [7])).close) ∧
        TrieNode.Canonical
          (wrap [Frame.branchAt ⟨(0x12 : UInt8).toNat / 16, toNat_div_sixteen_lt 0x12⟩
              (some (FlatStateValue.inlined [5]))]
            (Frame.leafOf [⟨(0x12 : UInt8).toNat % 16, toNat_mod_sixteen_lt 0x12⟩]
              (FlatStateValue.inlined [7])).close))
      ((TrieConstructor.mk Arena.new
        [⟨true, hexPrefix ([⟨(0x12 : UInt8).toNat / 16, toNat_div_sixteen_lt 0x12⟩].map
            nibbleByte) false, some (.inlined [5]), [], none⟩,
          ⟨false, hexPrefix ([⟨(0x12 : UInt8).toNat % 16, toNat_mod_sixteen_lt 0x12⟩].map
            nibbleByte) true, some (.inlined [7]), [], none⟩]).finalize MemTrieNodeId.new) :=
  finalize_spec allocSpec_new
    ⟨⟨[], fun _ => [], stores_new⟩,
      .cons ⟨rfl, rfl, trailOf_hexPrefix [⟨(0x12 : UInt8).toNat / 16,
          toNat_div_sixteen_lt 0x12⟩] false, .nil, .none⟩
        (.cons ⟨rfl, rfl, trailOf_hexPrefix [⟨(0x12 : UInt8).toNat % 16,
          toNat_mod_sixteen_lt 0x12⟩] true, .nil, .none⟩ .nil),
      fun s hs => by
        rcases List.mem_pair.mp hs with rfl | rfl
        · exact ⟨by decide, fun v hv => by cases hv; decide⟩
        · exact ⟨by decide, fun v hv => by cases hv; decide⟩⟩
    ⟨fun f hf => by
        rw [List.mem_singleton.mp hf]
        exact .inl ⟨_, rfl, rfl, rfl, by simp [Frame.branchAt], by simp [Frame.branchAt],
          .inl rfl⟩,
      ⟨rfl, rfl, rfl, rfl⟩, List.isChain_pair.mpr fun h => nomatch h⟩

end Unc
