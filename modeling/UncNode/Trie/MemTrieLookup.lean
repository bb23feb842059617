import Mathlib
import UncNode.Trie.MemTrieRefcount
import UncNode.Trie.NibbleSlice

/-!
# Lookups in the arena — `core/store/src/trie/mem/lookup.rs`

`memtrie_lookup` walks the nodes of an arena from a root, reading each through its view: a leaf
answers for its exact key, an extension passes the key on when it starts with the extension's
nibbles, and a branch answers for the empty key with its value and passes the rest of the key
to the child of the first nibble. The abstract trie of `Node.lean` is walked the same way;
`Denotes h p t` says that the node of the heap at `p`, with the nodes below it, stands for the
trie `t`, the keys of leaves and extensions read by `from_encoded`.

* `Denotes.mono`: a node keeps what it stands for in a heap that keeps every payload;
* `MemTrieNodePtr.lookupStep`: one round of the loop, with one lemma per kind of node;
* **`Stores.memtrieLookup_eq`**: in an arena that stores a heap, `memtrie_lookup` with enough
  fuel returns the lookup of the trie that the root stands for.
-/

set_option autoImplicit false

namespace Unc

/-! ## Nibbles as bytes -/

/-- A nibble as the byte `NibbleSlice::at` reads. -/
def nibbleByte (x : Nibble) : UInt8 := UInt8.ofNat x.val

@[simp] theorem toNat_nibbleByte (x : Nibble) : (nibbleByte x).toNat = x.val := by
  have := x.isLt
  simp only [nibbleByte, UInt8.toNat_ofNat']
  omega

theorem nibbleByte_injective : Function.Injective nibbleByte := fun x y hxy =>
  Fin.ext (by simpa using congrArg UInt8.toNat hxy)

theorem map_nibbleByte_inj {xs ys : List Nibble} : xs.map nibbleByte = ys.map nibbleByte ↔ xs = ys :=
  (List.map_injective_iff.mpr nibbleByte_injective).eq_iff

theorem map_nibbleByte_prefix {xs ys : List Nibble} :
    xs.map nibbleByte <+: ys.map nibbleByte ↔ xs <+: ys :=
  List.prefix_map_iff_of_injective nibbleByte_injective

/-- A key's slice reads the key's nibbles. -/
theorem nibbles_new_eq (key : List UInt8) :
    (NibbleSlice.new key).nibbles = (toNibbles key).map nibbleByte :=
  NibbleSlice.nibbles_new key

/-- Hex-prefix bytes that `from_encoded` reads as the nibbles `ext`. -/
def EncodesKey (bytes : List UInt8) (ext : List Nibble) : Prop :=
  (NibbleSlice.fromEncoded bytes).map (·.1.nibbles) = some (ext.map nibbleByte)

instance (bytes : List UInt8) (ext : List Nibble) : Decidable (EncodesKey bytes ext) :=
  inferInstanceAs (Decidable (_ = _))

/-! ## The trie a node stands for -/

/-- The node of the heap at `p` stands for the trie `t`: a leaf and an extension for the nibbles
their key bytes encode, a branch for its sixteen children, where an absent child is the empty
trie. -/
inductive Denotes (h : NodeHeap) : ArenaPos → TrieNode FlatStateValue → Prop
  | leaf {p : ArenaPos} {value : FlatStateValue} {extension : List UInt8} {ext : List Nibble}
      (hp : h.payload p = some (.leaf value extension)) (hext : EncodesKey extension ext) :
      Denotes h p (.leaf ext value)
  | extension {p : ArenaPos} {extension : List UInt8} {child : MemTrieNodeId}
      {ext : List Nibble} {t : TrieNode FlatStateValue}
      (hp : h.payload p = some (.extension extension child)) (hext : EncodesKey extension ext)
      (hchild : Denotes h child.pos t) : Denotes h p (.extension ext t)
  | branch {p : ArenaPos} {children : List.Vector (Option MemTrieNodeId) 16}
      {ts : Nibble → TrieNode FlatStateValue}
      (hp : h.payload p = some (.branch children))
      (hnone : ∀ i, children.get i = none → ts i = .empty)
      (hsome : ∀ i id, children.get i = some id → Denotes h id.pos (ts i)) :
      Denotes h p (.branch ts none)
  | branchWithValue {p : ArenaPos} {children : List.Vector (Option MemTrieNodeId) 16}
      {value : FlatStateValue} {ts : Nibble → TrieNode FlatStateValue}
      (hp : h.payload p = some (.branchWithValue children value))
      (hnone : ∀ i, children.get i = none → ts i = .empty)
      (hsome : ∀ i id, children.get i = some id → Denotes h id.pos (ts i)) :
      Denotes h p (.branch ts (some value))

/-- A node stands for the same trie in a heap that keeps every payload. -/
theorem Denotes.mono {h h' : NodeHeap} (hk : h.Keeps h') {p : ArenaPos}
    {t : TrieNode FlatStateValue} (hd : Denotes h p t) : Denotes h' p t := by
  induction hd with
  | leaf hp hext => exact .leaf (hk _ _ hp) hext
  | extension hp hext _ ih => exact .extension (hk _ _ hp) hext ih
  | branch hp hnone _ ih => exact .branch (hk _ _ hp) hnone ih
  | branchWithValue hp hnone _ ih => exact .branchWithValue (hk _ _ hp) hnone ih

/-! ## `memtrie_lookup` -/

/-- What one round of `memtrie_lookup`'s loop ends in: the answer, or the node to go on with
and the nibbles left. -/
inductive LookupStep
  | done (value : Option FlatStateValue)
  | next (node : ArenaPos) (nibbles : NibbleSlice)

namespace MemTrieNodePtr

/-- The descent of both kinds of branch: `nibbles.at(0)` picks the child, `nibbles.mid(1)` is
what is left, and an absent child ends the lookup. -/
def descend (m : ArenaMemory) (children : ChildrenView) (nibbles : NibbleSlice) :
    Option LookupStep := do
  let first ← nibbles.at 0
  let nibbles ← nibbles.mid 1
  match ← children.get m first.toNat with
  | some child => pure (.next child nibbles)
  | none => pure (.done none)

/-- The body of `memtrie_lookup`'s loop at `node`. -/
def lookupStep (m : ArenaMemory) (node : ArenaPos) (nibbles : NibbleSlice) :
    Option LookupStep := do
  match ← viewImpl m node with
  | .leaf extension value =>
    let bytes ← extension.rawSlice m
    let (ext, _) ← NibbleSlice.fromEncoded bytes
    if ← nibbles.eq ext then
      let value ← value.toFlatValue m
      pure (.done (some value))
    else pure (.done none)
  | .extension _ _ extension child =>
    let bytes ← extension.rawSlice m
    let (ext, _) ← NibbleSlice.fromEncoded bytes
    if ← nibbles.startsWith ext then
      let nibbles ← nibbles.mid ext.len
      pure (.next child nibbles)
    else pure (.done none)
  | .branch _ _ children =>
    if nibbles.isEmpty then pure (.done none) else descend m children nibbles
  | .branchWithValue _ _ children value =>
    if nibbles.isEmpty then do
      let value ← value.toFlatValue m
      pure (.done (some value))
    else descend m children nibbles

/-- `memtrie_lookup`'s loop, for `fuel` rounds. -/
def lookupLoop (m : ArenaMemory) : Nat → ArenaPos → NibbleSlice → Option (Option FlatStateValue)
  | 0, _, _ => none
  | fuel + 1, node, nibbles => do
    match ← lookupStep m node nibbles with
    | .done value => pure value
    | .next child nibbles => lookupLoop m fuel child nibbles

/-- `memtrie_lookup` from `root`, with fuel for its loop. The nodes it visits, which the source
can record with their hashes, are not modelled. -/
def memtrieLookup (m : ArenaMemory) (root : ArenaPos) (key : List UInt8) (fuel : Nat) :
    Option (Option FlatStateValue) :=
  lookupLoop m fuel root (NibbleSlice.new key)

end MemTrieNodePtr

/-! ## One round -/

namespace MemTrieNodePtr

variable {m : ArenaMemory} {p : ArenaPos} {view : MemTrieNodeView} {s : NibbleSlice}
  {ks : List Nibble}

theorem lookupStep_leaf {value : FlatStateValue} {extension : List UInt8} {ext : List Nibble}
    (hv : viewImpl m p = some view) (hshow : view.Shows m (.leaf value extension))
    (hext : EncodesKey extension ext) (hs : s.nibbles = ks.map nibbleByte) :
    lookupStep m p s = some (.done (lookup (.leaf ext value) ks)) := by
  cases view with
  | leaf extSlice valueView =>
    obtain ⟨hbytes, hvalue⟩ := hshow
    obtain ⟨⟨slice, flag⟩, hdec, hnib⟩ := Option.map_eq_some_iff.mp hext
    dsimp only at hnib
    simp only [lookupStep, hv, hbytes, hdec, NibbleSlice.eq_eq, hs, hnib, map_nibbleByte_inj,
      hvalue, lookup_leaf, decide_eq_true_eq, Option.bind_eq_bind, Option.bind_some]
    split_ifs <;> rfl
  | _ => exact hshow.elim

theorem lookupStep_extension {extension : List UInt8} {child : MemTrieNodeId}
    {ext : List Nibble} (hv : viewImpl m p = some view)
    (hshow : view.Shows m (.extension extension child)) (hext : EncodesKey extension ext)
    (hs : s.nibbles = ks.map nibbleByte) :
    (ext <+: ks → ∃ s', lookupStep m p s = some (.next child.pos s') ∧
      s'.nibbles = (ks.drop ext.length).map nibbleByte) ∧
    (¬ ext <+: ks → lookupStep m p s = some (.done none)) := by
  cases view with
  | extension hash mu extSlice childPos =>
    obtain ⟨hbytes, rfl⟩ := hshow
    obtain ⟨⟨slice, flag⟩, hdec, hnib⟩ := Option.map_eq_some_iff.mp hext
    dsimp only at hnib
    have hstep : lookupStep m p s = if ext <+: ks then (s.mid slice.len).map (.next child.pos)
        else some (.done none) := by
      simp only [lookupStep, hv, hbytes, hdec, NibbleSlice.startsWith_eq, hs, hnib,
        map_nibbleByte_prefix, decide_eq_true_eq, Option.bind_eq_bind, Option.bind_some]
      split_ifs <;> simp [Option.map_eq_bind]
    refine ⟨fun hpre => ?_, fun hpre => by rw [hstep, if_neg hpre]⟩
    -- the key is at least as long as the extension, so `mid` stays inside the slice
    have hlen : slice.len ≤ s.len := by
      rw [← NibbleSlice.length_nibbles, ← NibbleSlice.length_nibbles, hnib, hs]
      simpa using hpre.length_le
    obtain ⟨s', hmid, hs'⟩ := NibbleSlice.mid_eq_some hlen
    refine ⟨s', by rw [hstep, if_pos hpre, hmid, Option.map_some], ?_⟩
    rw [hs', hs, List.map_drop, ← NibbleSlice.length_nibbles, hnib, List.length_map]
  | _ => exact hshow.elim

/-- A branch passes a non-empty key to the child of its first nibble. -/
theorem descend_cons {v : ChildrenView} {children : List.Vector (Option MemTrieNodeId) 16}
    (hshow : v.Shows m children) {k : Nibble} {rest : List Nibble}
    (hs : s.nibbles = (k :: rest).map nibbleByte) :
    ∃ s', s'.nibbles = rest.map nibbleByte ∧ descend m v s =
      some ((children.get k).elim (.done none) fun id => .next id.pos s') := by
  have hlen : 1 ≤ s.len := by
    rw [← NibbleSlice.length_nibbles, hs]
    simp
  obtain ⟨s', hmid, hs'⟩ := NibbleSlice.mid_eq_some hlen
  refine ⟨s', by rw [hs', hs, List.map_cons, List.drop_one, List.tail_cons], ?_⟩
  have hget : v.get m k = some ((children.get k).map (·.pos)) := hshow.1 k
  cases hk : children.get k <;>
    simp [descend, NibbleSlice.at_zero, hs, hmid, hget, hk, Option.bind_eq_bind]

/-- The rounds at a branch: the value for the empty key, the child's lookup otherwise. -/
theorem lookupStep_branch {children : List.Vector (Option MemTrieNodeId) 16}
    {value : Option FlatStateValue} (hv : viewImpl m p = some view)
    (hshow : view.Shows m (value.elim (.branch children) (.branchWithValue children)))
    (hs : s.nibbles = ks.map nibbleByte) :
    (ks = [] → lookupStep m p s = some (.done value)) ∧
    ∀ k rest, ks = k :: rest → ∃ s', s'.nibbles = rest.map nibbleByte ∧
      lookupStep m p s = some ((children.get k).elim (.done none) fun id => .next id.pos s') := by
  -- both kinds of branch descend alike; they differ only at the empty key
  obtain ⟨v, hv', hnil, hdesc⟩ : ∃ v, v.Shows m children ∧
      (ks = [] → lookupStep m p s = some (.done value)) ∧
      (ks ≠ [] → lookupStep m p s = descend m v s) := by
    cases value with
    | none =>
      cases view with
      | branch hash mu v =>
        refine ⟨v, hshow, fun hnil => ?_, fun hne => ?_⟩
        · simp [lookupStep, hv, hs, hnil]
        · simp [lookupStep, hv, hs, hne]
      | _ => exact hshow.elim
    | some value =>
      cases view with
      | branchWithValue hash mu v vv =>
        refine ⟨v, hshow.1, fun hnil => ?_, fun hne => ?_⟩
        · simp [lookupStep, hv, hs, hnil, hshow.2, Option.bind_eq_bind]
        · simp [lookupStep, hv, hs, hne]
      | _ => exact hshow.elim
  refine ⟨hnil, fun k rest hks => ?_⟩
  subst hks
  obtain ⟨s', hs', hd⟩ := descend_cons hv' hs
  exact ⟨s', hs', by rw [hdesc (List.cons_ne_nil _ _), hd]⟩

/-! ## The loop -/

theorem lookupLoop_done {v : Option FlatStateValue} (h : lookupStep m p s = some (.done v)) :
    ∃ n, ∀ fuel, n ≤ fuel → lookupLoop m fuel p s = some v := by
  refine ⟨1, fun fuel hfuel => ?_⟩
  obtain ⟨fuel, rfl⟩ := Nat.exists_eq_add_of_le' hfuel
  simp [lookupLoop, h]

theorem lookupLoop_next {q : ArenaPos} {s' : NibbleSlice} {r : Option FlatStateValue}
    (h : lookupStep m p s = some (.next q s'))
    (hnext : ∃ n, ∀ fuel, n ≤ fuel → lookupLoop m fuel q s' = some r) :
    ∃ n, ∀ fuel, n ≤ fuel → lookupLoop m fuel p s = some r := by
  obtain ⟨n, hn⟩ := hnext
  refine ⟨n + 1, fun fuel hfuel => ?_⟩
  obtain ⟨fuel, rfl⟩ := Nat.exists_eq_add_of_le' (show 1 ≤ fuel by omega)
  simp only [lookupLoop, h, Option.bind_eq_bind, Option.bind_some]
  exact hn fuel (by omega)

end MemTrieNodePtr

/-! ## Lookups agree -/

variable {ar : Arena} {live : List ArenaSliceMut} {free : Nat → List ArenaPos} {h : NodeHeap}

/-- The view of a node of the heap shows its payload. -/
theorem Stores.view (hs : Stores ar live free h) {p : ArenaPos} {node : InputMemTrieNode}
    (hp : h.payload p = some node) :
    ∃ view, MemTrieNodePtr.viewImpl ar.memory p = some view ∧ view.Shows ar.memory node := by
  obtain ⟨c, hc, rfl⟩ := RcHeap.Heap.payload_eq_some.mp hp
  obtain ⟨_, _, hst⟩ := hs.nodes p c hc
  exact (hst.viewImpl hs.arena).1

/-- The rounds from a branch of either kind, given those from its children. -/
theorem Stores.lookupLoop_branch (hs : Stores ar live free h) {p : ArenaPos}
    {children : List.Vector (Option MemTrieNodeId) 16} (value : Option FlatStateValue)
    {ts : Nibble → TrieNode FlatStateValue}
    (hp : h.payload p = some (value.elim (.branch children) (.branchWithValue children)))
    (hnone : ∀ i, children.get i = none → ts i = .empty)
    (ih : ∀ i id, children.get i = some id → ∀ {ks : List Nibble} {s : NibbleSlice},
      s.nibbles = ks.map nibbleByte → ∃ n, ∀ fuel, n ≤ fuel →
        MemTrieNodePtr.lookupLoop ar.memory fuel id.pos s = some (lookup (ts i) ks))
    {ks : List Nibble} {s : NibbleSlice} (hs' : s.nibbles = ks.map nibbleByte) :
    ∃ n, ∀ fuel, n ≤ fuel →
      MemTrieNodePtr.lookupLoop ar.memory fuel p s = some (lookup (.branch ts value) ks) := by
  obtain ⟨view, hv, hshow⟩ := hs.view hp
  obtain ⟨hnil, hcons⟩ := MemTrieNodePtr.lookupStep_branch hv hshow hs'
  cases ks with
  | nil => exact MemTrieNodePtr.lookupLoop_done (hnil rfl)
  | cons k rest =>
    obtain ⟨s', hs'', hstep⟩ := hcons k rest rfl
    rw [lookup_branch_cons]
    cases hk : children.get k with
    | none =>
      rw [hk] at hstep
      rw [hnone k hk]
      exact MemTrieNodePtr.lookupLoop_done hstep
    | some id =>
      rw [hk] at hstep
      exact MemTrieNodePtr.lookupLoop_next hstep (ih k id hk hs'')

/-- The loop from a node that stands for `t` looks up `t`, by induction on what the node stands
for: each round is one node of the trie, and an extension or a branch goes on with the child
that the abstract lookup goes on with. -/
theorem Stores.lookupLoop (hs : Stores ar live free h) {p : ArenaPos}
    {t : TrieNode FlatStateValue} (hd : Denotes h p t) :
    ∀ {ks : List Nibble} {s : NibbleSlice}, s.nibbles = ks.map nibbleByte →
      ∃ n, ∀ fuel, n ≤ fuel →
        MemTrieNodePtr.lookupLoop ar.memory fuel p s = some (lookup t ks) := by
  induction hd with
  | leaf hp hext =>
    intro ks s hs'
    obtain ⟨view, hv, hshow⟩ := hs.view hp
    exact MemTrieNodePtr.lookupLoop_done (MemTrieNodePtr.lookupStep_leaf hv hshow hext hs')
  | @extension p extension child ext t hp hext _ ih =>
    intro ks s hs'
    obtain ⟨view, hv, hshow⟩ := hs.view hp
    obtain ⟨hyes, hno⟩ := MemTrieNodePtr.lookupStep_extension hv hshow hext hs'
    by_cases hpre : ext <+: ks
    · obtain ⟨s', hstep, hs''⟩ := hyes hpre
      rw [lookup_extension, if_pos hpre]
      exact MemTrieNodePtr.lookupLoop_next hstep (ih hs'')
    · rw [lookup_extension, if_neg hpre]
      exact MemTrieNodePtr.lookupLoop_done (hno hpre)
  | branch hp hnone _ ih =>
    intro ks s hs'
    exact hs.lookupLoop_branch none hp hnone ih hs'
  | branchWithValue hp hnone _ ih =>
    intro ks s hs'
    exact hs.lookupLoop_branch (some _) hp hnone ih hs'

/-- **`memtrie_lookup` looks up the trie the root stands for**: in an arena that stores a heap,
from a root that stands for `t`, with enough fuel the loop returns, and returns what the
abstract lookup of the key gives in `t`. -/
theorem Stores.memtrieLookup_eq (hs : Stores ar live free h) {p : ArenaPos}
    {t : TrieNode FlatStateValue} (hd : Denotes h p t) (key : List UInt8) :
    ∃ n, ∀ fuel, n ≤ fuel →
      MemTrieNodePtr.memtrieLookup ar.memory p key fuel = some (memtrieLookup t key) :=
  hs.lookupLoop hd (nibbles_new_eq key)

/-- The lookup of `[0x12]` from the held branch of `branch_run`: the nibble 1 leads to the leaf
below it, whose key holds the nibble 2 left. -/
theorem memtrieLookup_eq_branch : ∃ ar₁ id₁ ar₂ id₂ ar₃ n₃,
    MemTrieNodeId.newImpl Arena.new (.leaf (.inlined [7]) [0x32]) none = some (ar₁, id₁) ∧
      MemTrieNodeId.newImpl ar₁ (branchOver id₁) none = some (ar₂, id₂) ∧
      MemTrieNodeId.addRef ⟨id₂.pos⟩ ar₂ = some (ar₃, n₃) ∧
      ∃ fuel₀, ∀ fuel, fuel₀ ≤ fuel →
        MemTrieNodePtr.memtrieLookup ar₃.memory id₂.pos [0x12] fuel =
          some (memtrieLookup
            (.branch (fun i => if i = 1 then .leaf [2] (.inlined [7]) else .empty) none) [0x12]) := by
  obtain ⟨ar₁, id₁, ar₂, id₂, ar₃, n₃, -, -, h₁, h₂, h₃, -⟩ := branch_run
  have hr := branch_run_reachable h₁ h₂ h₃
  obtain ⟨live, free, hs⟩ := hr.nodesInv.stores
  obtain ⟨rank, hrank⟩ := hr.nodesInv.ranked
  -- the leaf ranks below the branch over it, so it sits at another position
  have hne : id₁.pos ≠ id₂.pos := fun heq => by
    have hlt := hrank id₂.pos _ (branch_run_cells id₁ id₂) id₁.pos
      (by simp [childPositions_branchOver])
    rw [heq] at hlt
    exact lt_irrefl _ hlt
  have hbranch : (branchRunHeap id₁ id₂).payload id₂.pos = some (branchOver id₁) := by
    simp [RcHeap.Heap.payload, branch_run_cells]
  have hleaf : (branchRunHeap id₁ id₂).payload id₁.pos = some (.leaf (.inlined [7]) [0x32]) := by
    -- the reference to the branch keeps every payload, and the branch went elsewhere
    change ([id₂.pos].foldl RcHeap.Heap.incr _).payload id₁.pos = _
    rw [RcHeap.Heap.payload_foldl_incr, RcHeap.payload_alloc, if_neg hne, RcHeap.payload_alloc,
      if_pos rfl]
  have hd : Denotes (branchRunHeap id₁ id₂) id₂.pos
      (.branch (fun i => if i = 1 then .leaf [2] (.inlined [7]) else .empty) none) := by
    refine .branch hbranch (fun i hi => ?_) (fun i id hi => ?_)
    · -- a slot without a child is a nibble other than 1
      have hi1 : i ≠ 1 := fun h1 => by simp [h1] at hi
      simp [hi1]
    · have hi1 : i.val = 1 ∧ id₁ = id := by simpa using hi
      obtain ⟨hval, rfl⟩ := hi1
      obtain rfl : i = 1 := Fin.ext hval
      simpa using Denotes.leaf hleaf (by decide)
  exact ⟨ar₁, id₁, ar₂, id₂, ar₃, n₃, h₁, h₂, h₃, Stores.memtrieLookup_eq hs hd [0x12]⟩

end Unc
