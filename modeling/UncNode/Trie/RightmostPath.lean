import Mathlib
import UncNode.Trie.Node

/-!
# The rightmost path of a trie under construction

A trie built from keys in increasing order is finished everywhere but along the path to the last
key. That path is a stack of frames, from the root down: a branch whose trail is the nibble of
its current child, with the children before it finished; an extension whose child is the rest of
the path; and at the bottom the leaf of the last key. A frame becomes a node once the frame
below it is finished into it (`fill`, then `close`); `wrap` finishes a stack onto a node.

* `lookup_wrap`: a lookup through the open frames of a stack reaches the node below them, when
  the key starts with the stack's path, and is the lookup with an empty node there otherwise;
* `Inserts.wrap`: so an insertion below the stack is an insertion into the whole trie;
* `Stable.canonical`: a stack of open frames above a leaf, each extension above a branch, is a
  canonical trie once finished;
* `toNibbles_lt`, `lt_of_append_cons`: keys in increasing order give nibble keys in increasing
  order, and two increasing keys differ first at a larger nibble of the later one;
* `Ready.stable`, `Ready.inserts`: a new leaf below a ready stack (open frames over a branch)
  makes a stable stack and inserts its key;
* `Stable.ready_extend`, `Stable.ready_branch`, `Stable.ready_edge`: where a larger key leaves a
  stable stack (past its leaf, at a branch, or inside an edge), the frames above that point,
  reshaped as `add_leaf` reshapes them, are ready and hold the same trie.
-/

set_option autoImplicit false

namespace Unc

variable {V : Type}

/-! ## Children given as a list -/

/-- The children of a branch, given as pairs of a nibble and a node, a later pair over an
earlier one of the same nibble. -/
def childrenOf (children : List (Nibble × TrieNode V)) : Nibble → TrieNode V :=
  children.foldl (fun f c => Function.update f c.1 c.2) noChildren

@[simp] theorem childrenOf_nil : childrenOf ([] : List (Nibble × TrieNode V)) = noChildren := rfl

theorem childrenOf_append_pair (children : List (Nibble × TrieNode V)) (k : Nibble)
    (t : TrieNode V) :
    childrenOf (children ++ [(k, t)]) = Function.update (childrenOf children) k t := by
  simp [childrenOf, List.foldl_append]

/-- A child is empty or one of the pairs. -/
theorem childrenOf_eq_empty_or_mem (children : List (Nibble × TrieNode V)) (i : Nibble) :
    childrenOf children i = .empty ∨ (i, childrenOf children i) ∈ children := by
  induction children using List.reverseRecOn with
  | nil => exact .inl rfl
  | append_singleton children x ih =>
    rw [childrenOf_append_pair]
    by_cases hi : i = x.1
    · subst hi
      exact .inr (by simp)
    · rw [Function.update_of_ne hi]
      exact ih.imp_right fun hmem => List.mem_append_left _ hmem

/-- A nibble of no pair has the empty child. -/
theorem childrenOf_of_forall_ne {children : List (Nibble × TrieNode V)} {i : Nibble}
    (h : ∀ x ∈ children, x.1 ≠ i) : childrenOf children i = .empty := by
  rcases childrenOf_eq_empty_or_mem children i with hi | hi
  · exact hi
  · exact absurd rfl (h _ hi)

/-- The child of a nibble of some pair is one of the pairs of that nibble. -/
theorem childrenOf_mem {children : List (Nibble × TrieNode V)} {i : Nibble} {t : TrieNode V}
    (h : (i, t) ∈ children) : (i, childrenOf children i) ∈ children := by
  induction children using List.reverseRecOn with
  | nil => simp at h
  | append_singleton children x ih =>
    rw [childrenOf_append_pair]
    by_cases hi : i = x.1
    · subst hi
      simp
    · rw [Function.update_of_ne hi]
      rcases List.mem_append.mp h with h | h
      · exact List.mem_append_left _ (ih h)
      · obtain rfl := List.mem_singleton.mp h
        exact absurd rfl hi

/-! ## Frames -/

/-- A segment of the rightmost path: its trail as nibbles, and its finished children (a branch)
or child (an extension) as nodes. -/
structure Frame (V : Type) where
  isBranch : Bool
  trail : List Nibble
  value : Option V
  children : List (Nibble × TrieNode V)
  child : Option (TrieNode V)

namespace Frame

/-- The node a finished frame becomes. -/
def close (f : Frame V) : TrieNode V :=
  if f.isBranch then .branch (childrenOf f.children) f.value
  else
    match f.value with
    | some v => .leaf f.trail v
    | none => .extension f.trail (f.child.getD .empty)

/-- The frame with `t` finished below it: the child at its trail's nibble (a branch), or its
child (an extension). -/
def fill (f : Frame V) (t : TrieNode V) : Frame V :=
  match f.isBranch, f.trail with
  | true, c :: _ => { f with children := f.children ++ [(c, t)] }
  | true, [] => f
  | false, _ => { f with child := some t }

end Frame

/-- The stack `fs` of frames with `t` finished below its bottom frame, finished to its top. -/
def wrap : List (Frame V) → TrieNode V → TrieNode V
  | [], t => t
  | f :: fs, t => (f.fill (wrap fs t)).close

/-- The frame that the stack `fs` above the bottom frame `g` finishes into. -/
def collapse : List (Frame V) → Frame V → Frame V
  | [], g => g
  | f :: fs, g => f.fill (collapse fs g).close

/-- The nibbles along a stack: its trails, from the top down. -/
def path (fs : List (Frame V)) : List Nibble := (fs.map Frame.trail).flatten

@[simp] theorem path_nil : path ([] : List (Frame V)) = [] := rfl

@[simp] theorem path_cons (f : Frame V) (fs : List (Frame V)) :
    path (f :: fs) = f.trail ++ path fs := rfl

@[simp] theorem path_append (fs gs : List (Frame V)) : path (fs ++ gs) = path fs ++ path gs := by
  simp [path]

theorem wrap_append (fs gs : List (Frame V)) (t : TrieNode V) :
    wrap (fs ++ gs) t = wrap fs (wrap gs t) := by
  induction fs with
  | nil => rfl
  | cons f fs ih => simp [wrap, ih]

theorem wrap_close (fs : List (Frame V)) (g : Frame V) : wrap fs g.close = (collapse fs g).close := by
  induction fs with
  | nil => rfl
  | cons f fs ih => rw [wrap, ih, collapse]

/-- Finishing the bottom open frame first. -/
theorem collapse_append_singleton (fs : List (Frame V)) (f g : Frame V) :
    collapse (fs ++ [f]) g = collapse fs (f.fill g.close) := by
  induction fs with
  | nil => rfl
  | cons f' fs ih => rw [List.cons_append, collapse, ih, collapse]

/-! ## Open frames -/

/-- An open branch frame at the nibble `c`: its finished children at smaller nibbles, in order
and canonical, and its value or a finished child, so that it has two entries once closed. -/
structure BranchOpen (f : Frame V) (c : Nibble) : Prop where
  isBranch : f.isBranch = true
  trail : f.trail = [c]
  child : f.child = none
  sorted : (f.children.map Prod.fst ++ [c]).Pairwise (· < ·)
  canonical : ∀ x ∈ f.children, TrieNode.Canonical x.2
  two : f.value.isSome ∨ f.children ≠ []

/-- An open extension frame: a non-empty trail and no child yet. -/
structure ExtOpen (f : Frame V) : Prop where
  isBranch : f.isBranch = false
  value : f.value = none
  child : f.child = none
  children : f.children = []
  trail : f.trail ≠ []

/-- A leaf frame. -/
structure LeafFrame (f : Frame V) : Prop where
  isBranch : f.isBranch = false
  value : f.value.isSome
  child : f.child = none
  children : f.children = []

/-- A frame whose edge is still open. -/
def Frame.Open (f : Frame V) : Prop := (∃ c, BranchOpen f c) ∨ ExtOpen f

theorem Frame.Open.child {f : Frame V} (hf : f.Open) : f.child = none :=
  hf.elim (fun ⟨_, hb⟩ => hb.child) ExtOpen.child

theorem Frame.Open.trail_ne_nil {f : Frame V} (hf : f.Open) : f.trail ≠ [] :=
  hf.elim (fun ⟨_, hb⟩ => by simp [hb.trail]) ExtOpen.trail

/-- A frame linked to a frame that is not a branch is a branch. -/
theorem isBranch_of_link {a b : Frame V} (hlink : a.isBranch = false → b.isBranch = true)
    (hb : b.isBranch = false) : a.isBranch = true := by
  cases ha : a.isBranch
  · simpa [hb] using hlink ha
  · rfl

theorem BranchOpen.close_fill {f : Frame V} {c : Nibble} (hf : BranchOpen f c) (t : TrieNode V) :
    (f.fill t).close =
      .branch (Function.update (childrenOf f.children) c t) f.value := by
  simp [Frame.fill, Frame.close, hf.isBranch, hf.trail, childrenOf_append_pair]

theorem ExtOpen.close_fill {f : Frame V} (hf : ExtOpen f) (t : TrieNode V) :
    (f.fill t).close = .extension f.trail t := by
  simp [Frame.fill, Frame.close, hf.isBranch, hf.value]

/-- **A lookup through open frames**: when the key starts with the path of the frames, the
lookup goes on in the node below them; otherwise it is that of the frames over the empty node. -/
theorem lookup_wrap : ∀ {fs : List (Frame V)}, (∀ f ∈ fs, f.Open) → ∀ (t : TrieNode V) key,
    lookup (wrap fs t) key = if path fs <+: key then lookup t (key.drop (path fs).length)
      else lookup (wrap fs .empty) key
  | [], _, t, key => by simp [wrap]
  | f :: fs, hopen, t, key => by
    have ih := lookup_wrap (fun g hg => hopen g (List.mem_cons_of_mem f hg))
    rcases hopen f List.mem_cons_self with ⟨c, hf⟩ | hf
    · -- a branch: the key goes on below it exactly when its first nibble is `c`
      simp only [wrap, hf.close_fill, path_cons, hf.trail]
      cases key with
      | nil => simp
      | cons d key =>
        by_cases hd : d = c
        · subst hd
          simp only [lookup_branch_cons, Function.update_self]
          rw [ih t key]
          simp
        · simp [Function.update_of_ne hd, Ne.symm hd]
    · -- an extension: the key goes on below it when it starts with the trail
      simp only [wrap, hf.close_fill, path_cons, lookup_extension]
      by_cases hpre : f.trail <+: key
      · obtain ⟨rest, rfl⟩ := hpre
        rw [if_pos (List.prefix_append _ _), List.drop_left, ih t rest]
        simp only [List.prefix_append_right_inj, List.length_append, List.drop_length_add_append,
          List.prefix_append, if_true]
      · have hnot : ¬ f.trail ++ path fs <+: key := fun h =>
          hpre ((List.prefix_append _ _).trans h)
        simp [hpre, hnot]

/-! ## Insertions -/

/-- `new` holds `v` at `k` and what `old` holds elsewhere. -/
def Inserts (old new : TrieNode V) (k : List Nibble) (v : V) : Prop :=
  ∀ key, lookup new key = if key = k then some v else lookup old key

theorem inserts_leaf (k : List Nibble) (v : V) : Inserts .empty (.leaf k v) k v := fun key => by
  simp [lookup_leaf]

theorem Inserts.branch {children : Nibble → TrieNode V} {value : Option V} {d : Nibble}
    {t : TrieNode V} {k : List Nibble} {v : V} (h : Inserts (children d) t k v) :
    Inserts (.branch children value) (.branch (Function.update children d t) value) (d :: k) v
  | [] => by simp
  | x :: key => by
    by_cases hx : x = d
    · subst hx
      simpa using h key
    · simp [hx]

theorem Inserts.extension {old new : TrieNode V} {k : List Nibble} {v : V}
    (h : Inserts old new k v) (ext : List Nibble) :
    Inserts (.extension ext old) (.extension ext new) (ext ++ k) v := fun key => by
  by_cases hpre : ext <+: key
  · obtain ⟨rest, rfl⟩ := hpre
    simp [lookup_extension_append, h rest]
  · have hne : key ≠ ext ++ k := fun h => hpre (h ▸ List.prefix_append ext k)
    simp [lookup_extension_of_not_isPrefix _ hpre, hne]

/-- **An insertion below the open frames of a stack is an insertion into the whole trie.** -/
theorem Inserts.wrap {fs : List (Frame V)} (hopen : ∀ f ∈ fs, f.Open) {old new : TrieNode V}
    {k : List Nibble} {v : V} (h : Inserts old new k v) :
    Inserts (Unc.wrap fs old) (Unc.wrap fs new) (path fs ++ k) v := fun key => by
  rw [lookup_wrap hopen, lookup_wrap hopen old]
  by_cases hpre : path fs <+: key
  · obtain ⟨rest, rfl⟩ := hpre
    simp [h rest]
  · have hne : key ≠ path fs ++ k := fun h => hpre (h ▸ List.prefix_append _ k)
    simp [hpre, hne]

/-! ## Splitting an edge into a branch -/

theorem lookup_extension_congr {child child' : TrieNode V} (h : lookup child = lookup child')
    (ext : List Nibble) : lookup (.extension ext child) = lookup (.extension ext child') := by
  funext key
  simp [lookup_extension, h]

theorem lookup_branch_update_congr {t t' : TrieNode V} (h : lookup t = lookup t')
    (children : Nibble → TrieNode V) (e : Nibble) (value : Option V) :
    lookup (.branch (Function.update children e t) value) =
      lookup (.branch (Function.update children e t') value) := by
  funext key
  cases key with
  | nil => rfl
  | cons d key =>
    by_cases hd : d = e
    · subst hd
      simp [h]
    · simp [Function.update_of_ne hd]

theorem lookup_extension_nil (child : TrieNode V) : lookup (.extension [] child) = lookup child := by
  funext key
  simp [lookup_extension]

/-- An extension is a branch with one child, at its first nibble. -/
theorem lookup_extension_cons (e : Nibble) (ext : List Nibble) (child : TrieNode V) :
    lookup (.extension (e :: ext) child) =
      lookup (.branch (Function.update noChildren e (.extension ext child)) none) := by
  funext key
  cases key with
  | nil => simp [lookup_extension]
  | cons d key =>
    by_cases hd : d = e
    · subst hd
      simp [lookup_extension]
    · simp [lookup_extension, Function.update_of_ne hd, Ne.symm hd]

/-- A leaf is a branch with one child, at its first nibble. -/
theorem lookup_leaf_cons (e : Nibble) (ext : List Nibble) (value : V) :
    lookup (.leaf (e :: ext) value) =
      lookup (.branch (Function.update noChildren e (.leaf ext value)) none) := by
  funext key
  cases key with
  | nil => simp [lookup_leaf]
  | cons d key =>
    by_cases hd : d = e
    · subst hd
      simp [lookup_leaf]
    · simp [lookup_leaf, hd]

/-- A leaf with an empty key is a branch with its value and no child. -/
theorem lookup_leaf_nil (value : V) :
    lookup (.leaf [] value) = lookup (.branch noChildren (some value)) := by
  funext key
  cases key <;> simp [lookup_leaf]

/-! ## Canonical stacks -/

/-- A stack finished from the top: open frames above a leaf, each extension right above a
branch. -/
structure Stable (opens : List (Frame V)) (g : Frame V) : Prop where
  allOpen : ∀ f ∈ opens, f.Open
  leaf : LeafFrame g
  chain : (opens ++ [g]).IsChain fun a b => a.isBranch = false → b.isBranch = true

theorem Stable.tail {f : Frame V} {opens : List (Frame V)} {g : Frame V}
    (hs : Stable (f :: opens) g) : Stable opens g :=
  ⟨fun x hx => hs.allOpen x (List.mem_cons_of_mem f hx), hs.leaf, hs.chain.tail⟩

/-- The finished children of an open branch sit at nibbles below its own. -/
theorem BranchOpen.lt {f : Frame V} {c : Nibble} (hf : BranchOpen f c) :
    ∀ x ∈ f.children, x.1 < c := fun x hx =>
  (List.pairwise_append.mp hf.sorted).2.2 x.1 (List.mem_map_of_mem hx) c
    (List.mem_singleton_self c)

/-- A closed open branch frame with a canonical child at its nibble is canonical. -/
theorem BranchOpen.canonical_close_fill {f : Frame V} {c : Nibble} (hf : BranchOpen f c)
    {t : TrieNode V} (ht : TrieNode.Canonical t) : TrieNode.Canonical (f.fill t).close := by
  rw [hf.close_fill]
  have hchild : ∀ i, childrenOf f.children i ≠ .empty →
      TrieNode.Canonical (childrenOf f.children i) := fun i hi =>
    (childrenOf_eq_empty_or_mem f.children i).elim (fun h => absurd h hi)
      fun hmem => hf.canonical _ hmem
  refine .branch (fun i hi => ?_) ⟨c, by simpa using ht.ne_empty⟩ (fun hv => ?_)
  · by_cases hic : i = c
    · subst hic
      simpa using ht
    · rw [Function.update_of_ne hic] at hi ⊢
      exact hchild i hi
  · obtain ⟨x, hx⟩ := List.exists_mem_of_ne_nil _
      (hf.two.resolve_left (by simp [hv]))
    have hne : x.1 ≠ c := (hf.lt x hx).ne
    have hmem := childrenOf_mem (show (x.1, x.2) ∈ f.children from hx)
    refine ⟨x.1, c, hne, ?_, by simpa using ht.ne_empty⟩
    rw [Function.update_of_ne hne]
    exact (hf.canonical _ hmem).ne_empty

/-- **A stable stack finishes into a canonical trie.** -/
theorem Stable.canonical : ∀ {opens : List (Frame V)} {g : Frame V}, Stable opens g →
    TrieNode.Canonical (wrap opens g.close)
  | [], g, hs => by
    obtain ⟨v, hv⟩ := Option.isSome_iff_exists.mp hs.leaf.value
    simpa [wrap, Frame.close, hs.leaf.isBranch, hv] using TrieNode.Canonical.leaf g.trail v
  | f :: opens, g, hs => by
    have ih := Stable.canonical hs.tail
    rcases hs.allOpen f List.mem_cons_self with ⟨c, hf⟩ | hf
    · exact hf.canonical_close_fill ih
    · -- an extension sits right above a branch, which finishes into a branch node
      rw [wrap, hf.close_fill]
      cases opens with
      | nil =>
        have := (List.isChain_cons_cons.mp hs.chain).1 hf.isBranch
        simp [hs.leaf.isBranch] at this
      | cons f' opens =>
        have hb := (List.isChain_cons_cons.mp hs.chain).1 hf.isBranch
        obtain ⟨c, hf'⟩ := (hs.tail.allOpen f' List.mem_cons_self).resolve_right fun h => by
          simp [h.isBranch] at hb
        rw [wrap, hf'.close_fill] at ih ⊢
        exact .extension hf.trail ih

/-! ## Keys in increasing order -/

theorem toNibbles_lt {a b : List UInt8} (h : a < b) : toNibbles a < toNibbles b := by
  induction h with
  | nil => exact List.Lex.nil
  | @cons x xs ys _ ih => exact List.Lex.cons (List.Lex.cons ih)
  | @rel x xs y ys hxy =>
    have hlt := UInt8.lt_iff_toNat_lt.mp hxy
    by_cases hhi : x.toNat / 16 = y.toNat / 16
    · have hnib : (⟨x.toNat / 16, toNat_div_sixteen_lt x⟩ : Nibble) =
          ⟨y.toNat / 16, toNat_div_sixteen_lt y⟩ := Fin.ext hhi
      rw [toNibbles, toNibbles, hnib]
      exact List.Lex.cons (List.Lex.rel (Fin.mk_lt_mk.mpr (by omega)))
    · exact List.Lex.rel (Fin.mk_lt_mk.mpr (by omega))

/-- Two increasing keys that agree up to where they differ differ at a larger nibble of the
later key. -/
theorem lt_of_append_cons {q a b : List Nibble} {e d : Nibble} (h : q ++ e :: a < q ++ d :: b)
    (hne : e ≠ d) : e < d := by
  induction q with
  | nil =>
    cases h with
    | cons _ => exact absurd rfl hne
    | rel h => exact h
  | cons x q ih =>
    cases h with
    | cons h => exact ih h
    | rel h => exact absurd h (lt_irrefl x)

/-! ## Adding a key below the stack -/

namespace Frame

/-- A branch frame at the nibble `c`, with no children yet. -/
def branchAt (c : Nibble) (value : Option V) : Frame V := ⟨true, [c], value, [], none⟩

/-- An extension frame, its child still to come. -/
def ext (trail : List Nibble) : Frame V := ⟨false, trail, none, [], none⟩

/-- A leaf frame. -/
def leafOf (trail : List Nibble) (v : V) : Frame V := ⟨false, trail, some v, [], none⟩

/-- The frame with another trail. -/
def withTrail (f : Frame V) (trail : List Nibble) : Frame V := { f with trail }

@[simp] theorem withTrail_isBranch (f : Frame V) (trail : List Nibble) :
    (f.withTrail trail).isBranch = f.isBranch := rfl

@[simp] theorem withTrail_trail (f : Frame V) (trail : List Nibble) :
    (f.withTrail trail).trail = trail := rfl

@[simp] theorem withTrail_value (f : Frame V) (trail : List Nibble) :
    (f.withTrail trail).value = f.value := rfl

@[simp] theorem withTrail_children (f : Frame V) (trail : List Nibble) :
    (f.withTrail trail).children = f.children := rfl

@[simp] theorem withTrail_child (f : Frame V) (trail : List Nibble) :
    (f.withTrail trail).child = f.child := rfl

@[simp] theorem withTrail_self (f : Frame V) : f.withTrail f.trail = f := rfl

/-- What stays below the first nibble of a finished edge: the rest of the edge, or the edge's
child where the edge is one nibble long. -/
def below (f : Frame V) : TrieNode V :=
  if 1 < f.trail.length || f.value.isSome then (f.withTrail (f.trail.drop 1)).close
  else f.child.getD .empty

@[simp] theorem fill_isBranch (f : Frame V) (t : TrieNode V) :
    (f.fill t).isBranch = f.isBranch := by
  unfold fill
  split <;> rfl

@[simp] theorem fill_trail (f : Frame V) (t : TrieNode V) : (f.fill t).trail = f.trail := by
  unfold fill
  split <;> rfl

@[simp] theorem fill_value (f : Frame V) (t : TrieNode V) : (f.fill t).value = f.value := by
  unfold fill
  split <;> rfl

@[simp] theorem close_leafOf (trail : List Nibble) (v : V) :
    (leafOf trail v).close = .leaf trail v := rfl

theorem close_of_isBranch {f : Frame V} (hf : f.isBranch = true) :
    f.close = .branch (childrenOf f.children) f.value := by
  simp [close, hf]

/-- A branch closes the same whatever its trail. -/
theorem close_withTrail_of_isBranch {f : Frame V} (hf : f.isBranch = true)
    (trail : List Nibble) : (f.withTrail trail).close = f.close := by
  simp [close, withTrail, hf]

/-- An edge closes into an extension of its first nibbles over the edge of the rest. -/
theorem lookup_close_append {f : Frame V} (hf : f.isBranch = false) (pre trail : List Nibble) :
    lookup (f.withTrail (pre ++ trail)).close =
      lookup (.extension pre (f.withTrail trail).close) := by
  cases hv : f.value with
  | some v => simp [close, withTrail, hf, hv, lookup_extension_leaf]
  | none => simp [close, withTrail, hf, hv, lookup_extension_extension]

/-- **An edge is a branch with one child**, at its first nibble: what stays below it. -/
theorem lookup_close_cons {f : Frame V} (hf : f.isBranch = false) {e : Nibble}
    {rest : List Nibble} (ht : f.trail = e :: rest) :
    lookup f.close = lookup (.branch (Function.update noChildren e f.below) none) := by
  cases hv : f.value with
  | some v => simp [close, below, withTrail, hf, hv, ht, lookup_leaf_cons]
  | none =>
    simp only [close, below, withTrail, hf, hv, ht, Bool.false_eq_true, if_false, Option.isSome_none,
      Bool.or_false, List.length_cons, List.drop_succ_cons, List.drop_zero]
    rw [lookup_extension_cons]
    cases rest with
    | nil => exact lookup_branch_update_congr (lookup_extension_nil _) _ _ _
    | cons _ _ => simp

theorem canonical_retrail {f : Frame V} (hf : f.isBranch = false)
    (hc : TrieNode.Canonical f.close) {trail : List Nibble} (ht : trail ≠ []) :
    TrieNode.Canonical (f.withTrail trail).close := by
  cases hv : f.value with
  | some v => simpa [close, withTrail, hf, hv] using TrieNode.Canonical.leaf trail v
  | none =>
    simp only [close, withTrail, hf, hv, Bool.false_eq_true, if_false] at hc ⊢
    generalize f.child.getD .empty = t at hc ⊢
    cases hc with
    | extension _ hb => exact .extension ht hb

/-- What stays below the first nibble of a canonical edge is canonical. -/
theorem canonical_below {f : Frame V} (hf : f.isBranch = false)
    (hc : TrieNode.Canonical f.close) : TrieNode.Canonical f.below := by
  cases hv : f.value with
  | some v => simpa [below, close, withTrail, hf, hv] using TrieNode.Canonical.leaf (f.trail.drop 1) v
  | none =>
    by_cases hlen : 1 < f.trail.length
    · have hne : f.trail.drop 1 ≠ [] := List.ne_nil_of_length_pos (by simp; omega)
      simpa [below, hlen] using canonical_retrail hf hc hne
    · simp only [close, hf, hv, Bool.false_eq_true, if_false] at hc
      simp only [below, hlen, hv, decide_false, Option.isSome_none, Bool.or_false,
        Bool.false_eq_true, if_false]
      generalize f.child.getD .empty = t at hc ⊢
      cases hc with
      | extension _ hb => exact hb

end Frame

theorem LeafFrame.close_fill {g : Frame V} (hg : LeafFrame g) (t : TrieNode V) :
    (g.fill t).close = g.close := by
  obtain ⟨v, hv⟩ := Option.isSome_iff_exists.mp hg.value
  simp [Frame.fill, Frame.close, hg.isBranch, hv]

/-- With an empty node below, an open branch closes as it stands. -/
theorem BranchOpen.close_fill_empty {b : Frame V} {d : Nibble} (hb : BranchOpen b d) :
    (b.fill .empty).close = b.close := by
  have hd : childrenOf b.children d = .empty :=
    childrenOf_of_forall_ne fun x hx => (hb.lt x hx).ne
  rw [hb.close_fill, Function.update_eq_self_iff.mpr hd.symm, Frame.close_of_isBranch hb.isBranch]

/-- A finished branch is open again at a nibble past its children. -/
theorem BranchOpen.fill_retrail {f : Frame V} {c d : Nibble} (hf : BranchOpen f c)
    {t : TrieNode V} (ht : TrieNode.Canonical t) (hcd : c < d) :
    BranchOpen ((f.fill t).withTrail [d]) d where
  isBranch := by simp [hf.isBranch]
  trail := rfl
  child := by simp [Frame.fill, hf.isBranch, hf.trail, hf.child]
  sorted := by
    simp only [Frame.fill, hf.isBranch, hf.trail, Frame.withTrail_children, List.map_append,
      List.map_cons, List.map_nil]
    refine List.pairwise_append.mpr ⟨hf.sorted, List.pairwise_singleton _ _, ?_⟩
    intro a ha b hb
    rw [List.mem_singleton.mp hb]
    rcases List.mem_append.mp ha with ha | ha
    · obtain ⟨x, hx, rfl⟩ := List.mem_map.mp ha
      exact (hf.lt x hx).trans hcd
    · rw [List.mem_singleton.mp ha]
      exact hcd
  canonical := by
    simp only [Frame.fill, hf.isBranch, hf.trail, Frame.withTrail_children, List.mem_append,
      List.mem_singleton]
    rintro x (hx | rfl)
    · exact hf.canonical x hx
    · exact ht
  two := .inr (by simp [Frame.fill, hf.isBranch, hf.trail])

/-- The branch that an edge becomes at its first nibble `e`, open at a larger nibble. -/
theorem branchOpen_branchAt_fill {e d : Nibble} (hed : e < d) {t : TrieNode V}
    (ht : TrieNode.Canonical t) :
    BranchOpen (((Frame.branchAt e none).fill t).withTrail [d]) d where
  isBranch := rfl
  trail := rfl
  child := rfl
  sorted := by simpa [Frame.branchAt, Frame.fill] using hed
  canonical := by
    simp only [Frame.branchAt, Frame.fill, Frame.withTrail_children, List.nil_append,
      List.mem_singleton]
    rintro x rfl
    exact ht
  two := .inr (by simp [Frame.branchAt, Frame.fill])

theorem lookup_wrap_congr {fs : List (Frame V)} (hopen : ∀ f ∈ fs, f.Open) {t t' : TrieNode V}
    (h : lookup t = lookup t') : lookup (wrap fs t) = lookup (wrap fs t') := by
  funext key
  rw [lookup_wrap hopen t, lookup_wrap hopen t', h]

/-- A stack that a new leaf can go below: its frames are open, each extension right above a
branch, and its bottom frame is a branch. -/
structure Ready (fs : List (Frame V)) : Prop where
  allOpen : ∀ f ∈ fs, f.Open
  chain : fs.IsChain fun a b => a.isBranch = false → b.isBranch = true
  last : ∀ f ∈ fs.getLast?, f.isBranch = true

theorem Ready.nil : Ready ([] : List (Frame V)) := ⟨by simp, .nil, by simp⟩

/-- Open frames with an open branch below them. -/
theorem Ready.of_append_branch {fs : List (Frame V)} {b : Frame V} {d : Nibble}
    (hopen : ∀ f ∈ fs, f.Open)
    (hchain : fs.IsChain fun a b => a.isBranch = false → b.isBranch = true)
    (hb : BranchOpen b d) : Ready (fs ++ [b]) where
  allOpen f hf := (List.mem_append.mp hf).elim (hopen f) fun h => by
    rw [List.mem_singleton.mp h]
    exact .inl ⟨d, hb⟩
  chain := hchain.append (List.isChain_singleton b) fun _ _ y hy _ => by
    rw [Option.mem_def, List.head?_singleton, Option.some.injEq] at hy
    exact hy ▸ hb.isBranch
  last f hf := by
    rw [List.getLast?_concat, Option.mem_def, Option.some.injEq] at hf
    exact hf ▸ hb.isBranch

theorem Ready.append {fs gs : List (Frame V)} (hf : Ready fs) (hg : Ready gs) :
    Ready (fs ++ gs) where
  allOpen f hmem := (List.mem_append.mp hmem).elim (hf.allOpen f) (hg.allOpen f)
  chain := hf.chain.append hg.chain fun x hx _ _ hxb => absurd (hf.last x hx) (by simp [hxb])
  last f hmem := by
    rw [List.getLast?_append] at hmem
    cases hlast : gs.getLast? with
    | none =>
      rw [hlast, Option.none_or] at hmem
      exact hf.last f hmem
    | some g =>
      rw [hlast, Option.some_or] at hmem
      exact hg.last f (hlast ▸ hmem)

/-- An extension above an open branch. -/
theorem Ready.ext {trail : List Nibble} (ht : trail ≠ []) {b : Frame V} {d : Nibble}
    (hb : BranchOpen b d) : Ready [Frame.ext trail, b] :=
  Ready.of_append_branch (fun f hf => by
    rw [List.mem_singleton.mp hf]
    exact .inr ⟨rfl, rfl, rfl, rfl, ht⟩) (List.isChain_singleton _) hb

/-- **A new leaf below a ready stack** makes a stable stack, and inserts its key. -/
theorem Ready.stable {fs : List (Frame V)} (hr : Ready fs) (rest : List Nibble) (v : V) :
    Stable fs (.leafOf rest v) where
  allOpen := hr.allOpen
  leaf := ⟨rfl, rfl, rfl, rfl⟩
  chain := hr.chain.append (List.isChain_singleton _) fun x hx _ _ hxb =>
    absurd (hr.last x hx) (by simp [hxb])

theorem Ready.inserts {fs : List (Frame V)} (hr : Ready fs) (rest : List Nibble) (v : V) :
    Inserts (wrap fs .empty) (wrap (fs ++ [.leafOf rest v]) .empty) (path fs ++ rest) v := by
  rw [wrap_append]
  exact Inserts.wrap hr.allOpen (inserts_leaf rest v)

/-- Below the open frames of a stable stack is its leaf. -/
theorem Stable.wrap_empty {opens : List (Frame V)} {g : Frame V} (hs : Stable opens g) :
    wrap (opens ++ [g]) .empty = wrap opens g.close := by
  rw [wrap_append, wrap, hs.leaf.close_fill]

theorem Stable.drop {pre os : List (Frame V)} {g : Frame V} (hs : Stable (pre ++ os) g) :
    Stable os g where
  allOpen f hf := hs.allOpen f (List.mem_append_right pre hf)
  leaf := hs.leaf
  chain := (List.append_assoc pre os [g] ▸ hs.chain).right_of_append

theorem Stable.openPrefix {pre os : List (Frame V)} {g : Frame V} (hs : Stable (pre ++ os) g) :
    (∀ f ∈ pre, f.Open) ∧ pre.IsChain fun a b => a.isBranch = false → b.isBranch = true :=
  ⟨fun f hf => hs.allOpen f (List.mem_append_left os hf),
    hs.chain.left_of_append.left_of_append⟩

/-- The open frames of a stable stack are ready: the frame above its leaf is a branch. -/
theorem Stable.ready {opens : List (Frame V)} {g : Frame V} (hs : Stable opens g) :
    Ready opens where
  allOpen := hs.allOpen
  chain := hs.chain.left_of_append
  last f hf := by
    exact isBranch_of_link ((List.isChain_append.mp hs.chain).2.2 f hf g (by simp))
      hs.leaf.isBranch

/-- The frames above an edge of a stable stack are ready: the frame above an edge is a
branch. -/
theorem Stable.ready_above_edge {pre os : List (Frame V)} {g : Frame V}
    (hs : Stable (pre ++ os) g) (hF : (collapse os g).isBranch = false) : Ready pre where
  allOpen := hs.openPrefix.1
  chain := hs.openPrefix.2
  last f hf := by
    have hchain : (pre ++ (os ++ [g])).IsChain fun a b => a.isBranch = false → b.isBranch = true :=
      List.append_assoc pre os [g] ▸ hs.chain
    -- the frame below `pre` is the top of the edge
    have hhead : ∃ y ∈ (os ++ [g]).head?, y.isBranch = false := by
      cases os with
      | nil => exact ⟨g, by simp, hF⟩
      | cons f' os => exact ⟨f', by simp, by simpa [collapse] using hF⟩
    obtain ⟨y, hy, hyb⟩ := hhead
    exact isBranch_of_link ((List.isChain_append.mp hchain).2.2 f hf y hy) hyb

/-- **A key past the leaf**: the leaf's value moves to a branch at the key's next nibble, under
an extension for the leaf's trail when it has one. -/
theorem Stable.ready_extend {opens : List (Frame V)} {g : Frame V} (hs : Stable opens g)
    {vo : V} (hv : g.value = some vo) (d : Nibble) {mids : List (Frame V)}
    (hmids : (g.trail = [] ∧ mids = []) ∨ (g.trail ≠ [] ∧ mids = [.ext g.trail])) :
    Ready (opens ++ mids ++ [.branchAt d (some vo)]) ∧
      lookup (wrap (opens ++ mids ++ [.branchAt d (some vo)]) .empty) =
        lookup (wrap (opens ++ [g]) .empty) := by
  have hb : BranchOpen (Frame.branchAt d (some vo)) d :=
    ⟨rfl, rfl, rfl, by simp [Frame.branchAt], by simp [Frame.branchAt], .inl rfl⟩
  have hclose : g.close = .leaf g.trail vo := by simp [Frame.close, hs.leaf.isBranch, hv]
  have hbclose : (Frame.branchAt d (some vo)).close = .branch noChildren (some vo) := rfl
  rw [hs.wrap_empty, List.append_assoc, wrap_append, wrap_append, wrap, wrap,
    hb.close_fill_empty, hbclose, hclose]
  rcases hmids with ⟨ht, rfl⟩ | ⟨ht, rfl⟩
  · refine ⟨hs.ready.append (Ready.of_append_branch (by simp) .nil hb), ?_⟩
    rw [ht]
    exact lookup_wrap_congr hs.allOpen (lookup_leaf_nil vo).symm
  · refine ⟨hs.ready.append (Ready.ext ht hb), lookup_wrap_congr hs.allOpen ?_⟩
    have he : ExtOpen (Frame.ext g.trail : Frame V) := ⟨rfl, rfl, rfl, rfl, ht⟩
    rw [wrap, wrap, he.close_fill, lookup_extension_congr (lookup_leaf_nil vo).symm]
    exact (lookup_extension_leaf g.trail [] vo).trans (by rw [List.append_nil])

/-- **A key that leaves the stack at a branch**: the branch, finished below, is open again at the
key's nibble. -/
theorem Stable.ready_branch {pre os : List (Frame V)} {f g : Frame V} {c d : Nibble}
    (hs : Stable (pre ++ f :: os) g) (hf : BranchOpen f c) (hcd : c < d) :
    Ready (pre ++ [(collapse (f :: os) g).withTrail [d]]) ∧
      wrap (pre ++ [(collapse (f :: os) g).withTrail [d]]) .empty =
        wrap (pre ++ f :: os ++ [g]) .empty := by
  have hs' : Stable ((pre ++ [f]) ++ os) g := by simpa using hs
  have ht : TrieNode.Canonical (wrap os g.close) := hs'.drop.canonical
  have hb := hf.fill_retrail ht hcd
  rw [collapse, ← wrap_close]
  refine ⟨Ready.of_append_branch hs.openPrefix.1 hs.openPrefix.2 hb, ?_⟩
  simp only [hs.wrap_empty, wrap_append, wrap]
  rw [hb.close_fill_empty, Frame.close_withTrail_of_isBranch (by simp [hf.isBranch])]

/-- The branch that an edge becomes at its first nibble `e`, with `t` below `e`. -/
theorem close_branchAt_fill (e : Nibble) (t : TrieNode V) (trail : List Nibble) :
    (((Frame.branchAt e none).fill t).withTrail trail).close =
      .branch (Function.update noChildren e t) none := by
  rw [Frame.close_withTrail_of_isBranch rfl]
  simp only [Frame.close, Frame.branchAt, Frame.fill, List.nil_append, if_true]
  congr 1

/-- **A key that leaves the stack inside an edge**: the edge becomes a branch at the nibble
where the key leaves it, under an extension for the nibbles before when there are some, with
what stays of the edge as the branch's first child; the branch is open at the key's nibble. -/
theorem Stable.ready_edge {pre os : List (Frame V)} {g : Frame V} {T1 T2 : List Nibble}
    {e d : Nibble} (hs : Stable (pre ++ os) g) (hF : (collapse os g).isBranch = false)
    (ht : (collapse os g).trail = T1 ++ e :: T2) (hed : e < d) {mids : List (Frame V)}
    (hmids : (T1 = [] ∧ mids = []) ∨ (T1 ≠ [] ∧ mids = [.ext T1])) :
    Ready (pre ++ mids ++
        [((Frame.branchAt e none).fill ((collapse os g).withTrail (e :: T2)).below).withTrail [d]]) ∧
      lookup (wrap (pre ++ mids ++
          [((Frame.branchAt e none).fill ((collapse os g).withTrail (e :: T2)).below).withTrail
            [d]]) .empty) =
        lookup (wrap (pre ++ os ++ [g]) .empty) := by
  have hc : TrieNode.Canonical (collapse os g).close := by
    rw [← wrap_close]
    exact hs.drop.canonical
  have hc' : TrieNode.Canonical ((collapse os g).withTrail (e :: T2)).close :=
    Frame.canonical_retrail hF hc (List.cons_ne_nil e T2)
  have hb := branchOpen_branchAt_fill hed (Frame.canonical_below (by simpa using hF) hc')
  -- the old trie ends in the edge, the new one in the branch it becomes
  have hold : wrap (pre ++ os ++ [g]) .empty = wrap pre (collapse os g).close := by
    rw [hs.wrap_empty, wrap_append, wrap_close]
  have hlook := Frame.lookup_close_cons (f := (collapse os g).withTrail (e :: T2))
    (by simpa using hF) rfl
  rw [hold]
  rcases hmids with ⟨rfl, rfl⟩ | ⟨hT1, rfl⟩
  · rw [List.append_nil]
    refine ⟨Ready.of_append_branch hs.openPrefix.1 hs.openPrefix.2 hb, ?_⟩
    rw [List.nil_append] at ht
    rw [wrap_append]
    refine lookup_wrap_congr hs.openPrefix.1 ?_
    rw [wrap, wrap, hb.close_fill_empty, close_branchAt_fill, ← hlook, ← ht,
      Frame.withTrail_self]
  · rw [List.append_assoc, List.singleton_append]
    refine ⟨(hs.ready_above_edge hF).append (Ready.ext hT1 hb), ?_⟩
    rw [wrap_append]
    refine lookup_wrap_congr hs.openPrefix.1 ?_
    have he : ExtOpen (Frame.ext T1 : Frame V) := ⟨rfl, rfl, rfl, rfl, hT1⟩
    have hsplit : lookup (collapse os g).close =
        lookup (.extension T1 ((collapse os g).withTrail (e :: T2)).close) := by
      rw [← Frame.lookup_close_append hF, ← ht, Frame.withTrail_self]
    rw [wrap, wrap, wrap, hb.close_fill_empty, close_branchAt_fill, he.close_fill,
      hsplit, lookup_extension_congr hlook]
    rfl

end Unc
