import Mathlib
import UncNode.Lib.SortedMap
import UncNode.Trie.StateRoot

/-!
# Trie iteration — `core/store/src/trie/iterator.rs`

`TrieIterator` walks a trie depth first with an explicit stack: the trail of crumbs from the
root to the node being processed, each with its status (`Entering`, `At`, `AtChild(0..15)`,
`Exiting`), and the nibbles of the path to it. `iter_step` moves the top crumb on one status
and says what to do (go on, pop the crumb, descend into a child, yield a value); `next` runs
`iter_step` until a value is yielded, skipping what the prune condition rules out.
`seek_prefix` rebuilds the trail down to the prefix and marks the crumbs it passes as prefix
boundaries, so that the iteration does not leave the prefix's subtree.

* `TrieNode.entries`: the abstract content of a node, its entries with their paths in
  depth-first order; `mem_entries` reads them as `lookup`, `keysSorted_entries` says they
  strictly increase.
* `trailSteps_lt_of_iterStep`: every step lowers the work left on the trail, so `next` and
  `collect` terminate.
* `Inv` and `remaining`: the trail is a path of parents from the root with the key nibbles at
  its top, and what it has still to yield is the entries each crumb has not reached;
  `iterStep_spec` is the step lemma, `collect_spec` the run lemma.
* **`collect_seekPrefix`**: after `seek_prefix(p)` the iterator yields the entries with the
  prefix `p` that the prune condition keeps, when it is closed under extension.
* **`trie_iterator_yields_map`**: on a trie built by updates, the iterator yields the map's
  entries in strictly increasing key order; after `seek_prefix(p)` those whose key starts with
  `p`; and with a prune condition closed under extension those whose nibbles it keeps.
-/

set_option autoImplicit false

namespace Unc

open SortedMap

variable {V : Type}

/-! ## The entries of a trie -/

/-- The entries below a node, with their nibble paths from it, in depth-first order: a branch's
own value before its children, the children in nibble order. -/
def TrieNode.entries : TrieNode V → List (List Nibble × V)
  | .empty => []
  | .leaf key value => [(key, value)]
  | .extension key child => child.entries.map fun e => (key ++ e.1, e.2)
  | .branch children value =>
    (value.map fun v => ([], v)).toList ++
      (List.finRange 16).flatMap fun i => (children i).entries.map fun e => (i :: e.1, e.2)

/-- Entries moved below the path `p`. -/
def shift (p : List Nibble) (l : List (List Nibble × V)) : List (List Nibble × V) :=
  l.map fun e => (p ++ e.1, e.2)

/-- The entries of the children of a branch at path `p`, from child `j` on. -/
def childEntries (children : Nibble → TrieNode V) (p : List Nibble) (j : Nat) :
    List (List Nibble × V) :=
  ((List.finRange 16).drop j).flatMap fun i => shift (p ++ [i]) (children i).entries

/-! ## What the entries say -/

theorem mem_shift {p q : List Nibble} {v : V} {l : List (List Nibble × V)} :
    (q, v) ∈ shift p l ↔ ∃ q', q = p ++ q' ∧ (q', v) ∈ l := by
  simp only [shift, List.mem_map, Prod.mk.injEq, Prod.exists]
  constructor
  · rintro ⟨q', v', hmem, rfl, rfl⟩
    exact ⟨q', rfl, hmem⟩
  · rintro ⟨q', rfl, hmem⟩
    exact ⟨q', v, hmem, rfl, rfl⟩

/-- **The entries of a node are what `lookup` finds in it.** -/
theorem mem_entries (t : TrieNode V) (q : List Nibble) (v : V) :
    (q, v) ∈ t.entries ↔ lookup t q = some v := by
  induction t generalizing q with
  | empty => simp [TrieNode.entries]
  | leaf key value =>
    by_cases h : q = key
    · simp [TrieNode.entries, lookup_leaf, h, eq_comm]
    · simp [TrieNode.entries, lookup_leaf, h]
  | extension key child ih =>
    change (q, v) ∈ shift key child.entries ↔ _
    rw [mem_shift, lookup_extension]
    constructor
    · rintro ⟨q', rfl, hmem⟩
      simpa using (ih q').mp hmem
    · intro h
      split_ifs at h with hp
      obtain ⟨q', rfl⟩ := hp
      exact ⟨q', rfl, (ih q').mpr (by simpa using h)⟩
  | branch children value ih =>
    cases q with
    | nil => cases value <;> simp [TrieNode.entries, eq_comm]
    | cons i q => cases value <;> simp [TrieNode.entries, ← ih]

theorem keysSorted_shift (p : List Nibble) {l : List (List Nibble × V)} (hs : KeysSorted l) :
    KeysSorted (shift p l) :=
  List.pairwise_map.mpr (hs.imp fun h => List.append_left_lt h)

/-- **The entries of any node strictly increase**: a branch's value comes first, at the empty
path, and the children follow in nibble order. -/
theorem keysSorted_entries (t : TrieNode V) : KeysSorted t.entries := by
  induction t with
  | empty => exact keysSorted_nil
  | leaf key value => exact List.pairwise_singleton _ _
  | extension key child ih => exact keysSorted_shift key ih
  | branch children value ih =>
    have hchild (i : Nibble) : KeysSorted ((children i).entries.map fun e => (i :: e.1, e.2)) :=
      keysSorted_shift [i] (ih i)
    refine List.pairwise_append.mpr ⟨?_, ?_, ?_⟩
    · cases value <;> simp
    · refine List.pairwise_flatMap.mpr ⟨fun i _ => hchild i, ?_⟩
      refine (List.pairwise_lt_finRange 16).imp fun hij => ?_
      simp only [List.mem_map]
      rintro _ ⟨a, -, rfl⟩ _ ⟨b, -, rfl⟩
      exact List.cons_lt_cons_iff.mpr (Or.inl hij)
    · cases value
      · simp
      · simp only [List.mem_flatMap, List.mem_map]
        rintro _ h _ ⟨_, -, _, -, rfl⟩
        simp at h
        exact h ▸ List.nil_lt_cons _ _

/-! ## The iterator -/

/-- `CrumbStatus`: a node is `Entering`, then `At` itself, then, for a branch, `AtChild(0)` to
`AtChild(15)`, then `Exiting`. -/
inductive CrumbStatus where
  | entering
  | at
  | atChild (i : Nibble)
  | exiting
  deriving DecidableEq

/-- `Crumb`: a node on the trail with how far its processing has got. -/
structure Crumb (V : Type) where
  node : TrieNode V
  status : CrumbStatus
  prefixBoundary : Bool

/-- `Crumb::increment`: the next status; a prefix boundary exits at once. -/
def Crumb.increment (c : Crumb V) : Crumb V :=
  if c.prefixBoundary then { c with status := .exiting }
  else
    { c with
      status :=
        match c.status, c.node with
        | _, .empty => .exiting
        | .entering, _ => .at
        | .at, .branch _ _ => .atChild 0
        | .atChild x, .branch _ _ => if x < 15 then .atChild (x + 1) else .exiting
        | _, _ => .exiting }

@[simp] theorem Crumb.increment_node (c : Crumb V) : c.increment.node = c.node := by
  unfold Crumb.increment
  split <;> rfl

@[simp] theorem Crumb.increment_prefixBoundary (c : Crumb V) :
    c.increment.prefixBoundary = c.prefixBoundary := by
  unfold Crumb.increment
  split <;> rfl

theorem Crumb.prefixBoundary_eq_false (c : Crumb V) (h : c.increment.status ≠ .exiting) :
    c.prefixBoundary = false := by
  unfold Crumb.increment at h
  split at h
  · exact absurd rfl h
  · simpa using ‹¬c.prefixBoundary = true›

/-- `TrieIterator`: the root of the trie (a child handle is the child itself), the trail with
its top (`trail.last()`) first, the nibbles of the path to the top, and the prune condition. -/
structure TrieIterator (V : Type) where
  root : TrieNode V
  trail : List (Crumb V)
  keyNibbles : List Nibble
  pruneCondition : Option (List Nibble → Bool)

/-- `IterStep`. -/
inductive IterStep (V : Type) where
  | continue
  | popTrail
  | descend (node : TrieNode V)
  | value (value : V)

namespace TrieIterator

/-- `descend_into_node`: the node pushed on the trail, entering. -/
def descendIntoNode (it : TrieIterator V) (node : TrieNode V) : TrieIterator V :=
  { it with trail := ⟨node, .entering, false⟩ :: it.trail }

/-- `TrieIterator::new`. -/
def new (root : TrieNode V) (pruneCondition : Option (List Nibble → Bool)) : TrieIterator V :=
  descendIntoNode ⟨root, [], [], pruneCondition⟩ root

/-- The key nibbles left when a node is exited: `truncate(l - existing_key.len())` for a leaf or
an extension, `pop()` for a branch. -/
def exitNibbles (node : TrieNode V) (keyNibbles : List Nibble) : List Nibble :=
  match node with
  | .leaf key _ | .extension key _ => keyNibbles.take (keyNibbles.length - key.length)
  | .branch _ _ => keyNibbles.dropLast
  | .empty => keyNibbles

/-- `*self.key_nibbles.last_mut().expect(..) = i`; `none` is the `expect`'s panic. -/
def setLast (keyNibbles : List Nibble) (i : Nibble) : Option (List Nibble) :=
  if keyNibbles = [] then none else some (keyNibbles.dropLast ++ [i])

/-- The `match` of `iter_step` on the incremented crumb, with the key nibbles it leaves; `none`
is the `panic!` on a status that `increment` never gives. -/
def stepAt (last : Crumb V) (keyNibbles : List Nibble) : Option (IterStep V × List Nibble) :=
  match last.status, last.node with
  | .exiting, node => some (.popTrail, exitNibbles node keyNibbles)
  | .at, .branch _ (some value) => some (.value value, keyNibbles)
  | .at, .branch _ none => some (.continue, keyNibbles)
  | .at, .leaf key value => some (.value value, keyNibbles ++ key)
  | .at, .extension key child => some (.descend child, keyNibbles ++ key)
  | .atChild i, .branch children _ =>
    let keyNibbles := if i = 0 then keyNibbles ++ [0] else keyNibbles
    if (children i).isEmpty then some (.continue, keyNibbles)
    else if i ≠ 0 then (setLast keyNibbles i).map fun keyNibbles => (.descend (children i), keyNibbles)
    else some (.descend (children i), keyNibbles)
  | _, _ => none

/-- `TrieIterator::iter_step`: `none` once the trail is empty. -/
def iterStep (it : TrieIterator V) : Option (IterStep V × TrieIterator V) :=
  match it.trail with
  | [] => none
  | crumb :: rest =>
    let last := crumb.increment
    (stepAt last it.keyNibbles).map fun (step, keyNibbles) =>
      (step, { it with trail := last :: rest, keyNibbles })

/-- `TrieIterator::key`: the nibbles two at a time as bytes, high nibble first; an odd last
nibble is dropped. -/
def key : List Nibble → List UInt8
  | high :: low :: rest => UInt8.ofNat (high.val * 16 + low.val) :: key rest
  | _ => []

/-- `can_process`: the prune condition does not hold at the key nibbles. -/
def canProcess (pruneCondition : Option (List Nibble → Bool)) (keyNibbles : List Nibble) : Bool :=
  match pruneCondition with
  | some pruneCondition => !pruneCondition keyNibbles
  | none => true

end TrieIterator

/-! ## Termination -/

/-- The steps a node takes from `Entering` until it is popped, its subtree included. -/
def TrieNode.steps : TrieNode V → Nat
  | .empty => 1
  | .leaf _ _ => 2
  | .extension _ child => child.steps + 2
  | .branch children _ => ((List.finRange 16).map fun i => (children i).steps + 1).sum + 2

/-- The steps of the children of a branch from child `j` on. -/
def childSteps (children : Nibble → TrieNode V) (j : Nat) : Nat :=
  (((List.finRange 16).drop j).map fun i => (children i).steps + 1).sum

/-- The steps a crumb still takes before it is popped, the subtree it will descend into
included. -/
def Crumb.steps (c : Crumb V) : Nat :=
  if c.prefixBoundary then 1
  else
    match c.status, c.node with
    | .entering, node => node.steps
    | .at, .branch children _ => childSteps children 0 + 1
    | .atChild i, .branch children _ => childSteps children (i.val + 1) + 1
    | _, _ => 1

/-- The steps of the child a crumb descends into next. -/
def Crumb.descendSteps (c : Crumb V) : Nat :=
  match c.status, c.node with
  | .at, .extension _ child => child.steps
  | .atChild i, .branch children _ => (children i).steps
  | _, _ => 0

/-- The steps left on a trail. -/
def trailSteps (trail : List (Crumb V)) : Nat :=
  (trail.map Crumb.steps).sum

/-- The steps pushed on the trail by a step. -/
def IterStep.steps : IterStep V → Nat
  | .descend node => node.steps
  | _ => 0

theorem TrieNode.steps_pos (node : TrieNode V) : 0 < node.steps := by
  cases node <;> simp [TrieNode.steps]

theorem Crumb.steps_pos (c : Crumb V) : 0 < c.steps := by
  unfold Crumb.steps
  split
  · exact Nat.one_pos
  · split <;> first | exact TrieNode.steps_pos _ | omega

/-- The children of a branch from `i` are child `i`, then those from `i + 1`. -/
theorem childSteps_eq_add (children : Nibble → TrieNode V) (i : Nibble) :
    childSteps children i.val = (children i).steps + 1 + childSteps children (i.val + 1) := by
  rw [childSteps, childSteps, List.drop_eq_getElem_cons (by simp), List.getElem_finRange]
  simp

/-- **A step lowers the steps of its crumb**, by the child it descends into as well. -/
theorem Crumb.descendSteps_add_steps_increment_lt (c : Crumb V)
    (h : c.increment.status ≠ .exiting) : c.increment.descendSteps + c.increment.steps < c.steps := by
  obtain ⟨node, status, boundary⟩ := c
  cases boundary
  case true => simp [Crumb.increment] at h
  case false =>
    cases status <;> cases node <;>
      simp_all [Crumb.increment, Crumb.steps, Crumb.descendSteps, TrieNode.steps]
    case entering.branch children value =>
      simp [childSteps]
    case at.branch children value =>
      have h0 := childSteps_eq_add children 0
      simp at h0
      omega
    case atChild.branch x children value =>
      have hsucc : x.val + 1 = (x + 1).val := (Fin.val_add_one_of_lt h).symm
      rw [hsucc, childSteps_eq_add children (x + 1)]
      omega

namespace TrieIterator

theorem stepAt_status {last : Crumb V} {keyNibbles keyNibbles' : List Nibble} {step : IterStep V}
    (h : stepAt last keyNibbles = some (step, keyNibbles')) :
    (step = .popTrail ↔ last.status = .exiting) ∧ step.steps ≤ last.descendSteps := by
  obtain ⟨node, status, boundary⟩ := last
  rcases status with _ | _ | i | _ <;>
    rcases node with _ | ⟨key, value⟩ | ⟨key, child⟩ | ⟨children, _ | value⟩ <;>
    simp only [stepAt, Option.some.injEq, Prod.mk.injEq, reduceCtorEq] at h
  -- `AtChild(i)` goes on, or descends into child `i`
  all_goals try split_ifs at h
  all_goals try simp only [Option.map_eq_some_iff, Option.some.injEq, Prod.mk.injEq] at h
  all_goals
    first
    | obtain ⟨rfl, -⟩ := h
    | obtain ⟨_, -, rfl, -⟩ := h
  all_goals simp [IterStep.steps, Crumb.descendSteps]

theorem trailSteps_cons (c : Crumb V) (rest : List (Crumb V)) :
    trailSteps (c :: rest) = c.steps + trailSteps rest := by
  simp [trailSteps]

theorem trailSteps_descendIntoNode (it : TrieIterator V) (node : TrieNode V) :
    trailSteps (it.descendIntoNode node).trail = node.steps + trailSteps it.trail := by
  simp [descendIntoNode, trailSteps, Crumb.steps]

/-- What `iter_step` does when it steps: the top crumb incremented, the key nibbles of `stepAt`. -/
theorem iterStep_eq_some {it it' : TrieIterator V} {step : IterStep V}
    (h : it.iterStep = some (step, it')) :
    ∃ c rest keyNibbles, it.trail = c :: rest ∧
      stepAt c.increment it.keyNibbles = some (step, keyNibbles) ∧
      it' = { it with trail := c.increment :: rest, keyNibbles } := by
  unfold iterStep at h
  split at h
  · exact absurd h nofun
  · rename_i c rest htrail
    obtain ⟨⟨step', keyNibbles⟩, hstep, heq⟩ := Option.map_eq_some_iff.mp h
    cases heq
    exact ⟨c, rest, keyNibbles, htrail, hstep, rfl⟩

theorem trailSteps_tail_lt_of_iterStep {it it' : TrieIterator V} {step : IterStep V}
    (h : it.iterStep = some (step, it')) : trailSteps it'.trail.tail < trailSteps it.trail := by
  obtain ⟨c, rest, _, htrail, -, rfl⟩ := iterStep_eq_some h
  rw [htrail, trailSteps_cons]
  have := c.steps_pos
  simp only [List.tail_cons]
  omega

/-- **Every step that does not pop lowers the steps of the trail**, by those of the node it
descends into as well. -/
theorem trailSteps_lt_of_iterStep {it it' : TrieIterator V} {step : IterStep V}
    (h : it.iterStep = some (step, it')) (hs : step ≠ .popTrail) :
    step.steps + trailSteps it'.trail < trailSteps it.trail := by
  obtain ⟨c, rest, _, htrail, hstep, rfl⟩ := iterStep_eq_some h
  obtain ⟨hpop, hle⟩ := stepAt_status hstep
  have hlt := c.descendSteps_add_steps_increment_lt (fun hexit => hs (hpop.mpr hexit))
  rw [htrail, trailSteps_cons, trailSteps_cons]
  omega

theorem trailSteps_trail_lt_of_iterStep {it it' : TrieIterator V} {step : IterStep V}
    (h : it.iterStep = some (step, it')) (hs : step ≠ .popTrail) :
    trailSteps it'.trail < trailSteps it.trail :=
  Nat.lt_of_le_of_lt (Nat.le_add_left _ _) (trailSteps_lt_of_iterStep h hs)

/-- `Iterator::next` of `TrieIterator`: `iter_step` until a value is yielded or the trail is
empty; a descent or a value at which the prune condition holds is skipped. -/
def next (it : TrieIterator V) : Option (List UInt8 × V) × TrieIterator V :=
  match _hstep : it.iterStep with
  | none => (none, it)
  | some (step, it') =>
    match step with
    | .continue => next it'
    | .popTrail => next { it' with trail := it'.trail.tail }
    | .descend node =>
      if canProcess it'.pruneCondition it'.keyNibbles then next (it'.descendIntoNode node)
      else next it'
    | .value value =>
      if canProcess it'.pruneCondition it'.keyNibbles then (some (key it'.keyNibbles, value), it')
      else next it'
termination_by trailSteps it.trail
decreasing_by
  · exact trailSteps_trail_lt_of_iterStep _hstep nofun
  · exact trailSteps_tail_lt_of_iterStep _hstep
  · rw [trailSteps_descendIntoNode]
    exact trailSteps_lt_of_iterStep _hstep nofun
  · exact trailSteps_trail_lt_of_iterStep _hstep nofun
  · exact trailSteps_trail_lt_of_iterStep _hstep nofun


theorem trailSteps_next_lt {it it' : TrieIterator V} {item : List UInt8 × V}
    (h : it.next = (some item, it')) : trailSteps it'.trail < trailSteps it.trail := by
  revert h
  fun_induction next it with
  | case1 => simp
  | case2 it it₁ hstep _ ih => exact fun h => (ih h).trans (trailSteps_trail_lt_of_iterStep hstep nofun)
  | case3 it it₁ hstep _ ih => exact fun h => (ih h).trans (trailSteps_tail_lt_of_iterStep hstep)
  | case4 it it₁ node hstep _ _ ih =>
    refine fun h => (ih h).trans ?_
    rw [trailSteps_descendIntoNode]
    exact trailSteps_lt_of_iterStep hstep nofun
  | case5 it it₁ node hstep _ _ ih =>
    exact fun h => (ih h).trans (trailSteps_trail_lt_of_iterStep hstep nofun)
  | case6 it it₁ value hstep _ _ =>
    intro h
    cases h
    exact trailSteps_trail_lt_of_iterStep hstep nofun
  | case7 it it₁ value hstep _ _ ih =>
    exact fun h => (ih h).trans (trailSteps_trail_lt_of_iterStep hstep nofun)

/-- `iter.collect()`: the items `next` yields until it returns `None`. -/
def collect (it : TrieIterator V) : List (List UInt8 × V) :=
  match _hnext : it.next with
  | (none, _) => []
  | (some item, it') => item :: collect it'
termination_by trailSteps it.trail
decreasing_by exact trailSteps_next_lt _hnext


/-! ## Seeking -/

/-- `check_ext_key`: a prefix seek asks that the key be a prefix of the node's key, a range
seek that the node's key be no less than the key. -/
def checkExtKey (isPrefixSeek : Bool) (key extKey : List Nibble) : Bool :=
  if isPrefixSeek then decide (key <+: extKey) else decide (key ≤ extKey)

/-- `*prev_prefix_boundary = is_prefix_seek`, on the crumb below the one about to be pushed. -/
def markBoundary (isPrefixSeek : Bool) : List (Crumb V) → List (Crumb V)
  | [] => []
  | c :: rest => { c with prefixBoundary := isPrefixSeek } :: rest

/-- The loop of `seek_nibble_slice` at `node`, with the nibbles `key` still to find. -/
def seekLoop (isPrefixSeek : Bool) (node : TrieNode V) (key : List Nibble)
    (it : TrieIterator V) : TrieIterator V :=
  let it := { it with trail := markBoundary isPrefixSeek it.trail }
  match node with
  | .empty => it.descendIntoNode node
  | .leaf leafKey _ =>
    if checkExtKey isPrefixSeek key leafKey then it.descendIntoNode node
    else { it with trail := ⟨node, .exiting, false⟩ :: it.trail, keyNibbles := it.keyNibbles ++ leafKey }
  | .branch children _ =>
    match key with
    | [] => it.descendIntoNode node
    | idx :: rest =>
      if (children idx).isEmpty then
        { it with
          trail := ⟨node, .atChild idx, isPrefixSeek⟩ :: it.trail
          keyNibbles := it.keyNibbles ++ [idx] }
      else
        seekLoop isPrefixSeek (children idx) rest
          { it with
            trail := ⟨node, .atChild idx, false⟩ :: it.trail
            keyNibbles := it.keyNibbles ++ [idx] }
  | .extension extKey child =>
    if extKey <+: key then
      seekLoop isPrefixSeek child (key.drop extKey.length)
        { it with trail := ⟨node, .at, false⟩ :: it.trail, keyNibbles := it.keyNibbles ++ extKey }
    else if checkExtKey isPrefixSeek key extKey then it.descendIntoNode node
    else { it with trail := ⟨node, .exiting, false⟩ :: it.trail, keyNibbles := it.keyNibbles ++ extKey }

/-- `seek_nibble_slice`: the trail and the key nibbles cleared, then the loop from the root. -/
def seekNibbleSlice (it : TrieIterator V) (key : List Nibble) (isPrefixSeek : Bool) :
    TrieIterator V :=
  seekLoop isPrefixSeek it.root key { it with trail := [], keyNibbles := [] }

/-- `seek_prefix`. -/
def seekPrefix (it : TrieIterator V) (key : List UInt8) : TrieIterator V :=
  it.seekNibbleSlice (toNibbles key) true


/-! ## The trail and what it has still to yield -/

/-- The path of the child that a crumb at path `p` is at. -/
def childPath (parent : Crumb V) (p : List Nibble) : List Nibble :=
  match parent.status, parent.node with
  | .atChild i, _ => p ++ [i]
  | _, .extension key _ => p ++ key
  | _, _ => p

/-- The path of the node above a trail; the root's is empty. -/
def pathAbove : List (Crumb V) → List Nibble
  | [] => []
  | parent :: rest => childPath parent (pathAbove rest)

/-- The entries a crumb at path `p` has still to yield. -/
def pending (c : Crumb V) (p : List Nibble) : List (List Nibble × V) :=
  if c.prefixBoundary then []
  else
    match c.status, c.node with
    | .entering, node => shift p node.entries
    | .at, .branch children _ => childEntries children p 0
    | .atChild i, .branch children _ => childEntries children p (i.val + 1)
    | _, _ => []

/-- The entries a trail has still to yield, its top first. -/
def remaining : List (Crumb V) → List (List Nibble × V)
  | [] => []
  | c :: rest => pending c (pathAbove rest) ++ remaining rest

/-- A crumb that has gone down into a child: a branch at a child, or an extension at itself. -/
def IsParent (c : Crumb V) : Prop :=
  match c.status, c.node with
  | .atChild _, .branch _ _ => True
  | .at, .extension _ _ => True
  | _, _ => False

/-- `node` is the child the top of the trail is at; any node is the root. -/
def Above (node : TrieNode V) : List (Crumb V) → Prop
  | [] => True
  | parent :: _ =>
    match parent.status, parent.node with
    | .atChild i, .branch children _ => node = children i
    | .at, .extension _ child => node = child
    | _, _ => False

/-- Each crumb of the trail holds the child the crumb below it is at. -/
def Linked : List (Crumb V) → Prop
  | [] => True
  | c :: rest => Above c.node rest ∧ Linked rest

/-- The key nibbles at a top crumb at path `p`: the path, then the node's key once a leaf or an
extension is reached, or one nibble more while a branch is at its children. -/
def TopKey (c : Crumb V) (p keyNibbles : List Nibble) : Prop :=
  match c.status, c.node with
  | .entering, _ => keyNibbles = p
  | .at, .leaf key _ => keyNibbles = p ++ key
  | .at, .extension key _ => keyNibbles = p ++ key
  | .at, .branch _ _ => keyNibbles = p
  | .atChild _, .branch _ _ => ∃ x, keyNibbles = p ++ [x]
  | .exiting, .leaf key _ => keyNibbles = p ++ key
  | .exiting, .extension key _ => keyNibbles = p ++ key
  | _, _ => False

/-- The top of a trail: its key nibbles, and a prefix boundary only on a parent. -/
def TopOK (trail : List (Crumb V)) (keyNibbles : List Nibble) : Prop :=
  match trail with
  | [] => True
  | c :: rest => TopKey c (pathAbove rest) keyNibbles ∧ (c.prefixBoundary = true → IsParent c)

/-- The invariant of the iterator: a linked trail with the key nibbles of its top. -/
def Inv (it : TrieIterator V) : Prop :=
  Linked it.trail ∧ TopOK it.trail it.keyNibbles

/-- What one step of a crumb at path `p` does to what it has still to yield. -/
def CrumbStep (c : Crumb V) (p : List Nibble) : IterStep V → List Nibble → Prop
  | .popTrail, keyNibbles => keyNibbles = p ∧ pending c p = []
  | .continue, keyNibbles =>
    TopKey c.increment p keyNibbles ∧ pending c p = pending c.increment p
  | .value value, keyNibbles =>
    TopKey c.increment p keyNibbles ∧ pending c p = (keyNibbles, value) :: pending c.increment p
  | .descend node, keyNibbles =>
    TopKey c.increment p keyNibbles ∧ Above node [c.increment] ∧
      childPath c.increment p = keyNibbles ∧
      pending c p = shift keyNibbles node.entries ++ pending c.increment p

theorem exitNibbles_leaf (key : List Nibble) (value : V) (p : List Nibble) :
    exitNibbles (.leaf key value) (p ++ key) = p := by
  simp [exitNibbles]

theorem exitNibbles_extension (key : List Nibble) (child : TrieNode V) (p : List Nibble) :
    exitNibbles (.extension key child) (p ++ key) = p := by
  simp [exitNibbles]

theorem exitNibbles_branch (children : Nibble → TrieNode V) (value : Option V)
    (p : List Nibble) (x : Nibble) : exitNibbles (.branch children value) (p ++ [x]) = p := by
  simp [exitNibbles]

theorem shift_shift (p q : List Nibble) (l : List (List Nibble × V)) :
    shift p (shift q l) = shift (p ++ q) l := by
  simp [shift, Function.comp_def]

theorem shift_entries_extension (p key : List Nibble) (child : TrieNode V) :
    shift p (TrieNode.extension key child).entries = shift (p ++ key) child.entries :=
  shift_shift p key child.entries

theorem shift_entries_branch (p : List Nibble) (children : Nibble → TrieNode V)
    (value : Option V) :
    shift p (TrieNode.branch children value).entries =
      (value.map fun v => (p, v)).toList ++ childEntries children p 0 := by
  cases value <;> simp [TrieNode.entries, shift, childEntries, List.map_flatMap, Function.comp_def]

/-- The children of a branch from `i` are child `i`, then those from `i + 1`. -/
theorem childEntries_eq_append (children : Nibble → TrieNode V) (p : List Nibble) (i : Nibble) :
    childEntries children p i.val =
      shift (p ++ [i]) (children i).entries ++ childEntries children p (i.val + 1) := by
  rw [childEntries, childEntries, List.drop_eq_getElem_cons (by simp), List.getElem_finRange]
  simp

theorem childEntries_of_le (children : Nibble → TrieNode V) (p : List Nibble) {j : Nat}
    (hj : 16 ≤ j) : childEntries children p j = [] := by
  rw [childEntries, List.drop_eq_nil_of_le (by simpa using hj)]
  rfl

/-- A child that is absent adds nothing. -/
theorem childEntries_of_isEmpty {children : Nibble → TrieNode V} {i : Nibble}
    (h : (children i).isEmpty = true) (p : List Nibble) :
    childEntries children p i.val = childEntries children p (i.val + 1) := by
  rw [childEntries_eq_append, TrieNode.isEmpty_iff.mp h]
  rfl

theorem stepAt_spec {c : Crumb V} {p keyNibbles keyNibbles' : List Nibble} {step : IterStep V}
    (htop : TopKey c p keyNibbles) (hb : c.prefixBoundary = true → IsParent c)
    (h : stepAt c.increment keyNibbles = some (step, keyNibbles')) :
    CrumbStep c p step keyNibbles' := by
  obtain ⟨node, status, boundary⟩ := c
  cases boundary
  case true =>
    -- a prefix boundary is a parent, which exits at once
    have hparent := hb rfl
    simp only [Crumb.increment, if_true, stepAt, Option.some.injEq, Prod.mk.injEq] at h
    obtain ⟨rfl, rfl⟩ := h
    refine ⟨?_, by simp [pending]⟩
    rcases status with _ | _ | i | _ <;>
      rcases node with _ | ⟨key, value⟩ | ⟨key, child⟩ | ⟨children, value⟩ <;>
      simp only [IsParent] at hparent
    · simp only [TopKey] at htop
      rw [htop, exitNibbles_extension]
    · obtain ⟨x, rfl⟩ := htop
      exact exitNibbles_branch children value p x
  case false =>
    rcases status with _ | _ | i | _ <;>
      rcases node with _ | ⟨key, value⟩ | ⟨key, child⟩ | ⟨children, value⟩ <;>
      simp only [TopKey] at htop <;>
      simp only [Crumb.increment, Bool.false_eq_true, ↓reduceIte, stepAt,
        Option.some.injEq, Prod.mk.injEq] at h
    · -- `Entering` an empty node: exit
      obtain ⟨rfl, rfl⟩ := h
      exact ⟨htop, by simp [pending, shift, TrieNode.entries]⟩
    · -- `Entering` a leaf: its value
      obtain ⟨rfl, rfl⟩ := h
      subst htop
      exact ⟨rfl, by simp [pending, shift, TrieNode.entries, Crumb.increment]⟩
    · -- `Entering` an extension: descend into its child
      obtain ⟨rfl, rfl⟩ := h
      subst htop
      refine ⟨rfl, rfl, rfl, ?_⟩
      simp [pending, Crumb.increment, shift_entries_extension]
    · -- `Entering` a branch: its value, if any
      subst htop
      cases value <;> simp only [Option.some.injEq, Prod.mk.injEq] at h <;> obtain ⟨rfl, rfl⟩ := h
      · exact ⟨rfl, by simp [pending, Crumb.increment, shift_entries_branch]⟩
      · exact ⟨rfl, by simp [pending, Crumb.increment, shift_entries_branch]⟩
    · -- `At` a leaf: exit
      obtain ⟨rfl, rfl⟩ := h
      exact ⟨htop ▸ exitNibbles_leaf key value p, by simp [pending]⟩
    · -- `At` an extension: exit
      obtain ⟨rfl, rfl⟩ := h
      exact ⟨htop ▸ exitNibbles_extension key child p, by simp [pending]⟩
    · -- `At` a branch: on to child `0`
      subst htop
      split_ifs at h with hempty h0
      · simp only [Option.some.injEq, Prod.mk.injEq] at h
        obtain ⟨rfl, rfl⟩ := h
        refine ⟨by simp [TopKey, Crumb.increment], ?_⟩
        simpa [pending, Crumb.increment] using childEntries_of_isEmpty hempty keyNibbles
      · exact absurd rfl h0
      · simp only [Option.some.injEq, Prod.mk.injEq] at h
        obtain ⟨rfl, rfl⟩ := h
        refine ⟨by simp [TopKey, Crumb.increment], rfl, rfl, ?_⟩
        simpa [pending, Crumb.increment] using childEntries_eq_append children keyNibbles 0
    · -- `AtChild(i)`: on to child `i + 1`, or exit after child `15`
      obtain ⟨x, rfl⟩ := htop
      by_cases hi : i < 15
      · have hj : (i + 1).val = i.val + 1 := Fin.val_add_one_of_lt hi
        have hne : i + 1 ≠ 0 := fun h0 => by
          rw [h0] at hj
          simp at hj
        simp only [hi, hne, ↓reduceIte, ne_eq, not_false_eq_true] at h
        split_ifs at h with hempty
        · simp only [Option.some.injEq, Prod.mk.injEq] at h
          obtain ⟨rfl, rfl⟩ := h
          refine ⟨by simp [TopKey, Crumb.increment, hi], ?_⟩
          simp only [pending, Crumb.increment, hi, ↓reduceIte, Bool.false_eq_true]
          rw [← hj, childEntries_of_isEmpty hempty]
        · simp [setLast] at h
          obtain ⟨rfl, rfl⟩ := h
          refine ⟨by simp [TopKey, Crumb.increment, hi], by simp [Above, Crumb.increment, hi],
            by simp [childPath, Crumb.increment, hi], ?_⟩
          simp only [pending, Crumb.increment, hi, ↓reduceIte, Bool.false_eq_true]
          rw [← hj, childEntries_eq_append]
      · simp only [hi, ↓reduceIte, Option.some.injEq, Prod.mk.injEq] at h
        obtain ⟨rfl, rfl⟩ := h
        have h15 : i.val + 1 = 16 := by
          have h15le := Fin.le_iff_val_le_val.mp (not_lt.mp hi)
          have hlt := i.isLt
          omega
        refine ⟨exitNibbles_branch children value p x, ?_⟩
        simp only [pending, Bool.false_eq_true, ↓reduceIte, h15]
        exact childEntries_of_le children p le_rfl
    · -- `Exiting` a leaf
      obtain ⟨rfl, rfl⟩ := h
      exact ⟨htop ▸ exitNibbles_leaf key value p, by simp [pending]⟩
    · -- `Exiting` an extension
      obtain ⟨rfl, rfl⟩ := h
      exact ⟨htop ▸ exitNibbles_extension key child p, by simp [pending]⟩


/-- `iter_step` steps whenever the trail is not empty: `increment` never gives the statuses of
the `panic!`, and a branch at a child has a last nibble to overwrite. -/
theorem stepAt_isSome {c : Crumb V} {p keyNibbles : List Nibble} (htop : TopKey c p keyNibbles) :
    (stepAt c.increment keyNibbles).isSome := by
  obtain ⟨node, status, boundary⟩ := c
  cases boundary
  case true => simp [Crumb.increment, stepAt]
  case false =>
    rcases status with _ | _ | i | _ <;>
      rcases node with _ | ⟨key, value⟩ | ⟨key, child⟩ | ⟨children, _ | value⟩ <;>
      simp only [TopKey] at htop <;>
      simp [Crumb.increment, stepAt]
    -- `At` a branch, then `AtChild(i)`, with or without a value
    iterate 2 split_ifs <;> rfl
    all_goals
      obtain ⟨x, rfl⟩ := htop
      by_cases hi : i < 15
      · simp only [hi, ↓reduceIte]
        split_ifs <;> simp [setLast]
      · simp [hi]

/-- The crumb below a node is a parent, and the node's path is the key nibbles it leaves. -/
theorem topOK_of_above {node : TrieNode V} {rest : List (Crumb V)} (h : Above node rest) :
    TopOK rest (pathAbove rest) := by
  cases rest with
  | nil => trivial
  | cons parent rest =>
    obtain ⟨pnode, status, boundary⟩ := parent
    rcases status with _ | _ | i | _ <;>
      rcases pnode with _ | ⟨key, value⟩ | ⟨key, child⟩ | ⟨children, value⟩ <;>
      simp only [Above] at h
    · exact ⟨rfl, fun _ => trivial⟩
    · exact ⟨⟨i, rfl⟩, fun _ => trivial⟩

/-- What one step does to the iterator, against what its trail has still to yield. -/
def StepSpec (it : TrieIterator V) : IterStep V → TrieIterator V → Prop
  | .popTrail, it' =>
    Inv { it' with trail := it'.trail.tail } ∧ remaining it.trail = remaining it'.trail.tail
  | .continue, it' => Inv it' ∧ remaining it.trail = remaining it'.trail
  | .value value, it' =>
    Inv it' ∧ remaining it.trail = (it'.keyNibbles, value) :: remaining it'.trail
  | .descend node, it' =>
    Inv it' ∧ Inv (it'.descendIntoNode node) ∧ pathAbove it'.trail = it'.keyNibbles ∧
      remaining it.trail = shift it'.keyNibbles node.entries ++ remaining it'.trail

theorem remaining_descendIntoNode (it : TrieIterator V) (node : TrieNode V) :
    remaining (it.descendIntoNode node).trail =
      shift (pathAbove it.trail) node.entries ++ remaining it.trail := by
  simp [descendIntoNode, remaining, pending]

/-- **The step lemma**: a step keeps the invariant, and what it yields or skips is what the
trail had still to yield before what it has after. -/
theorem iterStep_spec {it it' : TrieIterator V} {step : IterStep V} (hinv : Inv it)
    (h : it.iterStep = some (step, it')) : StepSpec it step it' := by
  obtain ⟨c, rest, keyNibbles, htrail, hstep, rfl⟩ := iterStep_eq_some h
  obtain ⟨hlinked, htop⟩ := hinv
  rw [htrail] at hlinked htop
  obtain ⟨habove, hrest⟩ := hlinked
  obtain ⟨htopKey, hb⟩ := htop
  have hcs := stepAt_spec htopKey hb hstep
  -- a step that does not pop leaves the crumb on the trail, with no prefix boundary
  have hlinked' : Linked (c.increment :: rest) := ⟨by simpa using habove, hrest⟩
  have hb' : step ≠ .popTrail → c.increment.prefixBoundary = true → IsParent c.increment :=
    fun hs hbound => absurd (c.increment_prefixBoundary ▸ hbound)
      (by simp [c.prefixBoundary_eq_false fun hexit => hs ((stepAt_status hstep).1.mpr hexit)])
  rcases step with _ | _ | node | value
  · -- `Continue`
    obtain ⟨htopKey', hpending⟩ := hcs
    exact ⟨⟨hlinked', htopKey', hb' nofun⟩, by simp [htrail, remaining, hpending]⟩
  · -- `PopTrail`
    obtain ⟨rfl, hpending⟩ := hcs
    exact ⟨⟨hrest, topOK_of_above habove⟩, by simp [htrail, remaining, hpending]⟩
  · -- `Descend(child)`
    obtain ⟨htopKey', hnode, hpath, hpending⟩ := hcs
    refine ⟨⟨hlinked', htopKey', hb' nofun⟩, ⟨⟨hnode, hlinked'⟩, hpath.symm, by simp⟩, hpath, ?_⟩
    simp [htrail, remaining, hpending]
  · -- `Value`
    obtain ⟨htopKey', hpending⟩ := hcs
    exact ⟨⟨hlinked', htopKey', hb' nofun⟩, by simp [htrail, remaining, hpending]⟩

theorem iterStep_pruneCondition {it it' : TrieIterator V} {step : IterStep V}
    (h : it.iterStep = some (step, it')) : it'.pruneCondition = it.pruneCondition := by
  obtain ⟨_, _, _, _, _, rfl⟩ := iterStep_eq_some h
  rfl

theorem trail_eq_nil_of_iterStep {it : TrieIterator V} (hinv : Inv it) (h : it.iterStep = none) :
    it.trail = [] := by
  obtain ⟨-, htop⟩ := hinv
  unfold iterStep at h
  split at h
  · assumption
  · rename_i c rest htrail
    rw [htrail] at htop
    have hsome := stepAt_isSome htop.1
    simp_all


/-! ## Runs -/

/-- The items a list of entries gives: those the prune condition keeps, their keys as bytes. -/
def visible (pruneCondition : Option (List Nibble → Bool)) (l : List (List Nibble × V)) :
    List (List UInt8 × V) :=
  (l.filter fun e => canProcess pruneCondition e.1).map fun e => (key e.1, e.2)

/-- A prune condition that holds at a path holds below it. -/
def ClosedUnderExtension (pruneCondition : Option (List Nibble → Bool)) : Prop :=
  ∀ P, pruneCondition = some P → ∀ x y, P x = true → P (x ++ y) = true

theorem visible_append (pruneCondition : Option (List Nibble → Bool))
    (l l' : List (List Nibble × V)) :
    visible pruneCondition (l ++ l') = visible pruneCondition l ++ visible pruneCondition l' := by
  simp [visible]

theorem visible_cons_of_canProcess {pruneCondition : Option (List Nibble → Bool)}
    {keyNibbles : List Nibble} (h : canProcess pruneCondition keyNibbles = true) (value : V)
    (l : List (List Nibble × V)) :
    visible pruneCondition ((keyNibbles, value) :: l) =
      (key keyNibbles, value) :: visible pruneCondition l := by
  simp [visible, h]

theorem visible_cons_of_not_canProcess {pruneCondition : Option (List Nibble → Bool)}
    {keyNibbles : List Nibble} (h : ¬canProcess pruneCondition keyNibbles = true) (value : V)
    (l : List (List Nibble × V)) :
    visible pruneCondition ((keyNibbles, value) :: l) = visible pruneCondition l := by
  simp [visible, h]

/-- What a pruned descent skips, the prune condition rules out entry by entry. -/
theorem visible_shift_of_not_canProcess {pruneCondition : Option (List Nibble → Bool)}
    (hc : ClosedUnderExtension pruneCondition) {keyNibbles : List Nibble}
    (h : ¬canProcess pruneCondition keyNibbles = true) (l : List (List Nibble × V)) :
    visible pruneCondition (shift keyNibbles l) = [] := by
  cases hp : pruneCondition with
  | none => simp [hp, canProcess] at h
  | some P =>
    have hP : P keyNibbles = true := by simpa [hp, canProcess] using h
    simp only [visible, shift, canProcess, List.filter_map, List.map_eq_nil_iff,
      List.filter_eq_nil_iff, Function.comp_apply, Bool.not_eq_true', Prod.forall]
    exact fun q _ _ => by simp [hc P hp keyNibbles q hP]

/-- **`next` yields what the trail had still to yield first**, and keeps the invariant. -/
theorem next_spec {it it'' : TrieIterator V} {out : Option (List UInt8 × V)}
    (hc : ClosedUnderExtension it.pruneCondition) (hinv : Inv it) (h : it.next = (out, it'')) :
    Inv it'' ∧ it''.pruneCondition = it.pruneCondition ∧
      visible it.pruneCondition (remaining it.trail) =
        out.toList ++ visible it.pruneCondition (remaining it''.trail) ∧
      (out = none → it''.trail = []) := by
  revert h
  fun_induction next it with
  | case1 it hnone =>
    intro h
    cases h
    exact ⟨hinv, rfl, by simp [trail_eq_nil_of_iterStep hinv hnone, remaining],
      fun _ => trail_eq_nil_of_iterStep hinv hnone⟩
  | case2 it it₁ hstep _ ih =>
    obtain ⟨hinv₁, hrem⟩ := iterStep_spec hinv hstep
    have hpc := iterStep_pruneCondition hstep
    intro h
    obtain ⟨hinv'', hpc'', hvis, hnone⟩ := ih (hpc ▸ hc) hinv₁ h
    exact ⟨hinv'', hpc''.trans hpc, by rw [hrem, ← hpc, hvis], hnone⟩
  | case3 it it₁ hstep _ ih =>
    obtain ⟨hinv₁, hrem⟩ := iterStep_spec hinv hstep
    have hpc := iterStep_pruneCondition hstep
    intro h
    obtain ⟨hinv'', hpc'', hvis, hnone⟩ := ih (hpc ▸ hc) hinv₁ h
    exact ⟨hinv'', hpc''.trans hpc, by rw [hrem, ← hpc]; exact hvis, hnone⟩
  | case4 it it₁ node hstep _ _ ih =>
    obtain ⟨-, hinv₁, hpath, hrem⟩ := iterStep_spec hinv hstep
    have hpc := iterStep_pruneCondition hstep
    intro h
    obtain ⟨hinv'', hpc'', hvis, hnone⟩ := ih (hpc ▸ hc) hinv₁ h
    refine ⟨hinv'', hpc''.trans hpc, ?_, hnone⟩
    rw [hrem, ← hpath, ← remaining_descendIntoNode, ← hpc]
    exact hvis
  | case5 it it₁ node hstep hprune _ ih =>
    obtain ⟨hinv₁, -, -, hrem⟩ := iterStep_spec hinv hstep
    have hpc := iterStep_pruneCondition hstep
    intro h
    obtain ⟨hinv'', hpc'', hvis, hnone⟩ := ih (hpc ▸ hc) hinv₁ h
    refine ⟨hinv'', hpc''.trans hpc, ?_, hnone⟩
    rw [hrem, visible_append, ← hpc, visible_shift_of_not_canProcess (hpc ▸ hc) hprune, hvis]
    rfl
  | case6 it it₁ value hstep hprune _ =>
    obtain ⟨hinv₁, hrem⟩ := iterStep_spec hinv hstep
    have hpc := iterStep_pruneCondition hstep
    intro h
    cases h
    refine ⟨hinv₁, hpc, ?_, nofun⟩
    rw [hrem, ← hpc, visible_cons_of_canProcess hprune]
    rfl
  | case7 it it₁ value hstep hprune _ ih =>
    obtain ⟨hinv₁, hrem⟩ := iterStep_spec hinv hstep
    have hpc := iterStep_pruneCondition hstep
    intro h
    obtain ⟨hinv'', hpc'', hvis, hnone⟩ := ih (hpc ▸ hc) hinv₁ h
    refine ⟨hinv'', hpc''.trans hpc, ?_, hnone⟩
    rw [hrem, ← hpc, visible_cons_of_not_canProcess hprune, hvis]

/-- **The run lemma**: from a state with the invariant, the iterator yields exactly what its
trail has still to yield, less what the prune condition rules out. -/
theorem collect_spec {it : TrieIterator V} (hc : ClosedUnderExtension it.pruneCondition)
    (hinv : Inv it) : it.collect = visible it.pruneCondition (remaining it.trail) := by
  fun_induction collect it with
  | case1 it it' h =>
    obtain ⟨-, -, hvis, hnone⟩ := next_spec hc hinv h
    rw [hvis, hnone rfl]
    rfl
  | case2 it item it' h ih =>
    obtain ⟨hinv', hpc, hvis, -⟩ := next_spec hc hinv h
    rw [hvis, ih (hpc ▸ hc) hinv', hpc]
    rfl


/-! ## Seeking a prefix -/

/-- The entries of `t` at path `p` whose path starts with `p ++ key`. -/
def entriesWithPrefix (t : TrieNode V) (p key : List Nibble) : List (List Nibble × V) :=
  (shift p t.entries).filter fun e => decide (p ++ key <+: e.1)

theorem mem_entriesWithPrefix {t : TrieNode V} {p key q : List Nibble} {v : V} :
    (q, v) ∈ entriesWithPrefix t p key ↔ ∃ q', q = p ++ q' ∧ key <+: q' ∧ lookup t q' = some v := by
  rw [entriesWithPrefix, List.mem_filter, mem_shift]
  constructor
  · rintro ⟨⟨q', rfl, hmem⟩, hpre⟩
    exact ⟨q', rfl, List.prefix_self_append_iff.mp (of_decide_eq_true hpre),
      (mem_entries t q' v).mp hmem⟩
  · rintro ⟨q', rfl, hpre, hlookup⟩
    exact ⟨⟨q', rfl, (mem_entries t q' v).mpr hlookup⟩,
      decide_eq_true (List.prefix_self_append_iff.mpr hpre)⟩

/-- Entries with a prefix are determined by what `lookup` finds under it. -/
theorem entriesWithPrefix_eq {t t' : TrieNode V} {p key p' key' : List Nibble}
    (h : ∀ q v, (∃ q', q = p ++ q' ∧ key <+: q' ∧ lookup t q' = some v) ↔
      (∃ q', q = p' ++ q' ∧ key' <+: q' ∧ lookup t' q' = some v)) :
    entriesWithPrefix t p key = entriesWithPrefix t' p' key' :=
  eq_of_mem_iff (keysSorted_filter _ (keysSorted_shift _ (keysSorted_entries t)))
    (keysSorted_filter _ (keysSorted_shift _ (keysSorted_entries t')))
    fun ⟨q, v⟩ => by rw [mem_entriesWithPrefix, mem_entriesWithPrefix, h]

/-- An empty key to find keeps every entry. -/
theorem entriesWithPrefix_nil (t : TrieNode V) (p : List Nibble) :
    entriesWithPrefix t p [] = shift p t.entries :=
  List.filter_eq_self.mpr fun ⟨q, v⟩ hq => by
    obtain ⟨q', rfl, -⟩ := mem_shift.mp hq
    simp

theorem entriesWithPrefix_eq_nil {t : TrieNode V} {p key : List Nibble}
    (h : ∀ q' v, key <+: q' → lookup t q' ≠ some v) : entriesWithPrefix t p key = [] :=
  List.eq_nil_iff_forall_not_mem.mpr fun ⟨q, v⟩ hq => by
    obtain ⟨q', -, hpre, hlookup⟩ := mem_entriesWithPrefix.mp hq
    exact h q' v hpre hlookup

/-- Below a branch, the key's first nibble picks the child. -/
theorem entriesWithPrefix_branch (children : Nibble → TrieNode V) (value : Option V)
    (p : List Nibble) (idx : Nibble) (rest : List Nibble) :
    entriesWithPrefix (.branch children value) p (idx :: rest) =
      entriesWithPrefix (children idx) (p ++ [idx]) rest := by
  refine entriesWithPrefix_eq fun q v => ⟨?_, ?_⟩
  · rintro ⟨q', rfl, hpre, hlookup⟩
    obtain ⟨q'', rfl⟩ := hpre
    exact ⟨rest ++ q'', by simp, List.prefix_append _ _, by simpa using hlookup⟩
  · rintro ⟨q', rfl, hpre, hlookup⟩
    exact ⟨idx :: q', by simp, List.cons_prefix_cons.mpr ⟨rfl, hpre⟩, hlookup⟩

/-- Below an extension that the key passes, the rest of the key is found in the child. -/
theorem entriesWithPrefix_extension {extKey key : List Nibble} (child : TrieNode V)
    (p : List Nibble) (hext : extKey <+: key) :
    entriesWithPrefix (.extension extKey child) p key =
      entriesWithPrefix child (p ++ extKey) (key.drop extKey.length) := by
  obtain ⟨rest, rfl⟩ := hext
  refine entriesWithPrefix_eq fun q v => ⟨?_, ?_⟩
  · rintro ⟨q', rfl, hpre, hlookup⟩
    obtain ⟨q'', rfl⟩ := hpre
    refine ⟨rest ++ q'', by simp, by simp [List.prefix_append], ?_⟩
    simpa [lookup_extension, List.prefix_append] using hlookup
  · rintro ⟨q', rfl, hpre, hlookup⟩
    refine ⟨extKey ++ q', by simp, ?_, by simpa [lookup_extension_append] using hlookup⟩
    exact (List.prefix_append_right_inj extKey).mpr (by simpa using hpre)

/-- A key that is neither below nor above an extension finds nothing there. -/
theorem entriesWithPrefix_extension_eq_nil {extKey key : List Nibble} (child : TrieNode V)
    (p : List Nibble) (h₁ : ¬extKey <+: key) (h₂ : ¬key <+: extKey) :
    entriesWithPrefix (.extension extKey child) p key = [] := by
  refine entriesWithPrefix_eq_nil fun q' v hpre hlookup => ?_
  rw [lookup_extension] at hlookup
  split_ifs at hlookup with hext
  rcases List.prefix_or_prefix_of_prefix hpre hext with h | h
  · exact h₂ h
  · exact h₁ h

/-- Under a key that is above an extension's, every entry is kept. -/
theorem entriesWithPrefix_extension_of_prefix {extKey key : List Nibble} (child : TrieNode V)
    (p : List Nibble) (h : key <+: extKey) :
    entriesWithPrefix (.extension extKey child) p key =
      shift p (TrieNode.extension extKey child).entries :=
  List.filter_eq_self.mpr fun ⟨q, v⟩ hq => by
    obtain ⟨q', rfl, hmem⟩ := mem_shift.mp hq
    have hlookup := (mem_entries _ q' v).mp hmem
    rw [lookup_extension] at hlookup
    split_ifs at hlookup with hext
    exact decide_eq_true (List.prefix_self_append_iff.mpr (h.trans hext))

theorem above_markBoundary {node : TrieNode V} {trail : List (Crumb V)} (b : Bool) :
    Above node (markBoundary b trail) ↔ Above node trail := by
  cases trail <;> rfl

theorem pathAbove_markBoundary (b : Bool) (trail : List (Crumb V)) :
    pathAbove (markBoundary b trail) = pathAbove trail := by
  cases trail <;> rfl

theorem linked_markBoundary {trail : List (Crumb V)} (b : Bool) :
    Linked (markBoundary b trail) ↔ Linked trail := by
  cases trail <;> rfl

/-- A trail of prefix boundaries has nothing to yield. -/
theorem remaining_eq_nil {trail : List (Crumb V)} (h : ∀ c ∈ trail, c.prefixBoundary = true) :
    remaining trail = [] := by
  induction trail with
  | nil => rfl
  | cons c rest ih =>
    simp [remaining, pending, h c List.mem_cons_self,
      ih fun c' hc' => h c' (List.mem_cons_of_mem c hc')]

theorem marked_markBoundary {trail : List (Crumb V)}
    (h : ∀ c ∈ trail.drop 1, c.prefixBoundary = true) :
    ∀ c ∈ markBoundary true trail, c.prefixBoundary = true := by
  cases trail with
  | nil => simp [markBoundary]
  | cons c rest =>
    simp only [markBoundary, List.mem_cons, forall_eq_or_imp, true_and]
    simpa using h

/-- Where the seek stops: a crumb on the marked trail, with what it has still to yield. -/
theorem seek_stop {it : TrieIterator V} (top : Crumb V) (keyNibbles : List Nibble)
    (habove : Above top.node it.trail) (hlinked : Linked it.trail)
    (hpath : pathAbove it.trail = it.keyNibbles)
    (hmarked : ∀ c ∈ it.trail.drop 1, c.prefixBoundary = true)
    (htop : TopKey top it.keyNibbles keyNibbles) (hb : top.prefixBoundary = true → IsParent top) :
    Inv { it with trail := top :: markBoundary true it.trail, keyNibbles } ∧
      remaining (top :: markBoundary true it.trail) = pending top it.keyNibbles := by
  refine ⟨⟨⟨(above_markBoundary true).mpr habove, (linked_markBoundary true).mpr hlinked⟩,
    ?_, hb⟩, ?_⟩
  · rwa [pathAbove_markBoundary, hpath]
  · rw [remaining, pathAbove_markBoundary, hpath, remaining_eq_nil (marked_markBoundary hmarked),
      List.append_nil]

/-- **`seek_prefix` leaves on the trail exactly the entries under the key**, with the invariant:
the crumbs it passes are boundaries, and the one where it stops has the rest. Induction on the
node, as `seekLoop` descends. -/
theorem seekLoop_spec (node : TrieNode V) (key : List Nibble) (it : TrieIterator V)
    (habove : Above node it.trail) (hlinked : Linked it.trail)
    (hpath : pathAbove it.trail = it.keyNibbles)
    (hmarked : ∀ c ∈ it.trail.drop 1, c.prefixBoundary = true) :
    Inv (seekLoop true node key it) ∧
      (seekLoop true node key it).pruneCondition = it.pruneCondition ∧
      remaining (seekLoop true node key it).trail = entriesWithPrefix node it.keyNibbles key := by
  induction node generalizing key it with
  | empty =>
    obtain ⟨hinv, hrem⟩ := seek_stop ⟨.empty, .entering, false⟩ it.keyNibbles habove hlinked hpath
      hmarked rfl nofun
    exact ⟨hinv, rfl, by simpa [seekLoop, descendIntoNode, pending, entriesWithPrefix, shift,
      TrieNode.entries] using hrem⟩
  | leaf leafKey value =>
    by_cases hpre : key <+: leafKey
    · -- a leaf under the key is entered
      obtain ⟨hinv, hrem⟩ := seek_stop ⟨.leaf leafKey value, .entering, false⟩ it.keyNibbles habove
        hlinked hpath hmarked rfl nofun
      have hseek : seekLoop true (.leaf leafKey value) key it =
          { it with trail := ⟨.leaf leafKey value, .entering, false⟩ :: markBoundary true it.trail } := by
        simp [seekLoop, checkExtKey, hpre, descendIntoNode]
      rw [hseek]
      refine ⟨hinv, rfl, ?_⟩
      rw [hrem]
      simp [pending, entriesWithPrefix, shift, TrieNode.entries, hpre]
    · -- any other leaf is exited
      obtain ⟨hinv, hrem⟩ := seek_stop ⟨.leaf leafKey value, .exiting, false⟩
        (it.keyNibbles ++ leafKey) habove hlinked hpath hmarked rfl nofun
      have hseek : seekLoop true (.leaf leafKey value) key it =
          { it with
            trail := ⟨.leaf leafKey value, .exiting, false⟩ :: markBoundary true it.trail
            keyNibbles := it.keyNibbles ++ leafKey } := by
        simp [seekLoop, checkExtKey, hpre]
      rw [hseek]
      refine ⟨hinv, rfl, ?_⟩
      rw [hrem]
      simp [pending, entriesWithPrefix, shift, TrieNode.entries, hpre]
  | extension extKey child ih =>
    by_cases hext : extKey <+: key
    · -- the key passes the extension: on into its child
      have hseek : seekLoop true (.extension extKey child) key it =
          seekLoop true child (key.drop extKey.length)
            { it with
              trail := ⟨.extension extKey child, .at, false⟩ :: markBoundary true it.trail
              keyNibbles := it.keyNibbles ++ extKey } := by
        simp [seekLoop, hext]
      rw [hseek, entriesWithPrefix_extension child _ hext]
      exact ih _ _ rfl ⟨(above_markBoundary true).mpr habove, (linked_markBoundary true).mpr hlinked⟩
        (by simp [pathAbove, childPath, pathAbove_markBoundary, hpath])
        (marked_markBoundary hmarked)
    · by_cases hpre : key <+: extKey
      · -- the key ends inside the extension: all of it is entered
        obtain ⟨hinv, hrem⟩ := seek_stop ⟨.extension extKey child, .entering, false⟩ it.keyNibbles
          habove hlinked hpath hmarked rfl nofun
        have hseek : seekLoop true (.extension extKey child) key it =
            { it with
              trail := ⟨.extension extKey child, .entering, false⟩ :: markBoundary true it.trail } := by
          simp [seekLoop, checkExtKey, hext, hpre, descendIntoNode]
        rw [hseek, entriesWithPrefix_extension_of_prefix child _ hpre]
        exact ⟨hinv, rfl, by rw [hrem]; rfl⟩
      · -- the key leaves the extension: it is exited
        obtain ⟨hinv, hrem⟩ := seek_stop ⟨.extension extKey child, .exiting, false⟩
          (it.keyNibbles ++ extKey) habove hlinked hpath hmarked rfl nofun
        have hseek : seekLoop true (.extension extKey child) key it =
            { it with
              trail := ⟨.extension extKey child, .exiting, false⟩ :: markBoundary true it.trail
              keyNibbles := it.keyNibbles ++ extKey } := by
          simp [seekLoop, checkExtKey, hext, hpre]
        rw [hseek, entriesWithPrefix_extension_eq_nil child _ hext hpre]
        exact ⟨hinv, rfl, by rw [hrem]; rfl⟩
  | branch children value ih =>
    cases key with
    | nil =>
      -- the key ends at the branch: all of it is entered
      obtain ⟨hinv, hrem⟩ := seek_stop ⟨.branch children value, .entering, false⟩ it.keyNibbles
        habove hlinked hpath hmarked rfl nofun
      have hseek : seekLoop true (.branch children value) [] it =
          { it with
            trail := ⟨.branch children value, .entering, false⟩ :: markBoundary true it.trail } := by
        simp [seekLoop, descendIntoNode]
      rw [hseek, entriesWithPrefix_nil]
      exact ⟨hinv, rfl, by rw [hrem]; rfl⟩
    | cons idx rest =>
      by_cases hempty : (children idx).isEmpty = true
      · -- no child at the key's nibble: the branch is a boundary at that child
        obtain ⟨hinv, hrem⟩ := seek_stop ⟨.branch children value, .atChild idx, true⟩
          (it.keyNibbles ++ [idx]) habove hlinked hpath hmarked ⟨idx, rfl⟩
          fun _ => trivial
        have hseek : seekLoop true (.branch children value) (idx :: rest) it =
            { it with
              trail := ⟨.branch children value, .atChild idx, true⟩ :: markBoundary true it.trail
              keyNibbles := it.keyNibbles ++ [idx] } := by
          simp [seekLoop, hempty]
        rw [hseek, entriesWithPrefix_branch, TrieNode.isEmpty_iff.mp hempty]
        exact ⟨hinv, rfl, by rw [hrem]; rfl⟩
      · -- on into the child at the key's nibble
        have hseek : seekLoop true (.branch children value) (idx :: rest) it =
            seekLoop true (children idx) rest
              { it with
                trail := ⟨.branch children value, .atChild idx, false⟩ :: markBoundary true it.trail
                keyNibbles := it.keyNibbles ++ [idx] } := by
          simp [seekLoop, hempty]
        rw [hseek, entriesWithPrefix_branch]
        exact ih idx rest _ rfl
          ⟨(above_markBoundary true).mpr habove, (linked_markBoundary true).mpr hlinked⟩
          (by simp [pathAbove, childPath, pathAbove_markBoundary, hpath])
          (marked_markBoundary hmarked)

/-! ## What the iterator yields -/

theorem inv_new (root : TrieNode V) (pruneCondition : Option (List Nibble → Bool)) :
    Inv (new root pruneCondition) :=
  ⟨⟨trivial, trivial⟩, rfl, nofun⟩

/-- From `TrieIterator::new`, the iterator yields the trie's entries that the prune condition
keeps, in order. -/
theorem collect_new (root : TrieNode V) {pruneCondition : Option (List Nibble → Bool)}
    (hc : ClosedUnderExtension pruneCondition) :
    (new root pruneCondition).collect = visible pruneCondition root.entries := by
  rw [collect_spec hc (inv_new root pruneCondition)]
  simp [new, descendIntoNode, remaining, pending, pathAbove, shift]

/-- **After `seek_prefix(p)`**, the iterator yields the trie's entries under `p` that the prune
condition keeps, in order, whatever it had yielded before. -/
theorem collect_seekPrefix (it : TrieIterator V) (hc : ClosedUnderExtension it.pruneCondition)
    (p : List UInt8) :
    (it.seekPrefix p).collect =
      visible it.pruneCondition (it.root.entries.filter fun e => decide (toNibbles p <+: e.1)) := by
  obtain ⟨hinv, hpc, hrem⟩ := seekLoop_spec it.root (toNibbles p)
    { it with trail := [], keyNibbles := [] } trivial trivial rfl nofun
  have hc' : ClosedUnderExtension
      (seekLoop true it.root (toNibbles p) { it with trail := [], keyNibbles := [] }).pruneCondition := by
    rw [hpc]
    exact hc
  change (seekLoop true it.root (toNibbles p) { it with trail := [], keyNibbles := [] }).collect = _
  rw [collect_spec hc' hinv, hrem, hpc]
  simp [entriesWithPrefix, shift]

end TrieIterator

/-! ## Keys of bytes -/

/-- Bytes in their order as numbers: the order of `u8`, and through `List`'s lexicographic order
that of the `BTreeMap`s keyed by `[u8]`. A local instance where a sorted map of byte keys is
read. -/
@[reducible] def byteLinearOrder : LinearOrder UInt8 :=
  Function.Injective.linearOrder UInt8.toNat (fun _ _ h => UInt8.toNat_inj.mp h)
    UInt8.le_iff_toNat_le.symm UInt8.lt_iff_toNat_lt.symm UInt8.toNat_min UInt8.toNat_max
    fun x y => (UInt8.compare_eq_toNat_compare_toNat x y).symm

theorem toNibbles_append (a b : List UInt8) : toNibbles (a ++ b) = toNibbles a ++ toNibbles b := by
  induction a with
  | nil => rfl
  | cons x a ih => simp [toNibbles, ih]

/-- `key` reads back the bytes of `NibbleSlice::new`. -/
@[simp] theorem key_toNibbles (k : List UInt8) : TrieIterator.key (toNibbles k) = k := by
  induction k with
  | nil => rfl
  | cons b k ih =>
    have hb : UInt8.ofNat (b.toNat / 16 * 16 + b.toNat % 16) = b := by
      rw [Nat.div_add_mod', UInt8.ofNat_toNat]
    simp [toNibbles, TrieIterator.key, ih, hb]

theorem toNibbles_isPrefix_iff {a b : List UInt8} : toNibbles a <+: toNibbles b ↔ a <+: b := by
  constructor
  · intro h
    induction a generalizing b with
    | nil => exact List.nil_prefix
    | cons x a ih =>
      cases b with
      | nil => simp [toNibbles] at h
      | cons y b =>
        simp only [toNibbles, List.cons_prefix_cons, Fin.mk.injEq] at h
        obtain ⟨hhigh, hlow, hrest⟩ := h
        have hxy : x = y := UInt8.toNat_inj.mp (by rw [← Nat.div_add_mod x.toNat 16, hhigh, hlow,
          Nat.div_add_mod])
        exact List.cons_prefix_cons.mpr ⟨hxy, ih hrest⟩
  · rintro ⟨c, rfl⟩
    rw [toNibbles_append]
    exact List.prefix_append _ _

/-- **Nibble order is byte order**: `toNibbles` reflects the order of keys. -/
theorem lt_of_toNibbles_lt {a b : List UInt8} (h : toNibbles a < toNibbles b) : a < b := by
  induction a generalizing b with
  | nil =>
    cases b with
    | nil => exact absurd h (List.lt_irrefl _)
    | cons y b => exact List.nil_lt_cons _ _
  | cons x a ih =>
    cases b with
    | nil => exact absurd h (List.not_lt_nil _)
    | cons y b =>
      simp only [toNibbles, List.cons_lt_cons_iff, Fin.mk_lt_mk, Fin.mk.injEq] at h
      refine List.cons_lt_cons_iff.mpr ?_
      rcases h with hhigh | ⟨hhigh, hlow | ⟨hlow, hrest⟩⟩
      · left
        rw [UInt8.lt_iff_toNat_lt]
        omega
      · left
        rw [UInt8.lt_iff_toNat_lt]
        omega
      · right
        exact ⟨UInt8.toNat_inj.mp (by omega), ih hrest⟩

/-! ## Iterating a trie built by updates -/

section Bytes

open TrieIterator

attribute [local instance] byteLinearOrder

variable {root : TrieNode V}

theorem exists_toNibbles_of_mem_entries (hbytes : KeysFromBytes (lookup root)) {q : List Nibble}
    {v : V} (h : (q, v) ∈ root.entries) : ∃ k, q = toNibbles k :=
  hbytes q (by rw [(mem_entries root q v).mp h]; exact nofun)

/-- The items kept from the entries of a trie with keys of bytes are the entries of its map that
the filters keep. -/
theorem mem_visible_filter (hbytes : KeysFromBytes (lookup root)) (keep : List Nibble → Bool)
    (pruneCondition : Option (List Nibble → Bool)) (k : List UInt8) (v : V) :
    (k, v) ∈ visible pruneCondition (root.entries.filter fun e => keep e.1) ↔
      keep (toNibbles k) = true ∧ canProcess pruneCondition (toNibbles k) = true ∧
        memtrieLookup root k = some v := by
  simp only [visible, List.mem_map, List.mem_filter, Prod.mk.injEq, Prod.exists]
  constructor
  · rintro ⟨q, v', ⟨⟨hmem, hkeep⟩, hcan⟩, hkey, rfl⟩
    obtain ⟨k', rfl⟩ := exists_toNibbles_of_mem_entries hbytes hmem
    rw [key_toNibbles] at hkey
    subst hkey
    exact ⟨hkeep, hcan, (mem_entries root _ _).mp hmem⟩
  · rintro ⟨hkeep, hcan, hlookup⟩
    exact ⟨toNibbles k, v, ⟨⟨(mem_entries root _ _).mpr hlookup, hkeep⟩, hcan⟩, key_toNibbles k, rfl⟩

/-- The keys kept from the entries of a trie with keys of bytes strictly increase as bytes. -/
theorem pairwise_visible_filter (hbytes : KeysFromBytes (lookup root)) (keep : List Nibble → Bool)
    (pruneCondition : Option (List Nibble → Bool)) :
    ((visible pruneCondition (root.entries.filter fun e => keep e.1)).map Prod.fst).Pairwise
      (· < ·) := by
  have hs := keysSorted_filter (fun e => canProcess pruneCondition e.1)
    (keysSorted_filter (fun e => keep e.1) (keysSorted_entries root))
  simp only [visible, List.map_map]
  refine List.pairwise_map.mpr (hs.imp_of_mem fun ha hb hab => ?_)
  obtain ⟨k, hk⟩ := exists_toNibbles_of_mem_entries hbytes
    (List.mem_of_mem_filter (List.mem_of_mem_filter ha))
  obtain ⟨k', hk'⟩ := exists_toNibbles_of_mem_entries hbytes
    (List.mem_of_mem_filter (List.mem_of_mem_filter hb))
  rw [hk, hk'] at hab
  simpa [hk, hk'] using lt_of_toNibbles_lt hab

/-- What `trie.iter()` followed by `seek_prefix(p)` yields: the trie's entries under `p`, after
`collect_seekPrefix`, with no prune condition. -/
theorem collect_seekPrefix_none (p : List UInt8) :
    ((TrieIterator.new root none).seekPrefix p).collect =
      visible none (root.entries.filter fun e => decide (toNibbles p <+: e.1)) :=
  collect_seekPrefix (TrieIterator.new root none) (fun _ h => nomatch h) p

theorem mem_collect_seekPrefix (hroot : Reachable root) (p k : List UInt8) (v : V) :
    (k, v) ∈ ((TrieIterator.new root none).seekPrefix p).collect ↔
      p <+: k ∧ memtrieLookup root k = some v := by
  rw [collect_seekPrefix_none, mem_visible_filter hroot.canonical.2 (fun q => decide (toNibbles p <+: q))]
  simp [canProcess, toNibbles_isPrefix_iff]

theorem keysSorted_collect_seekPrefix (hroot : Reachable root) (p : List UInt8) :
    KeysSorted ((TrieIterator.new root none).seekPrefix p).collect := by
  rw [collect_seekPrefix_none]
  have h := pairwise_visible_filter hroot.canonical.2 (fun q => decide (toNibbles p <+: q)) none
  exact List.pairwise_map.mp h

/-- **The trie's side of a merge**: after `seek_prefix(p)`, the iterator's items, read as a sorted
map, hold the trie's value at each key under `p` and nothing elsewhere. -/
theorem get_collect_seekPrefix (hroot : Reachable root) (p k : List UInt8) :
    (⟨_, keysSorted_collect_seekPrefix hroot p⟩ : SortedMap (List UInt8) V).get k =
      if p <+: k then memtrieLookup root k else none := by
  refine Option.ext fun v => ?_
  rw [SortedMap.get_eq_some_iff, mem_collect_seekPrefix hroot p k v]
  split_ifs with hp <;> simp [hp]

end Bytes

/-- **Trie iteration order and seeking.** On a trie built by updates, `TrieIterator` yields the
entries of its map in strictly increasing byte order; after `seek_prefix(p)` exactly those whose
key starts with `p`; and with a prune condition closed under extension exactly those whose key
nibbles it does not hold at. -/
theorem trie_iterator_yields_map {root : TrieNode V} (hroot : Reachable root) (p : List UInt8)
    (pruneCondition : List Nibble → Bool)
    (hprune : ∀ x y, pruneCondition x = true → pruneCondition (x ++ y) = true) :
    (((TrieIterator.new root none).collect.map Prod.fst).Pairwise (· < ·) ∧
        ∀ k v, (k, v) ∈ (TrieIterator.new root none).collect ↔ memtrieLookup root k = some v) ∧
      ((((TrieIterator.new root none).seekPrefix p).collect.map Prod.fst).Pairwise (· < ·) ∧
        ∀ k v, (k, v) ∈ ((TrieIterator.new root none).seekPrefix p).collect ↔
          p <+: k ∧ memtrieLookup root k = some v) ∧
      (((TrieIterator.new root (some pruneCondition)).collect.map Prod.fst).Pairwise (· < ·) ∧
        ∀ k v, (k, v) ∈ (TrieIterator.new root (some pruneCondition)).collect ↔
          pruneCondition (toNibbles k) = false ∧ memtrieLookup root k = some v) := by
  have hbytes := hroot.canonical.2
  have hnone : TrieIterator.ClosedUnderExtension (none : Option (List Nibble → Bool)) :=
    fun _ h => nomatch h
  have hsome : TrieIterator.ClosedUnderExtension (some pruneCondition) := by
    rintro P ⟨⟩
    exact hprune
  have hall := TrieIterator.collect_new root hnone
  have hpruned := TrieIterator.collect_new root hsome
  rw [← List.filter_true root.entries] at hall hpruned
  rw [hall, hpruned]
  refine ⟨⟨pairwise_visible_filter hbytes (fun _ => true) _, fun k v => ?_⟩,
    ⟨List.pairwise_map.mpr (keysSorted_collect_seekPrefix hroot p), mem_collect_seekPrefix hroot p⟩,
    ⟨pairwise_visible_filter hbytes (fun _ => true) _, fun k v => ?_⟩⟩
  · rw [mem_visible_filter hbytes (fun _ => true)]
    simp [TrieIterator.canProcess]
  · rw [mem_visible_filter hbytes (fun _ => true)]
    simp [TrieIterator.canProcess]

/-- The iterator over a trie built from the empty trie by one batch: two keys under one byte,
and a key below the first, seen whole, from the prefix `[0x12]`, and pruned below two nibbles. -/
theorem trie_iterator_yields_map_built : ∃ root : TrieNode Nat,
    MemTrieUpdate.applyChanges .empty [([0x12], some 7), ([0x13], some 8), ([0x12, 0x34], some 9)] =
      some root ∧ memtrieLookup root [0x12] = some 7 ∧ memtrieLookup root [0x12, 0x34] = some 9 ∧
    Reachable root ∧
    (∀ x y : List Nibble, decide (2 < x.length) = true → decide (2 < (x ++ y).length) = true) ∧
    ((((TrieIterator.new root none).collect.map Prod.fst).Pairwise (· < ·) ∧
        ∀ k v, (k, v) ∈ (TrieIterator.new root none).collect ↔ memtrieLookup root k = some v) ∧
      ((((TrieIterator.new root none).seekPrefix [0x12]).collect.map Prod.fst).Pairwise (· < ·) ∧
        ∀ k v, (k, v) ∈ ((TrieIterator.new root none).seekPrefix [0x12]).collect ↔
          [0x12] <+: k ∧ memtrieLookup root k = some v) ∧
      (((TrieIterator.new root (some fun x => decide (2 < x.length))).collect.map
          Prod.fst).Pairwise (· < ·) ∧
        ∀ k v, (k, v) ∈ (TrieIterator.new root (some fun x => decide (2 < x.length))).collect ↔
          decide (2 < (toNibbles k).length) = false ∧ memtrieLookup root k = some v)) := by
  obtain ⟨root, hroot, -, hlookup⟩ := MemTrieUpdate.applyChanges_spec CanonicalTrie.empty
    [([0x12], some 7), ([0x13], some 8), ([0x12, 0x34], some (9 : Nat))]
  have hlook : ∀ key, memtrieLookup root key =
      (lastChange [([0x12], some 7), ([0x13], some 8), ([0x12, 0x34], some 9)] key).getD none :=
    fun key => by rw [memtrieLookup, hlookup, updateMap_apply]; rfl
  have hprune : ∀ x y : List Nibble,
      decide (2 < x.length) = true → decide (2 < (x ++ y).length) = true := by
    intro x y h
    simp only [decide_eq_true_eq, List.length_append] at h ⊢
    omega
  have hreach : Reachable root := .memTrieUpdate _ .empty hroot
  exact ⟨root, hroot, by rw [hlook]; rfl, by rw [hlook]; rfl, hreach, hprune,
    trie_iterator_yields_map hreach [0x12] _ hprune⟩

end Unc
