import Mathlib

/-!
# A binary heap kept in a flat list, sifted through a hole

A max-heap over an `Ord`, stored as the standard library of Rust stores `BinaryHeap`: the
children of position `i` are `2 * i + 1` and `2 * i + 2`. Each operation follows that
library's algorithm step by step, so that the model fixes the order of the backing list and
not only its multiset. That order is what iterating the heap hands out (`IntoIter` walks the
backing vector), so a program that iterates a heap sees exactly `data`.

* `ofList` (`From<Vec<T>>`, hence `collect`): `rebuild`, a `siftDown` at every inner position
  from the last one to the root;
* `push`: append, then `siftUp` from the new position;
* `pop`: the last element takes the root's place, the hole sinks to a leaf along the greater
  children (`siftDownToBottom`) and the element climbs back with `siftUp`;
* `peekMutSet` (writing through `PeekMut`, then dropping it): replace the root, `siftDown`;
* `extend`: append, then `rebuildTail`, which picks a full `rebuild` or one `siftUp` for each
  new element;
* `intoSortedVec`: the in-place heap sort.

Rust moves a hole and writes the sifted element once at the end; here the element is swapped
along, which leaves the same list. Comparisons are the ones Rust writes: `a <= b` is
`(compare a b).isLE`, `a >= b` is `(compare a b).isGE` and `a < b` is `compare a b = .lt`.
Every loop carries fuel that the list's length bounds: each step moves the element strictly
down (its position at least doubles) or strictly up.

`Reverse` is `std::cmp::Reverse`, with which a max-heap serves as a min-heap.
-/

set_option autoImplicit false

/-- A binary heap: its backing list, in the order Rust keeps it. -/
structure SiftHeap (α : Type) where
  data : List α
deriving DecidableEq, Repr

namespace SiftHeap

variable {α : Type} [Ord α] [Inhabited α]

/-- Exchange the elements at two positions. -/
def swap (data : List α) (i j : Nat) : List α :=
  (data.set i (data.getD j default)).set j (data.getD i default)

/-- Of the children `child` and `child + 1`, the one a sift moves to: the right one when the
left one is `<=` it. -/
def greaterChild (data : List α) (child : Nat) : Nat :=
  if (compare (data.getD child default) (data.getD (child + 1) default)).isLE then child + 1
  else child

/-- The loop of `sift_up(start, pos)`: the element at `pos` climbs while it is not `<=` its
parent and has not reached `start`. Returns the list and the element's final position. -/
def siftUpLoop : Nat → List α → Nat → Nat → List α × Nat
  | 0, data, _, pos => (data, pos)
  | fuel + 1, data, start, pos =>
    if start < pos then
      if (compare (data.getD pos default) (data.getD ((pos - 1) / 2) default)).isLE then
        (data, pos)
      else siftUpLoop fuel (swap data pos ((pos - 1) / 2)) start ((pos - 1) / 2)
    else (data, pos)

/-- `sift_up(start, pos)`. -/
def siftUp (data : List α) (start pos : Nat) : List α × Nat :=
  siftUpLoop pos data start pos

/-- The loop of `sift_down_range(pos, end)` with the hole at `hole`: while both children are
below `stop`, move to the greater one unless the element is `>=` it; a last single child is
taken only when the element is `<` it. -/
def siftDownRangeLoop : Nat → List α → Nat → Nat → List α × Nat
  | 0, data, hole, _ => (data, hole)
  | fuel + 1, data, hole, stop =>
    if 2 * hole + 1 ≤ stop - 2 then
      let child := greaterChild data (2 * hole + 1)
      if (compare (data.getD hole default) (data.getD child default)).isGE then (data, hole)
      else siftDownRangeLoop fuel (swap data hole child) child stop
    else if 2 * hole + 1 = stop - 1 ∧
        compare (data.getD hole default) (data.getD (2 * hole + 1) default) = .lt then
      (swap data hole (2 * hole + 1), 2 * hole + 1)
    else (data, hole)

/-- `sift_down_range(pos, end)`: sift the element at `pos` down within the first `stop`
positions. -/
def siftDownRange (data : List α) (pos stop : Nat) : List α × Nat :=
  siftDownRangeLoop stop data pos stop

/-- `sift_down(pos)`. -/
def siftDown (data : List α) (pos : Nat) : List α :=
  (siftDownRange data pos data.length).1

/-- The first loop of `sift_down_to_bottom(pos)`: the hole always moves to the greater child,
down to a leaf. -/
def siftDownToBottomLoop : Nat → List α → Nat → Nat → List α × Nat
  | 0, data, hole, _ => (data, hole)
  | fuel + 1, data, hole, stop =>
    if 2 * hole + 1 ≤ stop - 2 then
      let child := greaterChild data (2 * hole + 1)
      siftDownToBottomLoop fuel (swap data hole child) child stop
    else if 2 * hole + 1 = stop - 1 then (swap data hole (2 * hole + 1), 2 * hole + 1)
    else (data, hole)

/-- `sift_down_to_bottom(pos)`: sink to a leaf, then `sift_up(pos, ·)` from there. -/
def siftDownToBottom (data : List α) (pos : Nat) : List α :=
  let sunk := siftDownToBottomLoop data.length data pos data.length
  (siftUp sunk.1 pos sunk.2).1

/-- The loop of `rebuild`: `sift_down(n - 1)`, …, `sift_down(0)`. -/
def rebuildLoop : List α → Nat → List α
  | data, 0 => data
  | data, n + 1 => rebuildLoop (siftDown data n) n

/-- `rebuild`: heapify from position `len / 2 - 1` down to the root. -/
def rebuild (data : List α) : List α :=
  rebuildLoop data (data.length / 2)

/-- `BinaryHeap::from(vec)`, and so `collect()`. -/
def ofList (l : List α) : SiftHeap α :=
  ⟨rebuild l⟩

/-- `len`. -/
def len (h : SiftHeap α) : Nat :=
  h.data.length

/-- `peek`: the root. -/
def peek (h : SiftHeap α) : Option α :=
  h.data.head?

/-- `push`. -/
def push (h : SiftHeap α) (item : α) : SiftHeap α :=
  ⟨(siftUp (h.data ++ [item]) 0 h.data.length).1⟩

/-- `pop`: the root, and the heap after it. -/
def pop (h : SiftHeap α) : Option α × SiftHeap α :=
  match h.data.getLast? with
  | none => (none, h)
  | some item =>
    if h.data.dropLast = [] then (some item, ⟨[]⟩)
    -- the last element swaps with the root, which is returned
    else (h.data.head?, ⟨siftDownToBottom (h.data.dropLast.set 0 item) 0⟩)

/-- Write `item` through `peek_mut` and drop the guard: a heap of more than one element sifts
its new root down. -/
def peekMutSet (h : SiftHeap α) (item : α) : SiftHeap α :=
  if 1 < h.data.length then ⟨siftDown (h.data.set 0 item) 0⟩ else ⟨h.data.set 0 item⟩

/-- The loop `for i in start..len { sift_up(0, i) }` of `rebuild_tail`. -/
def siftUpEach : List α → List Nat → List α
  | data, [] => data
  | data, i :: is => siftUpEach (siftUp data 0 i).1 is

/-- `rebuild_tail(start)`: restore the heap after elements were appended from `start` on,
by a full `rebuild` or by sifting each new element up, whichever Rust estimates cheaper. -/
def rebuildTail (data : List α) (start : Nat) : List α :=
  if start = data.length then data
  else
    let tailLen := data.length - start
    let betterToRebuild :=
      if start < tailLen then true
      else if data.length ≤ 2048 then decide (2 * data.length < tailLen * Nat.log2 start)
      else decide (2 * data.length < tailLen * 11)
    if betterToRebuild then rebuild data
    else siftUpEach data (List.range' start tailLen)

/-- `extend`: append the items, then `rebuild_tail` from the old length. -/
def extend (h : SiftHeap α) (items : List α) : SiftHeap α :=
  ⟨rebuildTail (h.data ++ items) h.data.length⟩

/-- The loop of `into_sorted_vec`: swap the root to position `stop - 1`, then sift the new root
down within the first `stop - 1` positions. -/
def sortLoop : List α → Nat → List α
  | data, 0 => data
  | data, n + 1 =>
    -- `end` runs from `len - 1` down to `1`
    if n = 0 then data
    else sortLoop (siftDownRange (swap data 0 n) 0 n).1 n

/-- `into_sorted_vec`: the elements in ascending order. -/
def intoSortedVec (h : SiftHeap α) : List α :=
  sortLoop h.data h.data.length

end SiftHeap

/-- `std::cmp::Reverse`: the opposite order. -/
structure Reverse (α : Type) where
  val : α
deriving DecidableEq, Repr, Inhabited

namespace Reverse

instance {α : Type} [Ord α] : Ord (Reverse α) where
  compare a b := compare b.val a.val

end Reverse
