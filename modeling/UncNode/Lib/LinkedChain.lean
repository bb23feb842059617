import Mathlib

/-!
# Linked chains

A singly linked list kept in memory: from a head, `next` reads the link stored at a node, and the
walk ends at a sentinel `nil`. `Chain nil next head l` says that the walk from `head` visits
exactly the nodes `l`, in order. This is how an intrusive free list is described: pushing writes
the old head into the new node, popping reads the link of the head.

* `Chain.push`, `chain_cons`: pushing a node and popping the head;
* `Chain.congr`: the chain survives any change of memory that keeps the links of its nodes;
* `Chain.head_eq_nil_iff`: when the sentinel is no node, the head is the sentinel exactly when the
  chain is empty.
-/

set_option autoImplicit false

namespace LinkedChain

variable {α : Type} (nil : α)

/-- The walk from `head` along `next` visits `l` and then reaches `nil`. -/
def Chain (next : α → Option α) : α → List α → Prop
  | head, [] => head = nil
  | head, p :: rest => head = p ∧ ∃ n, next p = some n ∧ Chain next n rest

variable {nil} {next next' : α → Option α} {head p : α} {l rest : List α}

@[simp] theorem chain_nil : Chain nil next head [] ↔ head = nil := Iff.rfl

@[simp] theorem chain_cons :
    Chain nil next head (p :: rest) ↔ head = p ∧ ∃ n, next p = some n ∧ Chain nil next n rest :=
  Iff.rfl

/-- A chain only reads the links of its own nodes. -/
theorem Chain.congr (h : Chain nil next head l) (hagree : ∀ q ∈ l, next' q = next q) :
    Chain nil next' head l := by
  induction l generalizing head with
  | nil => exact h
  | cons q rest ih =>
    obtain ⟨rfl, n, hn, hrest⟩ := h
    refine ⟨rfl, n, ?_, ih hrest fun r hr => hagree r (List.mem_cons_of_mem _ hr)⟩
    rw [hagree _ List.mem_cons_self, hn]

/-- Pushing `p`: its link now leads to the old head, and the old nodes keep theirs. -/
theorem Chain.push (h : Chain nil next head l) (hp : next' p = some head)
    (hagree : ∀ q ∈ l, next' q = next q) : Chain nil next' p (p :: l) :=
  ⟨rfl, head, hp, h.congr hagree⟩

theorem Chain.head_eq_nil_iff (h : Chain nil next head l) (hnil : nil ∉ l) :
    head = nil ↔ l = [] := by
  cases l with
  | nil => exact ⟨fun _ => rfl, fun _ => h⟩
  | cons q rest =>
    obtain ⟨rfl, -⟩ := h
    exact ⟨fun hq => absurd (hq ▸ List.mem_cons_self) hnil, fun h => nomatch h⟩

end LinkedChain
