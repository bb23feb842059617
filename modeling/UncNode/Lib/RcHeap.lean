import Mathlib

/-!
# Refcounted heaps

Cells at addresses, each with a payload and a refcount; a payload names the addresses of its
children. Allocating a cell takes a reference to each of its children; releasing the last
reference to a cell frees it and releases its children in turn, as `Rc` does. The references
held from outside the heap, the roots, are a multiset of addresses.

The counts are right, `Accounts roots h`, when each cell's refcount is the number of references
to it from the cells (one per occurrence among a cell's children) and from the roots, no cell
points at a free address, and every root holds a cell.

* `Accounts.incr`, `Accounts.alloc`, `Accounts.release`: taking a root reference, allocating a
  cell and releasing a root reference keep the accounts;
* `payload_of_release`: releasing frees cells and lowers counts, and changes no payload;
* `release_isSome`: in a heap whose children rank below their parents, releasing a root
  reference with fuel above its rank never fails;
* `Heap.Keeps`, `keeps_alloc`: a heap keeps the payloads of another; allocating at a free
  address keeps every payload.
-/

set_option autoImplicit false

namespace RcHeap

/-- A cell: its refcount and its payload. -/
structure Cell (β : Type) where
  refcount : Nat
  payload : β

/-- Cells at addresses `α`, with the finite set of the addresses that hold one. -/
structure Heap (α β : Type) where
  cells : α → Option (Cell β)
  support : Finset α
  mem_support : ∀ a, a ∈ support ↔ (cells a).isSome

/-- An invariant of the steps still to run and the state, kept by each step, holds when a
`foldlM` that succeeds is done. -/
theorem foldlM_inv {γ δ : Type} {f : γ → δ → Option γ} (P : List δ → γ → Prop)
    (hstep : ∀ y l g g₁, P (y :: l) g → f g y = some g₁ → P l g₁) :
    ∀ (l : List δ) {g g' : γ}, P l g → l.foldlM f g = some g' → P [] g'
  | [], g, g', hg, hfold => by
    obtain rfl : g = g' := by simpa using hfold
    exact hg
  | y :: l, g, g', hg, hfold => by
    rw [List.foldlM_cons] at hfold
    obtain ⟨g₁, hg₁, hfold⟩ := Option.bind_eq_some_iff.mp hfold
    exact foldlM_inv P hstep l (hstep y l g g₁ hg hg₁) hfold

/-- Two loops over one list whose steps fail together, and otherwise keep a relation between their
states, fail together and otherwise end related. -/
theorem foldlM_rel {γ γ' δ : Type} {f : γ → δ → Option γ} {f' : γ' → δ → Option γ'}
    (R : List δ → γ → γ' → Prop)
    (hstep : ∀ y l g g', R (y :: l) g g' → Option.Rel (R l) (f g y) (f' g' y)) :
    ∀ (l : List δ) {g : γ} {g' : γ'}, R l g g' →
      Option.Rel (R []) (l.foldlM f g) (l.foldlM f' g')
  | [], _, _, hg => .some hg
  | y :: l, g, g', hg => by
    have hs := hstep y l g g' hg
    rw [List.foldlM_cons, List.foldlM_cons]
    rcases hf : f g y with _ | g₁ <;> rcases hf' : f' g' y with _ | g₁' <;> rw [hf, hf'] at hs
    · exact .none
    · cases hs
    · cases hs
    · cases hs with
      | some hr => exact foldlM_rel R hstep l hr

/-- Mapping the left side of two related options, knowing the right side. -/
theorem rel_map_left {γ γ' δ : Type} {R : γ → γ' → Prop} {S : δ → γ' → Prop} {f : γ → δ} :
    ∀ {a : Option γ} {b : Option γ'}, Option.Rel R a b →
      (∀ x y, b = some y → R x y → S (f x) y) → Option.Rel S (a.map f) b
  | _, _, .none, _ => .none
  | _, _, .some hr, hf => .some (hf _ _ rfl hr)

theorem rel_some_left {γ γ' : Type} {R : γ → γ' → Prop} {a : γ} {b : Option γ'}
    (h : Option.Rel R (some a) b) : ∃ y, b = some y ∧ R a y := by
  cases h with
  | some h => exact ⟨_, rfl, h⟩

theorem rel_some_right {γ γ' : Type} {R : γ → γ' → Prop} {a : Option γ} {b : γ'}
    (h : Option.Rel R a (some b)) : ∃ x, a = some x ∧ R x b := by
  cases h with
  | some h => exact ⟨_, rfl, h⟩

variable {α β : Type}

namespace Heap

/-- The heap without cells. -/
def empty : Heap α β := ⟨fun _ => none, ∅, by simp⟩

@[simp] theorem cells_empty (x : α) : (empty : Heap α β).cells x = none := rfl

/-- The payload of the cell at `a`, if there is one. -/
def payload (h : Heap α β) (a : α) : Option β := (h.cells a).map (·.payload)

/-- `h'` keeps every payload of `h` at its address: it only adds cells and changes counts. -/
def Keeps (h h' : Heap α β) : Prop := ∀ a b, h.payload a = some b → h'.payload a = some b

theorem Keeps.refl (h : Heap α β) : h.Keeps h := fun _ _ hb => hb

theorem Keeps.trans {h₁ h₂ h₃ : Heap α β} (h₁₂ : h₁.Keeps h₂) (h₂₃ : h₂.Keeps h₃) :
    h₁.Keeps h₃ :=
  fun a b hb => h₂₃ a b (h₁₂ a b hb)

theorem payload_eq_some {h : Heap α β} {a : α} {b : β} :
    h.payload a = some b ↔ ∃ c, h.cells a = some c ∧ c.payload = b :=
  Option.map_eq_some_iff

variable [DecidableEq α]

/-- `h` with the cell `c` at `a`. -/
def set (h : Heap α β) (a : α) (c : Cell β) : Heap α β where
  cells := Function.update h.cells a (some c)
  support := insert a h.support
  mem_support x := by
    by_cases hx : x = a
    · subst hx
      simp
    · simp [hx, h.mem_support]

/-- `h` without a cell at `a`. -/
def erase (h : Heap α β) (a : α) : Heap α β where
  cells := Function.update h.cells a none
  support := h.support.erase a
  mem_support x := by
    by_cases hx : x = a
    · subst hx
      simp
    · simp [hx, h.mem_support]

/-- One more reference to the cell at `a`, if there is one. -/
def incr (h : Heap α β) (a : α) : Heap α β :=
  match h.cells a with
  | some c => h.set a { c with refcount := c.refcount + 1 }
  | none => h

variable {h : Heap α β} {a x : α} {c : Cell β}

@[simp] theorem cells_set_self (h : Heap α β) (a : α) (c : Cell β) : (h.set a c).cells a = some c :=
  Function.update_self _ _ _

@[simp] theorem cells_set_of_ne (hx : x ≠ a) (c : Cell β) : (h.set a c).cells x = h.cells x :=
  Function.update_of_ne hx _ _

@[simp] theorem cells_erase_self (h : Heap α β) (a : α) : (h.erase a).cells a = none :=
  Function.update_self _ _ _

@[simp] theorem cells_erase_of_ne (hx : x ≠ a) : (h.erase a).cells x = h.cells x :=
  Function.update_of_ne hx _ _

theorem cells_incr (h : Heap α β) (a x : α) :
    (h.incr a).cells x =
      if x = a then (h.cells x).map fun c => { c with refcount := c.refcount + 1 }
      else h.cells x := by
  unfold incr
  split
  next c hc =>
    by_cases hx : x = a
    · subst hx
      simp [hc]
    · simp [hx]
  next hc =>
    by_cases hx : x = a
    · subst hx
      simp [hc]
    · simp [hx]

theorem incr_of_cells (hc : h.cells a = some c) :
    h.incr a = h.set a { c with refcount := c.refcount + 1 } := by
  unfold incr
  rw [hc]

/-- A reference changes which addresses hold cells nowhere. -/
@[simp] theorem isSome_cells_incr (h : Heap α β) (a x : α) :
    ((h.incr a).cells x).isSome = (h.cells x).isSome := by
  rw [cells_incr]
  split_ifs <;> simp

theorem cells_erase_set (h : Heap α β) (a : α) (c : Cell β) :
    ((h.set a c).erase a).cells = (h.erase a).cells := by
  funext x
  by_cases hx : x = a
  · subst hx
    simp
  · simp [hx]

/-- References taken one by one to the addresses of `l`. -/
theorem cells_foldl_incr (l : List α) (h : Heap α β) (x : α) :
    (l.foldl incr h).cells x =
      (h.cells x).map fun c => { c with refcount := c.refcount + l.count x } := by
  induction l generalizing h with
  | nil => cases hx : h.cells x <;> simp [hx]
  | cons y l ih =>
    rw [List.foldl_cons, ih, cells_incr]
    by_cases hx : x = y
    · subst hx
      cases h.cells x <;> simp [Nat.add_assoc, Nat.add_comm 1]
    · simp [hx, List.count_cons_of_ne (Ne.symm hx)]

end Heap

open Heap

variable [DecidableEq α] (children : β → List α)

/-- Allocate the payload `b` at `a`: a reference to each child, then the cell, which no
reference holds yet. -/
def alloc (h : Heap α β) (a : α) (b : β) : Heap α β :=
  ((children b).foldl incr h).set a ⟨0, b⟩

/-- Drop a reference to the cell at `a`. A cell left without references is freed, and the
references it held to its children are dropped in turn. `none` where no cell is, where a count
would go below zero, or when the fuel runs out. -/
def release : Nat → α → Heap α β → Option (Heap α β)
  | 0, _, _ => none
  | fuel + 1, a, h =>
    match h.cells a with
    | none => none
    | some c =>
      if c.refcount = 0 then none
      else if c.refcount = 1 then
        (children c.payload).foldlM (fun h x => release fuel x h) (h.erase a)
      else some (h.set a { c with refcount := c.refcount - 1 })

/-- The references the cell at `a` holds to `x`. -/
def held (h : Heap α β) (a x : α) : Nat :=
  ((h.cells a).map fun c => (children c.payload).count x).getD 0

/-- The references to `x` held by the cells of `h`. -/
def parents (h : Heap α β) (x : α) : Nat :=
  ∑ a ∈ h.support, held children h a x

/-- The refcounts are right: each counts the references from the cells and from the roots; no
cell points at a free address, and every root holds a cell. -/
structure Accounts (roots : Multiset α) (h : Heap α β) : Prop where
  counted : ∀ x c, h.cells x = some c → c.refcount = parents children h x + roots.count x
  closed : ∀ a c, h.cells a = some c → ∀ x ∈ children c.payload, (h.cells x).isSome
  rooted : ∀ x ∈ roots, (h.cells x).isSome

/-- Every child ranks below its parent: the heap has no cycle. -/
def Ranked (rank : α → Nat) (h : Heap α β) : Prop :=
  ∀ a c, h.cells a = some c → ∀ x ∈ children c.payload, rank x < rank a

variable {children} {h h' : Heap α β} {a x : α} {c : Cell β} {roots : Multiset α}

/-! ## Counting parents -/

theorem held_of_cells (hc : h.cells a = some c) (x : α) :
    held children h a x = (children c.payload).count x := by
  simp [held, hc]

theorem held_eq_zero (ha : h.cells a = none) (x : α) : held children h a x = 0 := by
  simp [held, ha]

/-- A cell's references to `x` are among the references to `x`. -/
theorem count_le_parents (hc : h.cells a = some c) (x : α) :
    (children c.payload).count x ≤ parents children h x := by
  have ha : a ∈ h.support := (h.mem_support a).mpr (by simp [hc])
  rw [← held_of_cells hc x]
  exact Finset.single_le_sum (f := fun b => held children h b x) (fun _ _ => Nat.zero_le _) ha

/-- No references to `x` means no cell has `x` among its children. -/
theorem notMem_children_of_parents (hp : parents children h x = 0) (hc : h.cells a = some c) :
    x ∉ children c.payload := by
  have : (children c.payload).count x ≤ parents children h x := count_le_parents hc x
  rw [hp, Nat.le_zero, List.count_eq_zero] at this
  exact this

theorem parents_set_fresh (ha : h.cells a = none) (c : Cell β) (x : α) :
    parents children (h.set a c) x = parents children h x + (children c.payload).count x := by
  have hnot : a ∉ h.support := by simp [h.mem_support, ha]
  have hrest : ∑ b ∈ h.support, held children (h.set a c) b x =
      ∑ b ∈ h.support, held children h b x := by
    refine Finset.sum_congr rfl fun b hb => ?_
    have hba : b ≠ a := fun hba => hnot (hba ▸ hb)
    simp [held, hba]
  unfold parents
  rw [show (h.set a c).support = insert a h.support from rfl, Finset.sum_insert hnot, hrest,
    held_of_cells (cells_set_self h a c), Nat.add_comm]

/-- Replacing a cell by one with the same payload keeps every count of parents. -/
theorem parents_set_same (hc : h.cells a = some c) (c' : Cell β) (hp : c'.payload = c.payload)
    (x : α) : parents children (h.set a c') x = parents children h x := by
  have ha : a ∈ h.support := (h.mem_support a).mpr (by simp [hc])
  unfold parents
  rw [show (h.set a c').support = insert a h.support from rfl, Finset.insert_eq_of_mem ha]
  refine Finset.sum_congr rfl fun b _ => ?_
  by_cases hba : b = a
  · subst hba
    rw [held_of_cells (cells_set_self h b c'), held_of_cells hc, hp]
  · simp [held, hba]

theorem parents_erase (hc : h.cells a = some c) (x : α) :
    parents children h x = parents children (h.erase a) x + (children c.payload).count x := by
  have ha : a ∈ h.support := (h.mem_support a).mpr (by simp [hc])
  have hrest : ∑ b ∈ h.support.erase a, held children (h.erase a) b x =
      ∑ b ∈ h.support.erase a, held children h b x := by
    refine Finset.sum_congr rfl fun b hb => ?_
    simp [held, Finset.ne_of_mem_erase hb]
  unfold parents
  rw [show (h.erase a).support = h.support.erase a from rfl, hrest,
    ← Finset.sum_erase_add _ _ ha, held_of_cells hc]

theorem parents_incr (h : Heap α β) (a x : α) :
    parents children (h.incr a) x = parents children h x := by
  unfold incr
  split
  next c hc => exact parents_set_same hc { c with refcount := c.refcount + 1 } rfl x
  next => rfl

theorem parents_foldl_incr (l : List α) (h : Heap α β) (x : α) :
    parents children (l.foldl incr h) x = parents children h x := by
  induction l generalizing h with
  | nil => rfl
  | cons y l ih => rw [List.foldl_cons, ih, parents_incr]

/-! ## The operations keep the accounts -/

theorem accounts_empty : Accounts children 0 (empty : Heap α β) where
  counted _ _ hc := by simp at hc
  closed _ _ hc := by simp at hc
  rooted _ hx := by simp at hx

/-- Taking a root reference to a cell. -/
theorem Accounts.incr (hacc : Accounts children roots h) (hx : (h.cells x).isSome) :
    Accounts children (x ::ₘ roots) (h.incr x) where
  counted y c hc := by
    rw [cells_incr] at hc
    rw [parents_incr]
    by_cases hy : y = x
    · subst hy
      obtain ⟨c₀, hc₀, rfl⟩ := Option.map_eq_some_iff.mp (if_pos rfl ▸ hc)
      have hcount := hacc.counted y c₀ hc₀
      simp only [Multiset.count_cons_self]
      omega
    · rw [if_neg hy] at hc
      rw [hacc.counted y c hc, Multiset.count_cons_of_ne hy]
  closed b c hc z hz := by
    rw [cells_incr] at hc ⊢
    have hc' : ∃ c₀, h.cells b = some c₀ ∧ c₀.payload = c.payload := by
      split_ifs at hc
      · obtain ⟨c₀, hc₀, rfl⟩ := Option.map_eq_some_iff.mp hc
        exact ⟨c₀, hc₀, rfl⟩
      · exact ⟨c, hc, rfl⟩
    obtain ⟨c₀, hc₀, hp⟩ := hc'
    have hz' := hacc.closed b c₀ hc₀ z (hp ▸ hz)
    split_ifs <;> simpa using hz'
  rooted y hy := by
    rw [cells_incr]
    rcases Multiset.mem_cons.mp hy with rfl | hy
    · simpa using hx
    · split_ifs <;> simpa using hacc.rooted y hy

/-- Allocating at a free address a cell whose children hold cells. -/
theorem Accounts.alloc (hacc : Accounts children roots h) (ha : h.cells a = none) (b : β)
    (hb : ∀ x ∈ children b, (h.cells x).isSome) :
    Accounts children roots (RcHeap.alloc children h a b) := by
  have hfold := cells_foldl_incr (children b) h
  have ha' : ((children b).foldl Heap.incr h).cells a = none := by rw [hfold, ha]; rfl
  have hnotMem : a ∉ children b := fun hmem => by simpa [ha] using hb a hmem
  have hroot : a ∉ roots := fun hmem => by simpa [ha] using hacc.rooted a hmem
  refine ⟨fun y c hc => ?_, fun e c hc z hz => ?_, fun y hy => ?_⟩
  · unfold RcHeap.alloc at hc ⊢
    rw [parents_set_fresh ha', parents_foldl_incr]
    by_cases hy : y = a
    · subst hy
      obtain rfl := Option.some.inj ((cells_set_self _ _ _).symm.trans hc)
      have hp : parents children h y = 0 := by
        refine Finset.sum_eq_zero fun e he => ?_
        cases hce : h.cells e with
        | none => exact held_eq_zero hce y
        | some ce =>
          rw [held_of_cells hce, List.count_eq_zero]
          intro hmem
          simpa [ha] using hacc.closed e ce hce y hmem
      simp [hp, List.count_eq_zero.mpr hnotMem, Multiset.count_eq_zero.mpr hroot]
    · rw [cells_set_of_ne hy, hfold] at hc
      obtain ⟨c₀, hc₀, rfl⟩ := Option.map_eq_some_iff.mp hc
      simp only
      rw [hacc.counted y c₀ hc₀]
      omega
  · unfold RcHeap.alloc at hc ⊢
    by_cases he : e = a
    · subst he
      obtain rfl := Option.some.inj ((cells_set_self _ _ _).symm.trans hc)
      have hza : z ≠ e := fun hza => hnotMem (hza ▸ hz)
      rw [cells_set_of_ne hza, hfold]
      simpa using hb z hz
    · rw [cells_set_of_ne he, hfold] at hc
      obtain ⟨c₀, hc₀, rfl⟩ := Option.map_eq_some_iff.mp hc
      have hz' := hacc.closed e c₀ hc₀ z hz
      by_cases hza : z = a
      · subst hza
        simp
      · rw [cells_set_of_ne hza, hfold]
        simpa using hz'
  · unfold RcHeap.alloc
    have hya : y ≠ a := fun hya => hroot (hya ▸ hy)
    rw [cells_set_of_ne hya, hfold]
    simpa using hacc.rooted y hy

/-- A root reference to a cell with more than one reference is dropped by lowering its count. -/
theorem Accounts.decr (hacc : Accounts children roots h) (hx : x ∈ roots)
    (hc : h.cells x = some c) :
    Accounts children (roots.erase x) (h.set x { c with refcount := c.refcount - 1 }) where
  counted y c' hc' := by
    rw [parents_set_same hc { c with refcount := c.refcount - 1 } rfl]
    by_cases hy : y = x
    · subst hy
      obtain rfl := Option.some.inj ((cells_set_self _ _ _).symm.trans hc')
      have hcount := Multiset.count_erase_self y roots
      have hpos := Multiset.count_pos.mpr hx
      rw [hacc.counted y c hc] at *
      simp only
      omega
    · rw [cells_set_of_ne hy] at hc'
      rw [hacc.counted y c' hc', Multiset.count_erase_of_ne hy]
  closed b c' hc' z hz := by
    have hset : ∀ y, ((h.set x { c with refcount := c.refcount - 1 }).cells y).isSome =
        (h.cells y).isSome := fun y => by
      by_cases hy : y = x
      · subst hy
        simp [hc]
      · simp [hy]
    rw [hset]
    by_cases hb : b = x
    · subst hb
      obtain rfl := Option.some.inj ((cells_set_self _ _ _).symm.trans hc')
      exact hacc.closed b c hc z hz
    · rw [cells_set_of_ne hb] at hc'
      exact hacc.closed b c' hc' z hz
  rooted y hy := by
    by_cases hyx : y = x
    · subst hyx
      simp
    · rw [cells_set_of_ne hyx]
      exact hacc.rooted y (Multiset.mem_of_mem_erase hy)

/-- Dropping the last reference to a cell frees it; the references it held become roots to be
dropped in turn. -/
theorem Accounts.free (hacc : Accounts children roots h) (hx : x ∈ roots)
    (hc : h.cells x = some c) (hone : c.refcount = 1) :
    Accounts children (roots.erase x + ↑(children c.payload)) (h.erase x) := by
  have hcount := hacc.counted x c hc
  have hpos := Multiset.count_pos.mpr hx
  -- the root was the only reference: no cell points at `x`, and it was one root
  have hp : parents children h x = 0 := by omega
  have hroot : roots.count x = 1 := by omega
  have hself : x ∉ children c.payload := notMem_children_of_parents hp hc
  have hnotErase : x ∉ roots.erase x := by
    rw [← Multiset.count_eq_zero, Multiset.count_erase_self, hroot]
  refine ⟨fun y c' hc' => ?_, fun b c' hc' z hz => ?_, fun y hy => ?_⟩
  · have hy : y ≠ x := fun hy => by subst hy; simp at hc'
    rw [cells_erase_of_ne hy] at hc'
    rw [hacc.counted y c' hc', parents_erase hc, Multiset.count_add,
      Multiset.count_erase_of_ne hy, Multiset.coe_count]
    omega
  · have hb : b ≠ x := fun hb => by subst hb; simp at hc'
    rw [cells_erase_of_ne hb] at hc'
    have hzx : z ≠ x := fun hzx => notMem_children_of_parents hp hc' (hzx ▸ hz)
    rw [cells_erase_of_ne hzx]
    exact hacc.closed b c' hc' z hz
  · rcases Multiset.mem_add.mp hy with hy | hy
    · have hyx : y ≠ x := fun hyx => hnotErase (hyx ▸ hy)
      rw [cells_erase_of_ne hyx]
      exact hacc.rooted y (Multiset.mem_of_mem_erase hy)
    · have hy' : y ∈ children c.payload := Multiset.mem_coe.mp hy
      have hyx : y ≠ x := fun hyx => hself (hyx ▸ hy')
      rw [cells_erase_of_ne hyx]
      exact hacc.closed x c hc y hy'

/-- **Releasing a root reference keeps the accounts**, by induction on the fuel: the children's
loop drops the references the freed cell held, one root at a time. -/
theorem Accounts.release :
    ∀ {fuel : Nat} {x : α} {roots : Multiset α} {h h' : Heap α β},
      Accounts children roots h → x ∈ roots → release children fuel x h = some h' →
      Accounts children (roots.erase x) h'
  | 0, _, _, _, _, _, _, hr => by simp [RcHeap.release] at hr
  | fuel + 1, x, roots, h, h', hacc, hx, hr => by
    unfold RcHeap.release at hr
    split at hr
    next => cases hr
    next c hc =>
      split_ifs at hr with hzero hone
      · -- the children's references become roots, dropped one after another
        have hstep : ∀ y l g g₁, Accounts children (roots.erase x + ↑(y :: l)) g →
            RcHeap.release children fuel y g = some g₁ →
              Accounts children (roots.erase x + ↑l) g₁ := fun y l g g₁ hg hg₁ => by
          have hmem : y ∈ roots.erase x + ↑(y :: l) := Multiset.mem_add.mpr (.inr (by simp))
          have herase : (roots.erase x + ↑(y :: l)).erase y = roots.erase x + ↑l := by
            rw [← Multiset.cons_coe, Multiset.add_cons, Multiset.erase_cons_head]
          exact herase ▸ Accounts.release hg hmem hg₁
        simpa using foldlM_inv (fun l g => Accounts children (roots.erase x + ↑l) g) hstep _
          (hacc.free hx hc hone) hr
      · cases hr
        exact hacc.decr hx hc

/-! ## Releasing changes no payload -/

/-- A cell of the released heap was a cell before, with the same payload. -/
theorem payload_of_release :
    ∀ {fuel : Nat} {x : α} {h h' : Heap α β}, release children fuel x h = some h' →
      ∀ a c', h'.cells a = some c' → ∃ c, h.cells a = some c ∧ c.payload = c'.payload
  | 0, _, _, _, hr => by simp [RcHeap.release] at hr
  | fuel + 1, x, h, h', hr => by
    unfold RcHeap.release at hr
    split at hr
    next => cases hr
    next c hc =>
      split_ifs at hr with hzero hone
      · -- the loop only releases, starting from `h` without `x`
        have hstart : ∀ a c', (h.erase x).cells a = some c' →
            ∃ c, h.cells a = some c ∧ c.payload = c'.payload := fun a c' hc' => by
          have ha : a ≠ x := fun ha => by subst ha; simp at hc'
          exact ⟨c', by rwa [cells_erase_of_ne ha] at hc', rfl⟩
        refine foldlM_inv (fun _ g => ∀ a c', g.cells a = some c' →
            ∃ c, h.cells a = some c ∧ c.payload = c'.payload) ?_ _ hstart hr
        intro y l g g₁ hg hg₁ a c' hc'
        obtain ⟨c₁, hc₁, hp₁⟩ := payload_of_release hg₁ a c' hc'
        obtain ⟨c₀, hc₀, hp₀⟩ := hg a c₁ hc₁
        exact ⟨c₀, hc₀, hp₀.trans hp₁⟩
      · cases hr
        intro a c' hc'
        by_cases ha : a = x
        · subst ha
          obtain rfl := Option.some.inj ((cells_set_self _ _ _).symm.trans hc')
          exact ⟨c, hc, rfl⟩
        · exact ⟨c', by rwa [cells_set_of_ne ha] at hc', rfl⟩

theorem Ranked.of_release {rank : α → Nat} {fuel : Nat} (hrank : Ranked children rank h)
    (hr : release children fuel x h = some h') : Ranked children rank h' := by
  intro a c' hc' y hy
  obtain ⟨c, hc, hp⟩ := payload_of_release hr a c' hc'
  exact hrank a c hc y (hp ▸ hy)

/-- A reference changes no payload, so the heap stays ranked. -/
theorem Ranked.incr {rank : α → Nat} (hrank : Ranked children rank h) (a : α) :
    Ranked children rank (h.incr a) := by
  intro e c hc y hy
  rw [cells_incr] at hc
  split_ifs at hc
  · obtain ⟨c₀, hc₀, rfl⟩ := Option.map_eq_some_iff.mp hc
    exact hrank e c₀ hc₀ y hy
  · exact hrank e c hc y hy

/-- A cell allocated above its children keeps the heap ranked. -/
theorem Ranked.alloc {rank : α → Nat} (hrank : Ranked children rank h)
    (hacc : Accounts children roots h) (ha : h.cells a = none) {b : β}
    (hb : ∀ x ∈ children b, (h.cells x).isSome) {n : Nat} (hn : ∀ x ∈ children b, rank x < n) :
    Ranked children (Function.update rank a n) (RcHeap.alloc children h a b) := by
  have hfold := cells_foldl_incr (children b) h
  intro e c hc y hy
  unfold RcHeap.alloc at hc
  -- a cell of `h` never points at the free address
  have hnot : ∀ e c, h.cells e = some c → a ∉ children c.payload := fun e c hc hmem => by
    simpa [ha] using hacc.closed e c hc a hmem
  by_cases he : e = a
  · subst he
    obtain rfl := Option.some.inj ((cells_set_self _ _ _).symm.trans hc)
    have hya : y ≠ e := fun hya => by simpa [hya, ha] using hb y hy
    rw [Function.update_of_ne hya, Function.update_self]
    exact hn y hy
  · rw [cells_set_of_ne he, hfold] at hc
    obtain ⟨c₀, hc₀, rfl⟩ := Option.map_eq_some_iff.mp hc
    have hya : y ≠ a := fun hya => hnot e c₀ hc₀ (hya ▸ hy)
    rw [Function.update_of_ne hya, Function.update_of_ne he]
    exact hrank e c₀ hc₀ y hy

/-! ## Enough fuel -/

/-- **Releasing never fails** in a ranked heap with correct accounts, when the fuel is above the
rank of the released cell. -/
theorem release_isSome {rank : α → Nat} :
    ∀ {fuel : Nat} {x : α} {roots : Multiset α} {h : Heap α β},
      Accounts children roots h → Ranked children rank h → x ∈ roots → rank x < fuel →
      ∃ h', release children fuel x h = some h'
  | 0, _, _, _, _, _, _, hfuel => absurd hfuel (Nat.not_lt_zero _)
  | fuel + 1, x, roots, h, hacc, hrank, hx, hfuel => by
    obtain ⟨c, hc⟩ := Option.isSome_iff_exists.mp (hacc.rooted x hx)
    have hcount := hacc.counted x c hc
    have hpos := Multiset.count_pos.mpr hx
    unfold RcHeap.release
    rw [hc]
    dsimp only
    rw [if_neg (by omega)]
    split_ifs with hone
    · -- each child ranks below `x`, so below the fuel that is left
      have hloop : ∀ (l : List α) {rs : Multiset α} {g : Heap α β},
          Accounts children (rs + ↑l) g → Ranked children rank g → (∀ y ∈ l, rank y < fuel) →
          ∃ g', l.foldlM (fun h x => RcHeap.release children fuel x h) g = some g' := by
        intro l
        induction l with
        | nil => intro rs g _ _ _; exact ⟨g, rfl⟩
        | cons y l ih =>
          intro rs g hg hgr hl
          have hmem : y ∈ rs + ↑(y :: l) := Multiset.mem_add.mpr (.inr (by simp))
          obtain ⟨g₁, hg₁⟩ := release_isSome hg hgr hmem (hl y (by simp))
          have herase : (rs + ↑(y :: l)).erase y = rs + ↑l := by
            rw [← Multiset.cons_coe, Multiset.add_cons, Multiset.erase_cons_head]
          have hacc₁ := herase ▸ hg.release hmem hg₁
          obtain ⟨g', hg'⟩ := ih hacc₁ (hgr.of_release hg₁) fun z hz => hl z (by simp [hz])
          exact ⟨g', by rw [List.foldlM_cons, hg₁]; exact hg'⟩
      have hranked : Ranked children rank (h.erase x) := by
        intro a c' hc' y hy
        have ha : a ≠ x := fun ha => by subst ha; simp at hc'
        rw [cells_erase_of_ne ha] at hc'
        exact hrank a c' hc' y hy
      exact hloop _ (hacc.free hx hc hone) hranked fun y hy => by
        have := hrank x c hc y hy
        omega
    · exact ⟨_, rfl⟩

/-! ## Payloads -/

namespace Heap

theorem payload_set (h : Heap α β) (a : α) (c : Cell β) (x : α) :
    (h.set a c).payload x = if x = a then some c.payload else h.payload x := by
  by_cases hx : x = a
  · subst hx
    simp [payload]
  · simp [payload, hx]

/-- References change no payload. -/
theorem payload_foldl_incr (l : List α) (h : Heap α β) : (l.foldl incr h).payload = h.payload := by
  funext x
  simp only [payload, cells_foldl_incr, Option.map_map]
  rfl

end Heap

theorem payload_alloc (h : Heap α β) (a : α) (b : β) (x : α) :
    (alloc children h a b).payload x = if x = a then some b else h.payload x := by
  rw [alloc, payload_set, payload_foldl_incr]

/-- Allocating at a free address keeps every payload. -/
theorem keeps_alloc (ha : h.cells a = none) (b : β) : h.Keeps (alloc children h a b) := by
  intro x b' hx
  have hxa : x ≠ a := fun hxa => by simp [hxa, payload, ha] at hx
  rw [payload_alloc, if_neg hxa, hx]

end RcHeap
