import Mathlib
import UncNode.Lib.LinkedChain
import UncNode.Lib.LittleEndian
import UncNode.Primitives.U64

/-!
# The memtrie arena — `core/store/src/trie/mem/arena`

The arena hands out regions of chunks of `CHUNK_SIZE` bytes. Its allocator rounds each request up
to one of `NUM_ALLOCATION_CLASSES` size classes, takes a region of that class from the class's
free list when there is one, and otherwise bumps `next_alloc_pos`, opening a new chunk when the
current one is full. A freed region goes to the front of its class's free list, whose links are
stored in the first 8 bytes of the freed regions themselves.

* `allocationClass_spec`: every request of `1..=MAX_ALLOC_SIZE` bytes has a class below
  `NUM_ALLOCATION_CLASSES` whose size holds it and at least a link;
* `ArenaInv`: the reserved regions, live and free, lie in their chunks below the bump position and
  are pairwise apart, every free list walks through the free regions of its class, and the
  counters count the live allocations;
* `ArenaInv.alloc`, `ArenaInv.dealloc`, `ArenaInv.write`: allocation, deallocation of a live
  allocation and writes inside a live allocation keep it;
* `ArenaInv.dealloc_isSome`, `ArenaInv.alloc_isSome`: freeing a live allocation never panics, and
  an allocation panics only when a counter overflows or a chunk index would pass `u32`;
* **`Arena.Reachable.arenaInv`**: every state reached by such operations keeps it, so live
  allocations lie inside their chunks and share no byte.
-/

set_option autoImplicit false

namespace Unc

/-! ## Positions and memory -/

/-- `ArenaPos`: a chunk and an offset in it, each a `u32`. -/
structure ArenaPos where
  chunk : Nat
  pos : Nat
  deriving DecidableEq, Repr

/-- `ArenaPos::invalid()`. -/
def ArenaPos.invalid : ArenaPos := ⟨2 ^ 32 - 1, 2 ^ 32 - 1⟩

/-- `ArenaPos::is_invalid`. -/
def ArenaPos.isInvalid (p : ArenaPos) : Bool :=
  p.chunk == 2 ^ 32 - 1 && p.pos == 2 ^ 32 - 1

/-- `ArenaPos::offset_by`: `u32::try_from(offset).unwrap()` and the `u32` addition panic when
the offset does not fit. -/
def ArenaPos.offsetBy (p : ArenaPos) (offset : Nat) : Option ArenaPos :=
  if p.pos + offset < 2 ^ 32 then some ⟨p.chunk, p.pos + offset⟩ else none

/-- The borsh bytes of an `ArenaPos`: both `u32`s, little-endian. -/
def ArenaPos.toBytes (p : ArenaPos) : List UInt8 :=
  LittleEndian.toBytes 4 p.chunk ++ LittleEndian.toBytes 4 p.pos

@[simp] theorem ArenaPos.length_toBytes (p : ArenaPos) : p.toBytes.length = 8 := by
  simp [ArenaPos.toBytes]

/-- `ArenaPos::try_from_slice` of 8 bytes, which cannot fail. -/
def ArenaPos.ofBytes (bytes : List UInt8) : ArenaPos :=
  ⟨LittleEndian.ofBytes (bytes.take 4), LittleEndian.ofBytes (bytes.drop 4)⟩

/-- `ArenaMemory`: the length of each chunk and the bytes at every chunk and offset. -/
structure ArenaMemory where
  chunks : List Nat
  bytes : Nat → Nat → UInt8

/-- Whether `chunks[pos.chunk()][pos.pos()..pos.pos() + len]` is in bounds. -/
def ArenaMemory.inBounds (m : ArenaMemory) (pos : ArenaPos) (len : Nat) : Bool :=
  match m.chunks[pos.chunk]? with
  | some n => decide (pos.pos + len ≤ n)
  | none => false

/-- `ArenaMemory::raw_slice`; out of bounds it panics. -/
def ArenaMemory.rawSlice (m : ArenaMemory) (pos : ArenaPos) (len : Nat) : Option (List UInt8) :=
  if m.inBounds pos len then some ((List.range len).map fun i => m.bytes pos.chunk (pos.pos + i))
  else none

/-- Writing `data` through `raw_slice_mut(pos, data.len())`; out of bounds it panics. -/
def ArenaMemory.writeSlice (m : ArenaMemory) (pos : ArenaPos) (data : List UInt8) :
    Option ArenaMemory :=
  if m.inBounds pos data.length then
    some { m with
      bytes := fun c o =>
        if c = pos.chunk ∧ pos.pos ≤ o ∧ o < pos.pos + data.length then data.getD (o - pos.pos) 0
        else m.bytes c o }
  else none

/-- `ArenaPtr::read_pos`: the position stored in the 8 bytes at `pos`. -/
def ArenaMemory.readPos (m : ArenaMemory) (pos : ArenaPos) : Option ArenaPos :=
  (m.rawSlice pos 8).map ArenaPos.ofBytes

/-- `slice_mut(pos, ArenaPos::SERIALIZED_SIZE).write_pos_at(0, p)`. -/
def ArenaMemory.writePos (m : ArenaMemory) (pos p : ArenaPos) : Option ArenaMemory :=
  m.writeSlice pos p.toBytes

/-- `ArenaSliceMut`, as the allocator returns it: a position and a length. -/
structure ArenaSliceMut where
  pos : ArenaPos
  len : Nat
  deriving DecidableEq, Repr

/-! ## Size classes -/

/-- `MAX_ALLOC_SIZE`. -/
def maxAllocSize : Nat := 16 * 1024

/-- `ROUND_UP_TO_8_BYTES_UNDER`. -/
def roundUpTo8BytesUnder : Nat := 256

/-- `ROUND_UP_TO_64_BYTES_UNDER`. -/
def roundUpTo64BytesUnder : Nat := 1024

/-- `CHUNK_SIZE`. -/
def chunkSize : Nat := 4 * 1024 * 1024

/-- `leading_zeros` of a `w`-bit unsigned integer. -/
def leadingZeros : Nat → Nat → Nat
  | 0, _ => 0
  | w + 1, x => if x < 2 ^ w then leadingZeros w x + 1 else 0

/-- `allocation_class(ROUND_UP_TO_8_BYTES_UNDER)`, which the compiler evaluates. -/
def class8 : Nat := (roundUpTo8BytesUnder + 7) / 8 - 1

/-- `allocation_class(ROUND_UP_TO_64_BYTES_UNDER)`, which the compiler evaluates. -/
def class64 : Nat := (roundUpTo64BytesUnder - roundUpTo8BytesUnder + 63) / 64 + class8

/-- `allocation_class`: `(size + 7) / 8 - 1` panics at size 0. The difference of leading zeros
cannot wrap: the branch has `size - 1 ≥ ROUND_UP_TO_64_BYTES_UNDER`. -/
def allocationClass (size : Nat) : Option Nat :=
  if size ≤ roundUpTo8BytesUnder then subU64 ((size + 7) / 8) 1
  else if size ≤ roundUpTo64BytesUnder then
    some ((size - roundUpTo8BytesUnder + 63) / 64 + class8)
  else some (leadingZeros 64 (roundUpTo64BytesUnder - 1) - leadingZeros 64 (size - 1) + class64)

/-- `allocation_size`. -/
def allocationSize (sizeClass : Nat) : Nat :=
  if sizeClass ≤ class8 then (sizeClass + 1) * 8
  else if sizeClass ≤ class64 then (sizeClass - class8) * 64 + roundUpTo8BytesUnder
  else roundUpTo64BytesUnder <<< (sizeClass - class64)

/-- `NUM_ALLOCATION_CLASSES = allocation_class(MAX_ALLOC_SIZE) + 1`, which the compiler
evaluates. -/
def numAllocationClasses : Nat := (allocationClass maxAllocSize).getD 0 + 1

/-! ## The allocator -/

/-- `Allocator`, without its gauges. -/
structure Allocator where
  freelists : List ArenaPos
  nextAllocPos : ArenaPos
  activeAllocsBytes : Nat
  activeAllocsCount : Nat

/-- `Allocator::new`. -/
def Allocator.new : Allocator where
  freelists := List.replicate numAllocationClasses ArenaPos.invalid
  nextAllocPos := ArenaPos.invalid
  activeAllocsBytes := 0
  activeAllocsCount := 0

/-- `arena.chunks.push(vec![0; CHUNK_SIZE])`. -/
def ArenaMemory.pushChunk (m : ArenaMemory) : ArenaMemory where
  chunks := m.chunks ++ [chunkSize]
  bytes c o := if c = m.chunks.length then 0 else m.bytes c o

/-- `Allocator::new_chunk`: `u32::try_from(chunks.len() - 1).unwrap()` panics past `u32`. -/
def Allocator.newChunk (self : Allocator) (arena : ArenaMemory) :
    Option (Allocator × ArenaMemory) :=
  let arena := arena.pushChunk
  if arena.chunks.length - 1 < 2 ^ 32 then
    some ({ self with nextAllocPos := ⟨arena.chunks.length - 1, 0⟩ }, arena)
  else none

/-- The first part of the bump branch of `Allocator::allocate`: a new chunk when
`next_alloc_pos` is invalid or the region would not end before the end of its chunk. -/
def Allocator.ensureRoom (self : Allocator) (arena : ArenaMemory) (allocationSize : Nat) :
    Option (Allocator × ArenaMemory) :=
  if self.nextAllocPos.isInvalid then self.newChunk arena
  else do
    let len ← arena.chunks[self.nextAllocPos.chunk]?
    if len ≤ self.nextAllocPos.pos + allocationSize then self.newChunk arena
    else pure (self, arena)

/-- The bump branch of `Allocator::allocate`: the region at `next_alloc_pos`, which moves past
it. -/
def Allocator.bump (self : Allocator) (arena : ArenaMemory) (allocationSize : Nat) :
    Option (Allocator × ArenaMemory × ArenaPos) := do
  let st ← self.ensureRoom arena allocationSize
  let ptr := st.1.nextAllocPos
  let next ← ptr.offsetBy allocationSize
  pure ({ st.1 with nextAllocPos := next }, st.2, ptr)

/-- `Allocator::allocate`. -/
def Allocator.allocate (self : Allocator) (arena : ArenaMemory) (size : Nat) :
    Option (Allocator × ArenaMemory × ArenaSliceMut) :=
  -- `assert!(size <= MAX_ALLOC_SIZE)`
  if maxAllocSize < size then none
  else do
    let activeAllocsBytes ← addU64 self.activeAllocsBytes size
    let activeAllocsCount ← addU64 self.activeAllocsCount 1
    let self := { self with activeAllocsBytes, activeAllocsCount }
    let sizeClass ← allocationClass size
    let allocationSize := allocationSize sizeClass
    let head ← self.freelists[sizeClass]?
    if head.isInvalid then
      let r ← self.bump arena allocationSize
      pure (r.1, r.2.1, ⟨r.2.2, size⟩)
    else
      let next ← arena.readPos head
      pure ({ self with freelists := self.freelists.set sizeClass next }, arena, ⟨head, size⟩)

/-- `Allocator::deallocate`. -/
def Allocator.deallocate (self : Allocator) (arena : ArenaMemory) (pos : ArenaPos) (len : Nat) :
    Option (Allocator × ArenaMemory) := do
  let activeAllocsBytes ← subU64 self.activeAllocsBytes len
  let activeAllocsCount ← subU64 self.activeAllocsCount 1
  let sizeClass ← allocationClass len
  let head ← self.freelists[sizeClass]?
  let arena ← arena.writePos pos head
  pure ({ self with
    freelists := self.freelists.set sizeClass pos
    activeAllocsBytes
    activeAllocsCount }, arena)

/-- `Arena`: the memory and its allocator. -/
structure Arena where
  memory : ArenaMemory
  allocator : Allocator

/-- `Arena::new`. -/
def Arena.new : Arena := ⟨⟨[], fun _ _ => 0⟩, Allocator.new⟩

/-- `Arena::alloc`. -/
def Arena.alloc (ar : Arena) (size : Nat) : Option (Arena × ArenaSliceMut) :=
  (ar.allocator.allocate ar.memory size).map fun r => (⟨r.2.1, r.1⟩, r.2.2)

/-- `Arena::dealloc`. -/
def Arena.dealloc (ar : Arena) (pos : ArenaPos) (len : Nat) : Option Arena :=
  (ar.allocator.deallocate ar.memory pos len).map fun r => ⟨r.2, r.1⟩

/-! ## Size classes hold their requests -/

theorem leadingZeros_spec (w x : Nat) (hx : x < 2 ^ w) :
    x < 2 ^ (w - leadingZeros w x) ∧ (0 < x → 2 ^ (w - leadingZeros w x - 1) ≤ x) := by
  induction w with
  | zero => simp_all
  | succ w ih =>
    by_cases hw : x < 2 ^ w
    · simp only [leadingZeros, if_pos hw, Nat.add_sub_add_right]
      exact ih hw
    · simp only [leadingZeros, if_neg hw, Nat.sub_zero, Nat.add_sub_cancel]
      exact ⟨hx, fun _ => Nat.le_of_not_lt hw⟩

/-- The bit length of `size - 1` picks the power-of-two class of a request above
`ROUND_UP_TO_64_BYTES_UNDER`: `2 ^ (k - 1) ≤ size - 1 < 2 ^ k` with `k = 64 - leading_zeros`. -/
theorem bitLength_bounds {x : Nat} (hlo : 1024 ≤ x) (hhi : x < 16384) :
    ∃ k, 11 ≤ k ∧ k ≤ 14 ∧ leadingZeros 64 x = 64 - k ∧ x < 2 ^ k := by
  have hx : x < 2 ^ 64 := by omega
  obtain ⟨hlt, hle⟩ := leadingZeros_spec 64 x hx
  have hle := hle (by omega)
  have hz : leadingZeros 64 x ≤ 64 := by
    by_contra h
    rw [Nat.sub_eq_zero_of_le (by omega)] at hlt
    omega
  refine ⟨64 - leadingZeros 64 x, ?_, ?_, by omega, hlt⟩
  · by_contra h
    have : 2 ^ (64 - leadingZeros 64 x) ≤ 2 ^ 10 := Nat.pow_le_pow_right (by norm_num) (by omega)
    omega
  · by_contra h
    have : 2 ^ 14 ≤ 2 ^ (64 - leadingZeros 64 x - 1) := Nat.pow_le_pow_right (by norm_num) (by omega)
    omega

/-- Every request of `1..=MAX_ALLOC_SIZE` bytes has a class, below `NUM_ALLOCATION_CLASSES`,
whose size holds the request and a free-list link and stays within `MAX_ALLOC_SIZE`. -/
theorem allocationClass_spec {size : Nat} (h1 : 1 ≤ size) (h2 : size ≤ maxAllocSize) :
    ∃ c, allocationClass size = some c ∧ c < numAllocationClasses ∧
      size ≤ allocationSize c ∧ 8 ≤ allocationSize c ∧ allocationSize c ≤ maxAllocSize := by
  have hN : numAllocationClasses = 48 := by decide
  have h8 : class8 = 31 := by decide
  have h64 : class64 = 43 := by decide
  have hmax : maxAllocSize = 16384 := rfl
  have hr8 : roundUpTo8BytesUnder = 256 := rfl
  have hr64 : roundUpTo64BytesUnder = 1024 := rfl
  rw [hN, hmax]
  rw [hmax] at h2
  by_cases hs : size ≤ 256
  · -- rounded up to a multiple of 8
    have hc : (size + 7) / 8 - 1 ≤ class8 := by omega
    refine ⟨(size + 7) / 8 - 1, ?_, by omega, ?_⟩
    · simp only [allocationClass, hr8, if_pos hs, subU64_eq_some, and_true]
      omega
    · rw [allocationSize, if_pos hc]
      omega
  by_cases hm : size ≤ 1024
  · -- rounded up to a multiple of 64
    have hc : ¬ (size - 256 + 63) / 64 + 31 ≤ class8 := by omega
    have hc' : (size - 256 + 63) / 64 + 31 ≤ class64 := by omega
    refine ⟨(size - 256 + 63) / 64 + 31, ?_, by omega, ?_⟩
    · simp [allocationClass, hr8, hr64, hs, hm, h8]
    · rw [allocationSize, if_neg hc, if_pos hc', h8, hr8]
      omega
  · -- rounded up to a power of two
    obtain ⟨k, hk1, hk2, hlz, hlt⟩ := bitLength_bounds (x := size - 1) (by omega) (by omega)
    have h1023 : leadingZeros 64 1023 = 54 := by decide
    have hc : ¬ k + 33 ≤ class8 := by omega
    have hc' : ¬ k + 33 ≤ class64 := by omega
    refine ⟨k + 33, ?_, by omega, ?_⟩
    · have hcls : 54 - (64 - k) + 43 = k + 33 := by omega
      simp only [allocationClass, hr8, hr64, if_neg hs, if_neg hm, Nat.add_one_sub_one, h1023, hlz,
        h64, hcls]
    · have hpow : allocationSize (k + 33) = 2 ^ k := by
        rw [allocationSize, if_neg hc, if_neg hc', hr64, h64, Nat.shiftLeft_eq,
          show k + 33 - 43 = k - 10 by omega, show (1024 : Nat) = 2 ^ 10 by rfl, ← pow_add]
        congr 1
        omega
      rw [hpow]
      interval_cases k <;> omega

/-! ## Regions -/

namespace ArenaSliceMut

/-- The bytes a region covers, as pairs of a chunk and an offset. -/
def cells (s : ArenaSliceMut) : Set (ℕ × ℕ) :=
  {s.pos.chunk} ×ˢ Set.Ico s.pos.pos (s.pos.pos + s.len)

/-- Two regions share no byte: they are in different chunks, or one ends before the other
starts. -/
def Apart (s t : ArenaSliceMut) : Prop :=
  s.pos.chunk ≠ t.pos.chunk ∨ s.pos.pos + s.len ≤ t.pos.pos ∨ t.pos.pos + t.len ≤ s.pos.pos

/-- `s` lies inside `t`. -/
def Within (s t : ArenaSliceMut) : Prop :=
  s.pos.chunk = t.pos.chunk ∧ t.pos.pos ≤ s.pos.pos ∧ s.pos.pos + s.len ≤ t.pos.pos + t.len

/-- `s` ends before the bump position `next`. -/
def Below (s : ArenaSliceMut) (next : ArenaPos) : Prop :=
  s.pos.chunk < next.chunk ∨ s.pos.chunk = next.chunk ∧ s.pos.pos + s.len ≤ next.pos

variable {s t s' t' : ArenaSliceMut} {next : ArenaPos}

theorem Apart.symm (h : Apart s t) : Apart t s := by
  unfold Apart at *
  omega

theorem Apart.mono (h : Apart s t) (hs : Within s' s) (ht : Within t' t) : Apart s' t' := by
  unfold Apart Within at *
  omega

theorem Apart.disjoint (h : Apart s t) : Disjoint s.cells t.cells := by
  rw [cells, cells, Set.disjoint_prod, Set.disjoint_singleton, Set.Ico_disjoint_Ico]
  unfold Apart at h
  omega

theorem Below.apart (h : Below s next) (n : Nat) : Apart s ⟨next, n⟩ := by
  unfold Below Apart at *
  dsimp only
  omega

theorem Below.mono {next' : ArenaPos} (h : Below s next)
    (hle : next.chunk < next'.chunk ∨ next.chunk = next'.chunk ∧ next.pos ≤ next'.pos) :
    Below s next' := by
  unfold Below at *
  omega

end ArenaSliceMut

/-! ## Memory -/

namespace ArenaMemory

variable {m m' : ArenaMemory} {pos q : ArenaPos} {data : List UInt8}

theorem inBounds_iff {len : Nat} :
    m.inBounds pos len = true ↔ ∃ n, m.chunks[pos.chunk]? = some n ∧ pos.pos + len ≤ n := by
  unfold inBounds
  cases m.chunks[pos.chunk]? <;> simp

theorem writeSlice_eq_some (h : m.writeSlice pos data = some m') :
    m.inBounds pos data.length = true ∧ m'.chunks = m.chunks ∧
      ∀ c o, m'.bytes c o = if c = pos.chunk ∧ pos.pos ≤ o ∧ o < pos.pos + data.length then
        data.getD (o - pos.pos) 0 else m.bytes c o := by
  unfold writeSlice at h
  split_ifs at h with hb
  cases h
  exact ⟨hb, rfl, fun _ _ => rfl⟩

theorem writeSlice_isSome (h : m.inBounds pos data.length = true) :
    ∃ m', m.writeSlice pos data = some m' :=
  ⟨_, if_pos h⟩

/-- A write keeps the chunks, so what is in bounds stays in bounds. -/
theorem inBounds_of_writeSlice (h : m.writeSlice pos data = some m') : m'.inBounds = m.inBounds := by
  obtain ⟨-, hchunks, -⟩ := writeSlice_eq_some h
  funext q len
  simp [inBounds, hchunks]

theorem writeSlice_nil (h : m.inBounds pos 0 = true) : m.writeSlice pos [] = some m := by
  rw [writeSlice, if_pos (by simpa using h)]
  cases m
  simp only [List.length_nil, Nat.add_zero, Option.some.injEq, ArenaMemory.mk.injEq, true_and]
  funext c o
  rw [if_neg (by omega)]

/-- A write leaves the link stored at `q` when the two regions are apart. -/
theorem readPos_writeSlice_of_apart (h : m.writeSlice pos data = some m')
    (hq : ArenaSliceMut.Apart ⟨q, 8⟩ ⟨pos, data.length⟩) : m'.readPos q = m.readPos q := by
  obtain ⟨-, hchunks, hbytes⟩ := writeSlice_eq_some h
  have hb : m'.inBounds q 8 = m.inBounds q 8 := by simp [inBounds, hchunks]
  have hslice : m'.rawSlice q 8 = m.rawSlice q 8 := by
    unfold rawSlice
    rw [hb]
    congr 2
    refine List.map_congr_left fun i hi => ?_
    rw [hbytes, if_neg]
    rw [List.mem_range] at hi
    unfold ArenaSliceMut.Apart at hq
    dsimp only at hq
    omega
  rw [readPos, hslice, readPos]

/-- What a write stores, `raw_slice` reads back. -/
theorem rawSlice_writeSlice_self (h : m.writeSlice pos data = some m') :
    m'.rawSlice pos data.length = some data := by
  obtain ⟨hb, hchunks, hbytes⟩ := writeSlice_eq_some h
  have hb' : m'.inBounds pos data.length = true := by simpa [inBounds, hchunks] using hb
  rw [rawSlice, if_pos hb', Option.some_inj]
  apply List.ext_getElem (by simp)
  intro i h₁ h₂
  have hi : i < data.length := by simpa using h₁
  simp only [List.getElem_map, List.getElem_range, hbytes]
  rw [if_pos ⟨trivial, by omega, by omega⟩, Nat.add_sub_cancel_left, List.getD_eq_getElem?_getD,
    List.getElem?_eq_getElem h₂, Option.getD_some]

/-- A part of a region reads as that part of the region's bytes. -/
theorem rawSlice_sub {n off len : Nat} {bytes : List UInt8} (h : m.rawSlice pos n = some bytes)
    (hle : off + len ≤ n) :
    m.rawSlice ⟨pos.chunk, pos.pos + off⟩ len = some ((bytes.drop off).take len) := by
  unfold rawSlice at h ⊢
  split_ifs at h with hb
  obtain ⟨k, hk, hkn⟩ := inBounds_iff.mp hb
  have hb' : m.inBounds ⟨pos.chunk, pos.pos + off⟩ len = true :=
    inBounds_iff.mpr ⟨k, hk, by dsimp only; omega⟩
  rw [if_pos hb', ← Option.some.inj h, Option.some_inj]
  apply List.ext_getElem (by simp; omega)
  intro i h₁ h₂
  simp only [List.getElem_map, List.getElem_range, List.getElem_take, List.getElem_drop,
    Nat.add_assoc]

/-- Two writes to adjacent regions are one write of both. -/
theorem writeSlice_append (a b : List UInt8) :
    (m.writeSlice pos a).bind (fun m₁ => m₁.writeSlice ⟨pos.chunk, pos.pos + a.length⟩ b) =
      m.writeSlice pos (a ++ b) := by
  have hcond : m.inBounds ⟨pos.chunk, pos.pos + a.length⟩ b.length =
      m.inBounds pos (a ++ b).length := by
    simp [inBounds, Nat.add_assoc]
  by_cases hab : m.inBounds pos (a ++ b).length = true
  · have ha : m.inBounds pos a.length = true := by
      obtain ⟨n, hn, hle⟩ := inBounds_iff.mp hab
      exact inBounds_iff.mpr ⟨n, hn, by simp at hle; omega⟩
    -- the first write keeps the chunks, so the second is in bounds as well
    have hb : m.inBounds ⟨pos.chunk, pos.pos + a.length⟩ b.length = true := hcond ▸ hab
    rw [writeSlice, if_pos ha, Option.bind_some, writeSlice]
    split
    next =>
      rw [writeSlice, if_pos hab]
      congr 2
      funext c o
      simp only [List.length_append]
      split_ifs with h₁ h₂ h₃ h₃ h₂
      · rw [List.getD_append_right _ _ _ _ (by omega)]
        congr 1
        omega
      · omega
      · rw [List.getD_append _ _ _ _ (by omega)]
      · omega
      · omega
      · rfl
    next hb' => exact absurd hb hb'
  · rw [writeSlice.eq_def m pos (a ++ b), if_neg hab, Option.bind_eq_none_iff]
    intro m₁ h₁
    obtain ⟨-, hchunks, -⟩ := writeSlice_eq_some h₁
    have hb : m₁.inBounds ⟨pos.chunk, pos.pos + a.length⟩ b.length = m.inBounds pos (a ++ b).length :=
      by rw [← hcond]; simp [inBounds, hchunks]
    rw [writeSlice, if_neg (by rw [hb]; exact hab)]

theorem ofBytes_toBytes {p : ArenaPos} (hc : p.chunk < 2 ^ 32) (hp : p.pos < 2 ^ 32) :
    ArenaPos.ofBytes p.toBytes = p := by
  have h4 : (LittleEndian.toBytes 4 p.chunk).length = 4 := LittleEndian.length_toBytes 4 _
  simp only [ArenaPos.ofBytes, ArenaPos.toBytes, List.take_left' h4, List.drop_left' h4,
    LittleEndian.ofBytes_toBytes]
  rw [Nat.mod_eq_of_lt (by simpa using hc), Nat.mod_eq_of_lt (by simpa using hp)]

/-- What `write_pos_at` stores, `read_pos` reads back. -/
theorem readPos_writePos_self {p : ArenaPos} (h : m.writePos pos p = some m')
    (hc : p.chunk < 2 ^ 32) (hp : p.pos < 2 ^ 32) : m'.readPos pos = some p := by
  obtain ⟨hb, hchunks, hbytes⟩ := writeSlice_eq_some h
  have hlen : p.toBytes.length = 8 := by simp [ArenaPos.toBytes]
  have hb' : m'.inBounds pos 8 = true := by simpa [inBounds, hchunks, hlen] using hb
  simp only [readPos, rawSlice, hb', if_true, Option.map_some, Option.some_inj]
  have hread : (List.range 8).map (fun i => m'.bytes pos.chunk (pos.pos + i)) = p.toBytes := by
    apply List.ext_getElem (by simp [hlen])
    intro i h₁ h₂
    have hi : i < 8 := by simpa using h₁
    simp only [List.getElem_map, List.getElem_range, hbytes, hlen]
    rw [if_pos ⟨trivial, by omega, by omega⟩, Nat.add_sub_cancel_left,
      List.getD_eq_getElem?_getD, List.getElem?_eq_getElem h₂, Option.getD_some]
  rw [hread, ofBytes_toBytes hc hp]

theorem inBounds_pushChunk {len : Nat} (hq : q.chunk < m.chunks.length) :
    m.pushChunk.inBounds q len = m.inBounds q len := by
  simp [inBounds, pushChunk, List.getElem?_append_left hq]

theorem readPos_pushChunk (hq : q.chunk < m.chunks.length) :
    m.pushChunk.readPos q = m.readPos q := by
  simp only [readPos, rawSlice, inBounds_pushChunk hq]
  simp [pushChunk, Nat.ne_of_lt hq]

theorem rawSlice_pushChunk {n : Nat} (hq : q.chunk < m.chunks.length) :
    m.pushChunk.rawSlice q n = m.rawSlice q n := by
  simp only [rawSlice, inBounds_pushChunk hq]
  simp [pushChunk, Nat.ne_of_lt hq]

/-- A write leaves every region apart from it as it was. -/
theorem rawSlice_writeSlice_of_apart {n : Nat} (h : m.writeSlice pos data = some m')
    (hq : ArenaSliceMut.Apart ⟨q, n⟩ ⟨pos, data.length⟩) : m'.rawSlice q n = m.rawSlice q n := by
  obtain ⟨-, hchunks, hbytes⟩ := writeSlice_eq_some h
  have hb : m'.inBounds q n = m.inBounds q n := by simp [inBounds, hchunks]
  unfold rawSlice
  rw [hb]
  congr 2
  refine List.map_congr_left fun i hi => ?_
  rw [hbytes, if_neg]
  rw [List.mem_range] at hi
  unfold ArenaSliceMut.Apart at hq
  dsimp only at hq
  omega

/-- Two adjacent regions read as one. -/
theorem rawSlice_append {a b : Nat} {x y : List UInt8} (hx : m.rawSlice pos a = some x)
    (hy : m.rawSlice ⟨pos.chunk, pos.pos + a⟩ b = some y) :
    m.rawSlice pos (a + b) = some (x ++ y) := by
  unfold rawSlice at hx hy ⊢
  split_ifs at hx hy with ha hb
  have hab : m.inBounds pos (a + b) = true := by
    obtain ⟨k, hk, hle⟩ := inBounds_iff.mp hb
    exact inBounds_iff.mpr ⟨k, hk, by dsimp only at hle; omega⟩
  rw [if_pos hab, ← Option.some.inj hx, ← Option.some.inj hy, List.range_add, List.map_append,
    List.map_map]
  congr 2
  refine List.map_congr_left fun i _ => ?_
  simp [Nat.add_assoc]

/-- A write over the start of a region leaves the rest of what the region holds. -/
theorem rawSlice_writeSlice_prefix {n : Nat} {rest : List UInt8}
    (h : m.writeSlice pos data = some m')
    (hr : m.rawSlice ⟨pos.chunk, pos.pos + data.length⟩ n = some rest) :
    m'.rawSlice pos (data.length + n) = some (data ++ rest) := by
  have hrest : m'.rawSlice ⟨pos.chunk, pos.pos + data.length⟩ n = some rest := by
    rw [rawSlice_writeSlice_of_apart h (by unfold ArenaSliceMut.Apart; dsimp only; omega)]
    exact hr
  exact rawSlice_append (rawSlice_writeSlice_self h) hrest

end ArenaMemory

/-! ## What each allocator call does -/

namespace Allocator

variable {self : Allocator} {arena : ArenaMemory}

theorem newChunk_eq_some {r : Allocator × ArenaMemory} (h : self.newChunk arena = some r) :
    arena.chunks.length < 2 ^ 32 ∧
      r = ({ self with nextAllocPos := ⟨arena.chunks.length, 0⟩ }, arena.pushChunk) := by
  unfold newChunk at h
  simp only [ArenaMemory.pushChunk, List.length_append, List.length_singleton,
    Nat.add_sub_cancel] at h
  split_ifs at h with hlt
  exact ⟨hlt, (Option.some_inj.mp h).symm⟩

/-- Room for the region: the current chunk when the region ends before the chunk does, and
otherwise a new chunk. -/
theorem ensureRoom_eq_some {a : Nat} {st : Allocator × ArenaMemory}
    (h : self.ensureRoom arena a = some st) :
    (st = (self, arena) ∧ self.nextAllocPos.isInvalid = false ∧
        ∃ len, arena.chunks[self.nextAllocPos.chunk]? = some len ∧
          self.nextAllocPos.pos + a < len) ∨
      (arena.chunks.length < 2 ^ 32 ∧
        st = ({ self with nextAllocPos := ⟨arena.chunks.length, 0⟩ }, arena.pushChunk)) := by
  unfold ensureRoom at h
  split_ifs at h with hinv
  · exact .inr (newChunk_eq_some h)
  · obtain ⟨len, hlen, hst⟩ := Option.bind_eq_some_iff.mp h
    split_ifs at hst with hle
    · exact .inr (newChunk_eq_some hst)
    · exact .inl ⟨(Option.some_inj.mp hst).symm, by simpa using hinv, len, hlen, by omega⟩

theorem bump_eq_some {a : Nat} {r : Allocator × ArenaMemory × ArenaPos}
    (h : self.bump arena a = some r) :
    ∃ st, self.ensureRoom arena a = some st ∧ r.2.2.pos + a < 2 ^ 32 ∧
      r = ({ st.1 with nextAllocPos := ⟨r.2.2.chunk, r.2.2.pos + a⟩ }, st.2, st.1.nextAllocPos) := by
  unfold bump at h
  obtain ⟨st, hst, h⟩ := Option.bind_eq_some_iff.mp h
  obtain ⟨next, hnext, h⟩ := Option.bind_eq_some_iff.mp h
  unfold ArenaPos.offsetBy at hnext
  split_ifs at hnext with hlt
  cases hnext
  cases h
  exact ⟨st, hst, hlt, rfl⟩

/-- An allocation counts itself, and takes the head of its class's free list when there is one,
and a bumped region otherwise. -/
theorem allocate_eq_some {size : Nat} {r : Allocator × ArenaMemory × ArenaSliceMut}
    (h : self.allocate arena size = some r) :
    size ≤ maxAllocSize ∧ ∃ c head, allocationClass size = some c ∧ self.freelists[c]? = some head ∧
      ((head.isInvalid = false ∧ ∃ next, arena.readPos head = some next ∧
          r = ({ self with
            freelists := self.freelists.set c next
            activeAllocsBytes := self.activeAllocsBytes + size
            activeAllocsCount := self.activeAllocsCount + 1 }, arena, ⟨head, size⟩)) ∨
        (head.isInvalid = true ∧ ∃ ptr, { self with
            activeAllocsBytes := self.activeAllocsBytes + size
            activeAllocsCount := self.activeAllocsCount + 1 }.bump arena (allocationSize c) =
              some (r.1, r.2.1, ptr) ∧ r.2.2 = ⟨ptr, size⟩)) := by
  unfold allocate at h
  split_ifs at h with hmax
  obtain ⟨bytes, hbytes, h⟩ := Option.bind_eq_some_iff.mp h
  obtain ⟨count, hcount, h⟩ := Option.bind_eq_some_iff.mp h
  obtain ⟨c, hc, h⟩ := Option.bind_eq_some_iff.mp h
  obtain ⟨head, hhead, h⟩ := Option.bind_eq_some_iff.mp h
  obtain ⟨-, rfl⟩ := addU64_eq_some.mp hbytes
  obtain ⟨-, rfl⟩ := addU64_eq_some.mp hcount
  refine ⟨by omega, c, head, hc, hhead, ?_⟩
  split_ifs at h with hinv
  · obtain ⟨b, hb, h⟩ := Option.bind_eq_some_iff.mp h
    cases h
    exact .inr ⟨hinv, b.2.2, hb, rfl⟩
  · obtain ⟨next, hnext, h⟩ := Option.bind_eq_some_iff.mp h
    cases h
    exact .inl ⟨by simpa using hinv, next, hnext, rfl⟩

theorem deallocate_eq_some {pos : ArenaPos} {len : Nat} {r : Allocator × ArenaMemory}
    (h : self.deallocate arena pos len = some r) :
    len ≤ self.activeAllocsBytes ∧ 1 ≤ self.activeAllocsCount ∧
      ∃ c head, allocationClass len = some c ∧ self.freelists[c]? = some head ∧
        arena.writePos pos head = some r.2 ∧
        r.1 = { self with
          freelists := self.freelists.set c pos
          activeAllocsBytes := self.activeAllocsBytes - len
          activeAllocsCount := self.activeAllocsCount - 1 } := by
  unfold deallocate at h
  obtain ⟨bytes, hbytes, h⟩ := Option.bind_eq_some_iff.mp h
  obtain ⟨count, hcount, h⟩ := Option.bind_eq_some_iff.mp h
  obtain ⟨c, hc, h⟩ := Option.bind_eq_some_iff.mp h
  obtain ⟨head, hhead, h⟩ := Option.bind_eq_some_iff.mp h
  obtain ⟨arena', hw, h⟩ := Option.bind_eq_some_iff.mp h
  obtain ⟨hle, rfl⟩ := subU64_eq_some.mp hbytes
  obtain ⟨hle', rfl⟩ := subU64_eq_some.mp hcount
  cases h
  exact ⟨hle, hle', c, head, hc, hhead, hw, rfl⟩

end Allocator

/-- An allocation adds a chunk or none, and changes no byte of the chunks there were. -/
theorem Arena.rawSlice_alloc {ar ar' : Arena} {size : Nat} {s : ArenaSliceMut}
    (h : ar.alloc size = some (ar', s)) {q : ArenaPos} {n : Nat}
    (hq : ar.memory.inBounds q n = true) : ar'.memory.rawSlice q n = ar.memory.rawSlice q n := by
  obtain ⟨r, hr, hr'⟩ := Option.map_eq_some_iff.mp h
  simp only [Prod.mk.injEq] at hr'
  obtain ⟨rfl, rfl⟩ := hr'
  have hchunk : q.chunk < ar.memory.chunks.length := by
    obtain ⟨k, hk, -⟩ := ArenaMemory.inBounds_iff.mp hq
    exact (List.getElem?_eq_some_iff.mp hk).1
  obtain ⟨-, c, head, -, -, hcases⟩ := Allocator.allocate_eq_some hr
  rcases hcases with ⟨-, next, -, hr₁⟩ | ⟨-, ptr, hbump, -⟩
  · rw [hr₁]
  · obtain ⟨st, hst, -, hr₁⟩ := Allocator.bump_eq_some hbump
    have hmem : r.2.1 = st.2 := congrArg (·.2.1) hr₁
    rcases Allocator.ensureRoom_eq_some hst with ⟨hst₁, -⟩ | ⟨-, hst₁⟩
    · rw [hmem, hst₁]
    · rw [hmem, hst₁]
      exact ArenaMemory.rawSlice_pushChunk hchunk

/-- A deallocation writes the free list's link at the start of the region, and nowhere else. -/
theorem Arena.rawSlice_dealloc {ar ar' : Arena} {pos : ArenaPos} {len : Nat}
    (h : ar.dealloc pos len = some ar') {q : ArenaPos} {n : Nat}
    (hq : ArenaSliceMut.Apart ⟨q, n⟩ ⟨pos, 8⟩) : ar'.memory.rawSlice q n = ar.memory.rawSlice q n := by
  obtain ⟨r, hr, rfl⟩ := Option.map_eq_some_iff.mp h
  obtain ⟨-, -, c, head, -, -, hw, -⟩ := Allocator.deallocate_eq_some hr
  exact ArenaMemory.rawSlice_writeSlice_of_apart hw (by simpa using hq)

/-! ## The invariant -/

/-- The size reserved for a live allocation of `len` bytes: its whole class. -/
def reservedSize (len : Nat) : Nat := ((allocationClass len).map allocationSize).getD 0

/-- The region reserved for a live allocation. -/
def ArenaSliceMut.reserved (s : ArenaSliceMut) : ArenaSliceMut := ⟨s.pos, reservedSize s.len⟩

/-- The regions on the free lists, `free c` being the list of class `c`. -/
def freeBlocks (free : Nat → List ArenaPos) : List ArenaSliceMut :=
  (List.range numAllocationClasses).flatMap fun c => (free c).map fun p => ⟨p, allocationSize c⟩

/-- Every region the allocator has handed out, live or free. -/
def blocks (live : List ArenaSliceMut) (free : Nat → List ArenaPos) : List ArenaSliceMut :=
  live.map ArenaSliceMut.reserved ++ freeBlocks free

/-- What holds of an arena whose live allocations are `live` and whose free list of class `c`
walks through `free c`. -/
structure ArenaInv (ar : Arena) (live : List ArenaSliceMut) (free : Nat → List ArenaPos) :
    Prop where
  chains : ∀ c < numAllocationClasses, ∃ head, ar.allocator.freelists[c]? = some head ∧
    LinkedChain.Chain ArenaPos.invalid ar.memory.readPos head (free c)
  live_size : ∀ s ∈ live, 1 ≤ s.len ∧ s.len ≤ maxAllocSize
  chunks : ∀ n ∈ ar.memory.chunks, n = chunkSize
  frontier : ar.allocator.nextAllocPos = ArenaPos.invalid ∧ ar.memory.chunks = [] ∨
    ar.allocator.nextAllocPos.chunk + 1 = ar.memory.chunks.length ∧
      ar.allocator.nextAllocPos.chunk < 2 ^ 32 ∧ ar.allocator.nextAllocPos.pos ≤ chunkSize
  inside : ∀ b ∈ blocks live free, b.pos.chunk < ar.memory.chunks.length ∧
    b.pos.pos + b.len ≤ chunkSize ∧ b.Below ar.allocator.nextAllocPos
  apart : (blocks live free).Pairwise ArenaSliceMut.Apart
  count : ar.allocator.activeAllocsCount = live.length
  bytes : ar.allocator.activeAllocsBytes = (live.map (·.len)).sum

theorem blocks_new : blocks [] (fun _ => []) = [] := by
  simp [blocks, freeBlocks, List.flatMap_eq_nil_iff]

theorem arenaInv_new : ArenaInv Arena.new [] fun _ => [] where
  chains c hc := ⟨ArenaPos.invalid, by simp [Arena.new, Allocator.new, hc], rfl⟩
  live_size := by simp
  chunks := by simp [Arena.new]
  frontier := .inl ⟨rfl, rfl⟩
  inside := by simp [blocks_new]
  apart := by simp [blocks_new]
  count := rfl
  bytes := rfl

variable {free : Nat → List ArenaPos} {c : Nat} {p : ArenaPos}

theorem mem_freeBlocks {b : ArenaSliceMut} :
    b ∈ freeBlocks free ↔ ∃ c < numAllocationClasses, ∃ p ∈ free c, b = ⟨p, allocationSize c⟩ := by
  simp only [freeBlocks, List.mem_flatMap, List.mem_range, List.mem_map]
  constructor
  · rintro ⟨c, hc, p, hp, rfl⟩
    exact ⟨c, hc, p, hp, rfl⟩
  · rintro ⟨c, hc, p, hp, rfl⟩
    exact ⟨c, hc, p, hp, rfl⟩

theorem reserved_eq {s : ArenaSliceMut} (hc : allocationClass s.len = some c) :
    s.reserved = ⟨s.pos, allocationSize c⟩ := by
  simp [ArenaSliceMut.reserved, reservedSize, hc]

/-- Pushing `p` on the free list of class `c` adds its region. -/
theorem perm_freeBlocks_push (hc : c < numAllocationClasses) :
    (freeBlocks (Function.update free c (p :: free c))).Perm
      (⟨p, allocationSize c⟩ :: freeBlocks free) := by
  -- both sides: class `c`'s regions, then those of the other classes, which are the same
  have hsplit : ∀ g : Nat → List ArenaPos, (freeBlocks g).Perm
      ((g c).map (fun q => ⟨q, allocationSize c⟩) ++ ((List.range numAllocationClasses).erase c).flatMap
        fun c' => (g c').map fun q => ⟨q, allocationSize c'⟩) := fun g =>
    (List.perm_cons_erase (List.mem_range.mpr hc)).flatMap_right _
  have hrest : ((List.range numAllocationClasses).erase c).flatMap
      (fun c' => (Function.update free c (p :: free c) c').map
        fun q => (⟨q, allocationSize c'⟩ : ArenaSliceMut)) =
      ((List.range numAllocationClasses).erase c).flatMap
        fun c' => (free c').map fun q => (⟨q, allocationSize c'⟩ : ArenaSliceMut) := by
    refine List.flatMap_congr fun c' hc' => ?_
    rw [Function.update_of_ne]
    rintro rfl
    exact (List.nodup_range.mem_erase_iff.mp hc').1 rfl
  refine (hsplit _).trans ?_
  rw [hrest, Function.update_self, List.map_cons, List.cons_append]
  exact ((hsplit free).symm).cons _

theorem perm_blocks_push {live : List ArenaSliceMut} (hc : c < numAllocationClasses) :
    (blocks live (Function.update free c (p :: free c))).Perm
      (⟨p, allocationSize c⟩ :: blocks live free) :=
  ((perm_freeBlocks_push hc).append_left _).trans List.perm_middle

theorem eight_le_allocationSize (c : Nat) : 8 ≤ allocationSize c := by
  unfold allocationSize
  split_ifs
  · omega
  · simp [roundUpTo8BytesUnder]
  · simp only [roundUpTo64BytesUnder, Nat.shiftLeft_eq]
    have := Nat.one_le_two_pow (n := c - class64)
    omega

theorem len_le_reservedSize {len : Nat} (h1 : 1 ≤ len) (h2 : len ≤ maxAllocSize) :
    len ≤ reservedSize len := by
  obtain ⟨c, hc, -, hle, -⟩ := allocationClass_spec h1 h2
  simp [reservedSize, hc, hle]

namespace ArenaInv

variable {ar : Arena} {live : List ArenaSliceMut}

theorem mem_blocks_of_free (hc : c < numAllocationClasses) (hp : p ∈ free c) :
    ⟨p, allocationSize c⟩ ∈ blocks live free :=
  List.mem_append_right _ (mem_freeBlocks.mpr ⟨c, hc, p, hp, rfl⟩)

theorem mem_blocks_of_live {s : ArenaSliceMut} (hs : s ∈ live) : s.reserved ∈ blocks live free :=
  List.mem_append_left _ (List.mem_map_of_mem hs)

/-- A live region and a free one are apart. -/
theorem apart_live_free (hinv : ArenaInv ar live free) {s : ArenaSliceMut} (hs : s ∈ live)
    (hc : c < numAllocationClasses) (hp : p ∈ free c) :
    s.reserved.Apart ⟨p, allocationSize c⟩ :=
  (List.pairwise_append.mp hinv.apart).2.2 _ (List.mem_map_of_mem hs) _
    (mem_freeBlocks.mpr ⟨c, hc, p, hp, rfl⟩)

theorem chunks_length_le (hinv : ArenaInv ar live free) : ar.memory.chunks.length ≤ 2 ^ 32 := by
  rcases hinv.frontier with ⟨-, h⟩ | ⟨h, hlt, -⟩
  · simp [h]
  · omega

/-- A free region's position fits its two `u32`s and is not the sentinel. -/
theorem free_pos_lt (hinv : ArenaInv ar live free) (hc : c < numAllocationClasses)
    (hp : p ∈ free c) : p.chunk < 2 ^ 32 ∧ p.pos < 2 ^ 32 - 1 := by
  obtain ⟨hchunk, hend, -⟩ := hinv.inside _ (mem_blocks_of_free hc hp)
  have := hinv.chunks_length_le
  have := eight_le_allocationSize c
  simp only [chunkSize] at hend
  dsimp only at hchunk hend
  omega

theorem invalid_notMem (hinv : ArenaInv ar live free) (hc : c < numAllocationClasses) :
    ArenaPos.invalid ∉ free c := fun h => by
  have := (hinv.free_pos_lt hc h).2
  simp [ArenaPos.invalid] at this

/-- The head of a free list fits its two `u32`s: it is the sentinel or a free region. -/
theorem head_lt (hinv : ArenaInv ar live free) (hc : c < numAllocationClasses) {head : ArenaPos}
    (hchain : LinkedChain.Chain ArenaPos.invalid ar.memory.readPos head (free c)) :
    head.chunk < 2 ^ 32 ∧ head.pos < 2 ^ 32 := by
  cases hfc : free c with
  | nil =>
    rw [hfc, LinkedChain.chain_nil] at hchain
    subst hchain
    simp [ArenaPos.invalid]
  | cons q rest =>
    rw [hfc, LinkedChain.chain_cons] at hchain
    obtain ⟨rfl, -⟩ := hchain
    have := hinv.free_pos_lt hc (hfc ▸ List.mem_cons_self)
    omega

/-- A change of memory that keeps the chunks and the link in every free region keeps the
invariant. -/
theorem frame (hinv : ArenaInv ar live free) {m : ArenaMemory}
    (hchunks : m.chunks = ar.memory.chunks)
    (hlinks : ∀ c < numAllocationClasses, ∀ p ∈ free c, m.readPos p = ar.memory.readPos p) :
    ArenaInv ⟨m, ar.allocator⟩ live free where
  chains c hc := by
    obtain ⟨head, hhead, hchain⟩ := hinv.chains c hc
    exact ⟨head, hhead, hchain.congr (hlinks c hc)⟩
  live_size := hinv.live_size
  chunks := hchunks ▸ hinv.chunks
  frontier := hchunks ▸ hinv.frontier
  inside := hchunks ▸ hinv.inside
  apart := hinv.apart
  count := hinv.count
  bytes := hinv.bytes

/-- The link of a free region survives a write that stays inside a live allocation. -/
theorem readPos_write_free (hinv : ArenaInv ar live free) {s : ArenaSliceMut} (hs : s ∈ live)
    {pos : ArenaPos} {data : List UInt8} (hw : ArenaSliceMut.Within ⟨pos, data.length⟩ s)
    {m : ArenaMemory} (h : ar.memory.writeSlice pos data = some m) (hc : c < numAllocationClasses)
    (hp : p ∈ free c) : m.readPos p = ar.memory.readPos p := by
  refine ArenaMemory.readPos_writeSlice_of_apart h ?_
  have hres := len_le_reservedSize (hinv.live_size s hs).1 (hinv.live_size s hs).2
  have h8 := eight_le_allocationSize c
  refine (hinv.apart_live_free hs hc hp).symm.mono ⟨rfl, le_refl _, by dsimp only; omega⟩ ?_
  unfold ArenaSliceMut.Within at hw ⊢
  simp only [ArenaSliceMut.reserved] at hw ⊢
  omega

/-- **A write inside a live allocation** keeps the invariant. -/
theorem write (hinv : ArenaInv ar live free) {s : ArenaSliceMut} (hs : s ∈ live)
    {pos : ArenaPos} {data : List UInt8} (hw : ArenaSliceMut.Within ⟨pos, data.length⟩ s)
    {m : ArenaMemory} (h : ar.memory.writeSlice pos data = some m) :
    ArenaInv ⟨m, ar.allocator⟩ live free :=
  hinv.frame (ArenaMemory.writeSlice_eq_some h).2.1 fun _ hc _ hp =>
    hinv.readPos_write_free hs hw h hc hp

theorem perm_blocks_erase {s : ArenaSliceMut} (hs : s ∈ live) :
    (blocks live free).Perm (s.reserved :: blocks (live.erase s) free) :=
  ((List.perm_cons_erase hs).map _).append_right _

/-- **A deallocation of a live allocation** pushes its region on the free list of its class. -/
theorem dealloc (hinv : ArenaInv ar live free) {s : ArenaSliceMut} (hs : s ∈ live) {ar' : Arena}
    (h : ar.dealloc s.pos s.len = some ar') :
    ∃ c < numAllocationClasses,
      ArenaInv ar' (live.erase s) (Function.update free c (s.pos :: free c)) := by
  obtain ⟨r, hr, rfl⟩ := Option.map_eq_some_iff.mp h
  obtain ⟨hle, hle', c, head, hc, hhead, hw, hr1⟩ := Allocator.deallocate_eq_some hr
  obtain ⟨c', hc', hcN, -, h8, -⟩ :=
    allocationClass_spec (hinv.live_size s hs).1 (hinv.live_size s hs).2
  obtain rfl : c = c' := Option.some_inj.mp (hc.symm.trans hc')
  obtain ⟨head', hhead', hchain⟩ := hinv.chains c hcN
  obtain rfl : head = head' := Option.some_inj.mp (hhead.symm.trans hhead')
  obtain ⟨-, hchunks, -⟩ := ArenaMemory.writeSlice_eq_some hw
  have hres := reserved_eq hc
  -- the link written into the freed region leaves every other free region's link alone
  have hlinks : ∀ c'' < numAllocationClasses, ∀ q ∈ free c'', r.2.readPos q = ar.memory.readPos q := by
    intro c'' hc'' q hq
    refine ArenaMemory.readPos_writeSlice_of_apart hw ?_
    have hap := (hinv.apart_live_free hs hc'' hq).symm
    rw [hres] at hap
    have := eight_le_allocationSize c''
    refine hap.mono ⟨rfl, le_refl _, by dsimp only; omega⟩ ⟨rfl, le_refl _, ?_⟩
    simp [ArenaPos.toBytes, h8]
  have hlink : r.2.readPos s.pos = some head :=
    ArenaMemory.readPos_writePos_self hw (hinv.head_lt hcN hchain).1 (hinv.head_lt hcN hchain).2
  have hperm : (blocks (live.erase s) (Function.update free c (s.pos :: free c))).Perm
      (blocks live free) := by
    refine (perm_blocks_push hcN).trans ?_
    rw [← hres]
    exact (perm_blocks_erase hs).symm
  have hsum := ((List.perm_cons_erase hs).map (·.len)).sum_nat
  rw [List.map_cons, List.sum_cons] at hsum
  refine ⟨c, hcN, ⟨fun c'' hc'' => ?_, fun t ht => hinv.live_size t (List.mem_of_mem_erase ht),
    hchunks ▸ hinv.chunks, ?_, fun b hb => ?_, (hperm.pairwise_iff ArenaSliceMut.Apart.symm).mpr
      hinv.apart, ?_, ?_⟩⟩
  · rw [hr1]
    by_cases hcc : c'' = c
    · subst hcc
      refine ⟨s.pos, List.getElem?_set_self (List.getElem?_eq_some_iff.mp hhead).1, ?_⟩
      rw [Function.update_self]
      exact hchain.push hlink (hlinks c'' hc'')
    · obtain ⟨head'', hhead'', hchain''⟩ := hinv.chains c'' hc''
      refine ⟨head'', by rw [List.getElem?_set_ne (Ne.symm hcc), hhead''], ?_⟩
      rw [Function.update_of_ne hcc]
      exact hchain''.congr (hlinks c'' hc'')
  · rw [hr1]
    exact hchunks ▸ hinv.frontier
  · rw [hr1]
    exact hchunks ▸ hinv.inside b (hperm.subset hb)
  · rw [hr1, hinv.count, List.length_erase_of_mem hs]
  · rw [hr1, hinv.bytes]
    dsimp only
    omega

theorem perm_blocks_append {s : ArenaSliceMut} :
    (blocks (live ++ [s]) free).Perm (s.reserved :: blocks live free) := by
  simp only [blocks, List.map_append, List.map_singleton, List.append_assoc, List.singleton_append]
  exact List.perm_middle

/-- The room the bump branch makes: the current chunk, or a new one after every region. -/
theorem ensureRoom (hinv : ArenaInv ar live free) {self : Allocator} {a : Nat}
    {st : Allocator × ArenaMemory} (h : self.ensureRoom ar.memory a = some st)
    (hnext : self.nextAllocPos = ar.allocator.nextAllocPos) (ha : a ≤ maxAllocSize) :
    st.1 = { self with nextAllocPos := st.1.nextAllocPos } ∧ (∀ n ∈ st.2.chunks, n = chunkSize) ∧
      st.1.nextAllocPos.chunk + 1 = st.2.chunks.length ∧ st.1.nextAllocPos.chunk < 2 ^ 32 ∧
      st.1.nextAllocPos.pos + a ≤ chunkSize ∧
      (∀ b ∈ blocks live free, b.pos.chunk < st.2.chunks.length ∧ b.Below st.1.nextAllocPos) ∧
      ∀ c < numAllocationClasses, ∀ p ∈ free c, st.2.readPos p = ar.memory.readPos p := by
  rcases Allocator.ensureRoom_eq_some h with ⟨rfl, hvalid, len, hlen, hfit⟩ | ⟨hlt, rfl⟩
  · -- the region fits in the current chunk
    have hlen' : len = chunkSize := hinv.chunks len (List.mem_of_getElem? hlen)
    rcases hinv.frontier with ⟨hinv', -⟩ | ⟨hchunk, hlt, -⟩
    · rw [hnext, hinv'] at hvalid
      simp [ArenaPos.isInvalid, ArenaPos.invalid] at hvalid
    refine ⟨rfl, hinv.chunks, hnext ▸ hchunk, hnext ▸ hlt, by dsimp only; omega, fun b hb => ?_,
      fun _ _ _ _ => rfl⟩
    exact ⟨(hinv.inside b hb).1, hnext ▸ (hinv.inside b hb).2.2⟩
  · -- a new chunk, after every chunk holding a region
    have hmax : a ≤ chunkSize := by simp only [maxAllocSize, chunkSize] at ha ⊢; omega
    refine ⟨rfl, fun n hn => ?_, by simp [ArenaMemory.pushChunk], hlt, by simpa using hmax,
      fun b hb => ?_, fun c hc p hp => ?_⟩
    · rcases List.mem_append.mp hn with hn | hn
      · exact hinv.chunks n hn
      · exact List.mem_singleton.mp hn
    · have := (hinv.inside b hb).1
      exact ⟨by simp [ArenaMemory.pushChunk]; omega, .inl this⟩
    · exact ArenaMemory.readPos_pushChunk (hinv.inside _ (mem_blocks_of_free hc hp)).1

variable {size : Nat}

/-- Reusing the head of a free list: its region moves from the free list to the live ones. -/
theorem allocFromFreelist (hinv : ArenaInv ar live free) (h1 : 1 ≤ size)
    (h2 : size ≤ maxAllocSize) (hc : allocationClass size = some c)
    (hcN : c < numAllocationClasses) {head next : ArenaPos}
    (hhead : ar.allocator.freelists[c]? = some head) (hvalid : head.isInvalid = false)
    (hnext : ar.memory.readPos head = some next) :
    ArenaInv ⟨ar.memory, { ar.allocator with
        freelists := ar.allocator.freelists.set c next
        activeAllocsBytes := ar.allocator.activeAllocsBytes + size
        activeAllocsCount := ar.allocator.activeAllocsCount + 1 }⟩
      (live ++ [⟨head, size⟩]) (Function.update free c (free c).tail) := by
  obtain ⟨head', hhead', hchain⟩ := hinv.chains c hcN
  obtain rfl : head = head' := Option.some_inj.mp (hhead.symm.trans hhead')
  -- a valid head means a nonempty list, whose first link is the new head
  obtain ⟨rest, hfc⟩ : ∃ rest, free c = head :: rest := by
    cases hfc : free c with
    | nil =>
      rw [hfc, LinkedChain.chain_nil] at hchain
      simp [hchain, ArenaPos.isInvalid, ArenaPos.invalid] at hvalid
    | cons q rest =>
      rw [hfc, LinkedChain.chain_cons] at hchain
      exact ⟨rest, by rw [hchain.1]⟩
  rw [hfc, LinkedChain.chain_cons] at hchain
  obtain ⟨-, n, hn, hrest⟩ := hchain
  obtain rfl : next = n := Option.some_inj.mp (hnext.symm.trans hn)
  have hfree : Function.update (Function.update free c (free c).tail) c
      (head :: Function.update free c (free c).tail c) = free := by
    rw [Function.update_self, Function.update_idem, hfc, List.tail_cons, ← hfc,
      Function.update_eq_self]
  have hperm : (blocks (live ++ [⟨head, size⟩]) (Function.update free c (free c).tail)).Perm
      (blocks live free) := by
    refine perm_blocks_append.trans ?_
    rw [reserved_eq hc]
    have := @perm_blocks_push (Function.update free c (free c).tail) c head live hcN
    rw [hfree] at this
    exact this.symm
  refine ⟨fun c' hc' => ?_, fun t ht => ?_, hinv.chunks, hinv.frontier,
    fun b hb => hinv.inside b (hperm.subset hb),
    (hperm.pairwise_iff ArenaSliceMut.Apart.symm).mpr hinv.apart, ?_, ?_⟩
  · by_cases hcc : c' = c
    · subst hcc
      refine ⟨next, List.getElem?_set_self (List.getElem?_eq_some_iff.mp hhead).1, ?_⟩
      rw [Function.update_self, hfc, List.tail_cons]
      exact hrest
    · obtain ⟨head'', hhead'', hchain''⟩ := hinv.chains c' hc'
      refine ⟨head'', by rw [List.getElem?_set_ne (Ne.symm hcc), hhead''], ?_⟩
      rw [Function.update_of_ne hcc]
      exact hchain''
  · rcases List.mem_append.mp ht with ht | ht
    · exact hinv.live_size t ht
    · rw [List.mem_singleton.mp ht]
      exact ⟨h1, h2⟩
  · simp [hinv.count]
  · simp [hinv.bytes]

/-- Bumping: the region is new, at the bump position, after every other region. -/
theorem allocBump (hinv : ArenaInv ar live free) (h1 : 1 ≤ size) (h2 : size ≤ maxAllocSize)
    (hc : allocationClass size = some c) (hmaxc : allocationSize c ≤ maxAllocSize)
    {alloc' : Allocator} {mem' : ArenaMemory} {ptr : ArenaPos}
    (h : { ar.allocator with
        activeAllocsBytes := ar.allocator.activeAllocsBytes + size
        activeAllocsCount := ar.allocator.activeAllocsCount + 1 }.bump ar.memory (allocationSize c) =
      some (alloc', mem', ptr)) :
    ArenaInv ⟨mem', alloc'⟩ (live ++ [⟨ptr, size⟩]) free := by
  obtain ⟨st, hst, -, hr⟩ := Allocator.bump_eq_some h
  obtain ⟨hst1, hchunks, hfront, hlt, hfit, hbelow, hlinks⟩ := hinv.ensureRoom hst rfl hmaxc
  simp only [Prod.mk.injEq] at hr
  obtain ⟨hr1, hr2, rfl⟩ := hr
  have hnew : (⟨st.1.nextAllocPos, size⟩ : ArenaSliceMut).reserved =
      ⟨st.1.nextAllocPos, allocationSize c⟩ :=
    reserved_eq hc
  have hperm := @perm_blocks_append free live ⟨st.1.nextAllocPos, size⟩
  rw [hnew] at hperm
  refine ⟨fun c' hc' => ?_, fun t ht => ?_, hr2 ▸ hchunks, ?_, fun b hb => ?_, ?_, ?_, ?_⟩
  · obtain ⟨head, hhead, hchain⟩ := hinv.chains c' hc'
    refine ⟨head, by rw [hr1, hst1]; exact hhead, ?_⟩
    rw [hr2]
    exact hchain.congr (hlinks c' hc')
  · rcases List.mem_append.mp ht with ht | ht
    · exact hinv.live_size t ht
    · rw [List.mem_singleton.mp ht]
      exact ⟨h1, h2⟩
  · rw [hr1, hr2]
    exact .inr ⟨hfront, hlt, hfit⟩
  · rw [hr1, hr2]
    rcases List.mem_cons.mp (hperm.subset hb) with rfl | hb
    · exact ⟨by dsimp only; omega, hfit, .inr ⟨rfl, le_refl _⟩⟩
    · obtain ⟨hchunk, hend, -⟩ := hinv.inside b hb
      obtain ⟨hchunk', hb'⟩ := hbelow b hb
      exact ⟨hchunk', hend, hb'.mono (.inr ⟨rfl, by dsimp only; omega⟩)⟩
  · refine (hperm.pairwise_iff ArenaSliceMut.Apart.symm).mpr (List.pairwise_cons.mpr ⟨?_, hinv.apart⟩)
    exact fun b hb => ((hbelow b hb).2.apart _).symm
  · rw [hr1, hst1]
    simp [hinv.count]
  · rw [hr1, hst1]
    simp [hinv.bytes]

/-- **An allocation** of `1..=MAX_ALLOC_SIZE` bytes returns a slice of the requested size and
keeps the invariant, with the slice live. -/
theorem alloc (hinv : ArenaInv ar live free) (h1 : 1 ≤ size) (h2 : size ≤ maxAllocSize)
    {ar' : Arena} {s : ArenaSliceMut} (h : ar.alloc size = some (ar', s)) :
    s.len = size ∧ ∃ free', ArenaInv ar' (live ++ [s]) free' := by
  obtain ⟨r, hr, hr'⟩ := Option.map_eq_some_iff.mp h
  simp only [Prod.mk.injEq] at hr'
  obtain ⟨rfl, rfl⟩ := hr'
  obtain ⟨-, c, head, hc, hhead, hcases⟩ := Allocator.allocate_eq_some hr
  obtain ⟨c', hc', hcN, -, -, hmaxc⟩ := allocationClass_spec h1 h2
  obtain rfl : c = c' := Option.some_inj.mp (hc.symm.trans hc')
  rcases hcases with ⟨hvalid, next, hnext, rfl⟩ | ⟨-, ptr, hbump, hs⟩
  · exact ⟨rfl, _, hinv.allocFromFreelist h1 h2 hc hcN hhead hvalid hnext⟩
  · rw [hs]
    exact ⟨rfl, free, hinv.allocBump h1 h2 hc hmaxc hbump⟩

/-- Live allocations are apart. -/
theorem live_apart (hinv : ArenaInv ar live free) : live.Pairwise ArenaSliceMut.Apart := by
  have hres := List.pairwise_map.mp (List.pairwise_append.mp hinv.apart).1
  refine hres.imp_of_mem fun {s t} hs ht hst => hst.mono ?_ ?_
  · exact ⟨rfl, le_refl _, by
      simpa [ArenaSliceMut.reserved] using len_le_reservedSize (hinv.live_size s hs).1
        (hinv.live_size s hs).2⟩
  · exact ⟨rfl, le_refl _, by
      simpa [ArenaSliceMut.reserved] using len_le_reservedSize (hinv.live_size t ht).1
        (hinv.live_size t ht).2⟩

/-- A live allocation lies inside one chunk: `raw_slice` of it is in bounds. -/
theorem inBounds_live (hinv : ArenaInv ar live free) {s : ArenaSliceMut} (hs : s ∈ live) :
    ar.memory.inBounds s.pos s.len = true := by
  obtain ⟨hchunk, hend, -⟩ := hinv.inside _ (mem_blocks_of_live hs)
  simp only [ArenaSliceMut.reserved] at hchunk hend
  have hres := len_le_reservedSize (hinv.live_size s hs).1 (hinv.live_size s hs).2
  rw [ArenaMemory.inBounds_iff]
  refine ⟨chunkSize, ?_, by omega⟩
  rw [List.getElem?_eq_getElem hchunk, hinv.chunks _ (List.getElem_mem hchunk)]

/-- Deallocating a live allocation never panics. -/
theorem dealloc_isSome (hinv : ArenaInv ar live free) {s : ArenaSliceMut} (hs : s ∈ live) :
    ∃ ar', ar.dealloc s.pos s.len = some ar' := by
  obtain ⟨c, hc, hcN, -, h8, -⟩ :=
    allocationClass_spec (hinv.live_size s hs).1 (hinv.live_size s hs).2
  obtain ⟨head, hhead, -⟩ := hinv.chains c hcN
  have hbytes : s.len ≤ ar.allocator.activeAllocsBytes := by
    have hsum := ((List.perm_cons_erase hs).map (·.len)).sum_nat
    rw [List.map_cons, List.sum_cons] at hsum
    rw [hinv.bytes]
    omega
  have hcount : 1 ≤ ar.allocator.activeAllocsCount := by
    rw [hinv.count]
    exact List.length_pos_of_mem hs
  -- the link goes into the first 8 bytes of the region
  have hb : ar.memory.inBounds s.pos head.toBytes.length = true := by
    obtain ⟨n, hn, hend⟩ := ArenaMemory.inBounds_iff.mp (hinv.inBounds_live hs)
    have hres := len_le_reservedSize (hinv.live_size s hs).1 (hinv.live_size s hs).2
    obtain ⟨-, hend', -⟩ := hinv.inside _ (mem_blocks_of_live hs)
    rw [reserved_eq hc] at hend'
    refine ArenaMemory.inBounds_iff.mpr ⟨n, hn, ?_⟩
    have := hinv.chunks n (List.mem_of_getElem? hn)
    simp only [ArenaPos.toBytes, List.length_append, LittleEndian.length_toBytes]
    dsimp only at hend'
    omega
  obtain ⟨m, hm⟩ := ArenaMemory.writeSlice_isSome hb
  refine ⟨⟨m, { ar.allocator with
      freelists := ar.allocator.freelists.set c s.pos
      activeAllocsBytes := ar.allocator.activeAllocsBytes - s.len
      activeAllocsCount := ar.allocator.activeAllocsCount - 1 }⟩, ?_⟩
  simp [Arena.dealloc, Allocator.deallocate, subU64, hbytes, hcount, hc, hhead, ArenaMemory.writePos,
    hm]

theorem ensureRoom_isSome (hinv : ArenaInv ar live free) (self : Allocator)
    (hnext : self.nextAllocPos = ar.allocator.nextAllocPos)
    (hchunks : ar.memory.chunks.length < 2 ^ 32) (a : Nat) :
    ∃ st, self.ensureRoom ar.memory a = some st := by
  have hnew : ∃ st, self.newChunk ar.memory = some st := by
    unfold Allocator.newChunk
    rw [if_pos (by simpa [ArenaMemory.pushChunk] using hchunks)]
    exact ⟨_, rfl⟩
  unfold Allocator.ensureRoom
  split_ifs with hinvalid
  · exact hnew
  · rcases hinv.frontier with ⟨hinv', -⟩ | ⟨hchunk, -⟩
    · rw [hnext, hinv'] at hinvalid
      simp [ArenaPos.isInvalid, ArenaPos.invalid] at hinvalid
    have hlt : self.nextAllocPos.chunk < ar.memory.chunks.length := by
      rw [hnext]
      omega
    rw [List.getElem?_eq_getElem hlt]
    show ∃ st, (if ar.memory.chunks[self.nextAllocPos.chunk] ≤ self.nextAllocPos.pos + a then
      self.newChunk ar.memory else pure (self, ar.memory)) = some st
    split_ifs
    · exact hnew
    · exact ⟨_, rfl⟩

/-- An allocation of `1..=MAX_ALLOC_SIZE` bytes panics only when a counter would overflow or when
it needs a chunk past the `u32` range. -/
theorem alloc_isSome (hinv : ArenaInv ar live free) (h1 : 1 ≤ size) (h2 : size ≤ maxAllocSize)
    (hbytes : ar.allocator.activeAllocsBytes + size < 2 ^ 64)
    (hcount : ar.allocator.activeAllocsCount + 1 < 2 ^ 64)
    (hchunks : ar.memory.chunks.length < 2 ^ 32) :
    ∃ ar' s, ar.alloc size = some (ar', s) := by
  obtain ⟨c, hc, hcN, -, -, hmaxc⟩ := allocationClass_spec h1 h2
  obtain ⟨head, hhead, hchain⟩ := hinv.chains c hcN
  have hmax : ¬ maxAllocSize < size := by omega
  by_cases hvalid : head.isInvalid
  · -- the bump: room in the current chunk or a new one, and the region fits below `u32`
    obtain ⟨st, hst⟩ := hinv.ensureRoom_isSome { ar.allocator with
        activeAllocsBytes := ar.allocator.activeAllocsBytes + size
        activeAllocsCount := ar.allocator.activeAllocsCount + 1 } rfl hchunks (allocationSize c)
    obtain ⟨-, -, -, -, hfit, -⟩ := hinv.ensureRoom hst rfl hmaxc
    have hoff : st.1.nextAllocPos.pos + allocationSize c < 4294967296 := by
      simp only [chunkSize] at hfit
      omega
    simp [Arena.alloc, Allocator.allocate, hmax, addU64_of_lt hbytes, addU64_of_lt hcount, hc,
      hhead, hvalid, Allocator.bump, hst, ArenaPos.offsetBy, hoff]
  · -- the head of the free list, whose link is the next one
    obtain ⟨rest, hfc⟩ : ∃ rest, free c = head :: rest := by
      cases hfc : free c with
      | nil =>
        rw [hfc, LinkedChain.chain_nil] at hchain
        simp [hchain, ArenaPos.isInvalid, ArenaPos.invalid] at hvalid
      | cons q rest =>
        rw [hfc, LinkedChain.chain_cons] at hchain
        exact ⟨rest, by rw [hchain.1]⟩
    rw [hfc, LinkedChain.chain_cons] at hchain
    obtain ⟨-, n, hn, -⟩ := hchain
    simp [Arena.alloc, Allocator.allocate, hmax, addU64_of_lt hbytes, addU64_of_lt hcount, hc,
      hhead, hvalid, hn]

end ArenaInv

/-! ## Runs -/

/-- What the arena's users do: allocate, free an allocation, or write inside one. -/
inductive ArenaOp
  | alloc (size : Nat)
  | dealloc (pos : ArenaPos) (len : Nat)
  | write (pos : ArenaPos) (data : List UInt8)

/-- The operations callers make, given the live allocations: requests of `1..=MAX_ALLOC_SIZE`
bytes, frees of a live allocation with its own position and length, and writes inside a live
allocation. -/
def ArenaOp.Allowed (live : List ArenaSliceMut) : ArenaOp → Prop
  | .alloc size => 1 ≤ size ∧ size ≤ maxAllocSize
  | .dealloc pos len => ⟨pos, len⟩ ∈ live
  | .write pos data => ∃ s ∈ live, ArenaSliceMut.Within ⟨pos, data.length⟩ s

/-- One operation, with the live allocations it leaves. -/
def Arena.step (ar : Arena) (live : List ArenaSliceMut) :
    ArenaOp → Option (Arena × List ArenaSliceMut)
  | .alloc size => (ar.alloc size).map fun r => (r.1, live ++ [r.2])
  | .dealloc pos len => (ar.dealloc pos len).map fun ar' => (ar', live.erase ⟨pos, len⟩)
  | .write pos data => (ar.memory.writeSlice pos data).map fun m => (⟨m, ar.allocator⟩, live)

/-- The arenas, with their live allocations, that allowed operations reach from `Arena::new`. -/
inductive Arena.Reachable : Arena → List ArenaSliceMut → Prop
  | new : Arena.Reachable Arena.new []
  | step {ar ar' : Arena} {live live' : List ArenaSliceMut} (op : ArenaOp) :
      Arena.Reachable ar live → op.Allowed live → ar.step live op = some (ar', live') →
      Arena.Reachable ar' live'

theorem ArenaInv.step {ar ar' : Arena} {live live' : List ArenaSliceMut}
    {free : Nat → List ArenaPos} (hinv : ArenaInv ar live free) {op : ArenaOp}
    (hop : op.Allowed live) (h : ar.step live op = some (ar', live')) :
    ∃ free', ArenaInv ar' live' free' := by
  cases op with
  | alloc size =>
    obtain ⟨⟨ar'', s⟩, hr, hr'⟩ := Option.map_eq_some_iff.mp h
    cases hr'
    exact (hinv.alloc hop.1 hop.2 hr).2
  | dealloc pos len =>
    obtain ⟨ar'', hr, hr'⟩ := Option.map_eq_some_iff.mp h
    cases hr'
    obtain ⟨c, -, hinv'⟩ := hinv.dealloc hop hr
    exact ⟨_, hinv'⟩
  | write pos data =>
    obtain ⟨m, hm, hr'⟩ := Option.map_eq_some_iff.mp h
    cases hr'
    obtain ⟨s, hs, hw⟩ := hop
    exact ⟨free, hinv.write hs hw hm⟩

/-- **Every reachable arena keeps the invariant**: the run lemma of `ArenaInv.step`. -/
theorem Arena.Reachable.arenaInv {ar : Arena} {live : List ArenaSliceMut}
    (h : Arena.Reachable ar live) :
    ∃ free, ArenaInv ar live free := by
  induction h with
  | new => exact ⟨_, arenaInv_new⟩
  | step op _ hop hstep ih =>
    obtain ⟨free, hinv⟩ := ih
    exact hinv.step hop hstep

theorem arena_allocations_disjoint {ar : Arena} {live : List ArenaSliceMut}
    (h : Arena.Reachable ar live) :
    ar.allocator.activeAllocsCount = live.length ∧
      (∀ s ∈ live, ar.memory.inBounds s.pos s.len = true) ∧
      live.Pairwise (fun s t => Disjoint s.cells t.cells) ∧
      ∀ size, 1 ≤ size → size ≤ maxAllocSize → ∀ ar' s, ar.alloc size = some (ar', s) →
        size ≤ s.len ∧ ar'.memory.inBounds s.pos s.len = true ∧
        ∀ t ∈ live, Disjoint s.cells t.cells := by
  obtain ⟨free, hinv⟩ := h.arenaInv
  refine ⟨hinv.count, fun s hs => hinv.inBounds_live hs,
    hinv.live_apart.imp ArenaSliceMut.Apart.disjoint, ?_⟩
  intro size h1 h2 ar' s halloc
  obtain ⟨hlen, free', hinv'⟩ := hinv.alloc h1 h2 halloc
  have happ := List.pairwise_append.mp hinv'.live_apart
  refine ⟨hlen.ge, hinv'.inBounds_live (List.mem_append_right _ (List.mem_singleton_self s)),
    fun t ht => ?_⟩
  exact (happ.2.2 t ht s (List.mem_singleton_self s)).symm.disjoint

theorem arena_allocations_disjoint_reuse :
    ∃ ar, Arena.Reachable ar [⟨⟨0, 16⟩, 20⟩, ⟨⟨0, 0⟩, 12⟩] ∧
      (ar.allocator.activeAllocsCount = [(⟨⟨0, 16⟩, 20⟩ : ArenaSliceMut), ⟨⟨0, 0⟩, 12⟩].length ∧
      (∀ s ∈ [(⟨⟨0, 16⟩, 20⟩ : ArenaSliceMut), ⟨⟨0, 0⟩, 12⟩],
        ar.memory.inBounds s.pos s.len = true) ∧
      [(⟨⟨0, 16⟩, 20⟩ : ArenaSliceMut), ⟨⟨0, 0⟩, 12⟩].Pairwise
        (fun s t => Disjoint s.cells t.cells) ∧
      ∀ size, 1 ≤ size → size ≤ maxAllocSize → ∀ ar' s, ar.alloc size = some (ar', s) →
        size ≤ s.len ∧ ar'.memory.inBounds s.pos s.len = true ∧
        ∀ t ∈ [(⟨⟨0, 16⟩, 20⟩ : ArenaSliceMut), ⟨⟨0, 0⟩, 12⟩], Disjoint s.cells t.cells) := by
  -- allocate 10 and 20 bytes, free the first, and allocate 12 bytes from its free list
  have h : ∃ ar, Arena.Reachable ar [⟨⟨0, 16⟩, 20⟩, ⟨⟨0, 0⟩, 12⟩] :=
    ⟨_, .step (.alloc 12) (.step (.dealloc ⟨0, 0⟩ 10) (.step (.alloc 20)
      (.step (.alloc 10) .new ⟨by decide, by decide⟩ rfl) ⟨by decide, by decide⟩ rfl)
      (show (⟨⟨0, 0⟩, 10⟩ : ArenaSliceMut) ∈ [⟨⟨0, 0⟩, 10⟩, ⟨⟨0, 16⟩, 20⟩] from
        List.mem_cons_self) rfl) ⟨by decide, by decide⟩ rfl⟩
  obtain ⟨ar, hr⟩ := h
  exact ⟨ar, hr, arena_allocations_disjoint hr⟩

end Unc
