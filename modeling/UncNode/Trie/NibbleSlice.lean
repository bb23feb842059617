import Mathlib
import UncNode.Trie.Node

/-!
# Nibble slices and the hex-prefix encoding — `core/store/src/trie/nibble_slice.rs`

A `NibbleSlice` reads a byte string as nibbles, high nibble first, from a nibble offset. The
trie stores the key part of a leaf or an extension in hex-prefix form: one header byte with the
leaf flag `0x20`, the odd-length flag `0x10` and, for an odd length, the first nibble, then the
other nibbles two to a byte. `from_encoded` reads it back as a slice of the encoded bytes that
starts at nibble one (odd) or two (even).

The four encoders of the source share one loop, `encodeWith`, and differ in how they read a
nibble. Where the source indexes past the end of an array it panics; the model returns `none`
there, so every law below also says that the encoder does not panic.

* `NibbleSlice.nibbles`, `NibbleSlice.at_eq`, `NibbleSlice.iter_eq`: what a slice yields;
* `hexPrefix`: the encoding as a function of the nibble list, and `encodeWith_eq`: the shared
  loop computes it from any reader that reads that list;
* `fromEncoded_hexPrefix`: decoding a hex-prefix encoding gives back its nibbles and flag;
* `mergeEncoded_eq_none`: merging from an empty slice panics when the total length is odd;
* **`hex_prefix_encoding_laws`**: `from_encoded` inverts `encode_nibbles`, and `encoded`,
  `encoded_leftmost` and `merge_encoded` are `encode_nibbles` of the nibbles they read.
-/

set_option autoImplicit false

namespace Unc

/-- `NibbleSlice { data, offset }`. Its length `data.len() * 2 - offset` is a `usize`
subtraction, so a slice reaches at most to the end of its data. -/
structure NibbleSlice where
  data : List UInt8
  offset : Nat
  offset_le : offset ≤ data.length * 2

namespace NibbleSlice

/-- `NibbleSlice::new`. -/
def new (data : List UInt8) : NibbleSlice := ⟨data, 0, Nat.zero_le _⟩

/-- `NibbleSlice::len`. -/
def len (s : NibbleSlice) : Nat := s.data.length * 2 - s.offset

/-- `NibbleSlice::at`: the low nibble of the byte at an odd position, the high one at an even
position; `none` where `self.data[..]` panics. -/
def «at» (s : NibbleSlice) (i : Nat) : Option UInt8 :=
  s.data[(s.offset + i) / 2]?.map fun b => if (s.offset + i) &&& 1 = 1 then b &&& 15 else b >>> 4

/-- `NibbleSlice::iter`, collected: `at(0)`, …, `at(len - 1)`. -/
def iter (s : NibbleSlice) : Option (List UInt8) := (List.range s.len).mapM s.at

theorem fromEncoded_offset_le (d0 : UInt8) (rest : List UInt8) :
    (if d0 &&& 16 = 16 then 1 else 2) ≤ (d0 :: rest).length * 2 := by
  split
  · simp only [List.length_cons]
    omega
  · simp

/-- `NibbleSlice::from_encoded`: the slice starts at the low nibble of the header when its odd
flag `16` is set and after the header otherwise; the leaf flag is `32`. The source panics on
empty data at `data[0]`. -/
def fromEncoded : List UInt8 → Option (NibbleSlice × Bool)
  | [] => none
  | d0 :: rest =>
    some (⟨d0 :: rest, if d0 &&& 16 = 16 then 1 else 2, fromEncoded_offset_le d0 rest⟩,
      d0 &&& 32 = 32)

/-! ## The shared encoding loop -/

/-- The loop `while i < l { r.push(pair(i)); i += 2 }` of the encoders: started at `i` it runs
`n` rounds, and from `i = l % 2` the source runs it for `l / 2` rounds. -/
def pushPairs (pair : Nat → Option UInt8) (i : Nat) : Nat → Option (List UInt8)
  | 0 => some []
  | n + 1 => do
    let b ← pair i
    let r ← pushPairs pair (i + 2) n
    pure (b :: r)

/-- The body the four encoders share, for `l` nibbles: the header `0x10 + first` for odd `l`
and `0` for even `l`, plus `0x20` for a leaf, then the nibbles from `l % 2` on, paired. -/
def encodeWith (l : Nat) (isLeaf : Bool) (first : Option UInt8) (pair : Nat → Option UInt8) :
    Option (List UInt8) := do
  let header ← if l % 2 = 1 then first.map (0x10 + ·) else some 0
  let body ← pushPairs pair (l % 2) (l / 2)
  pure ((header + if isLeaf then 0x20 else 0) :: body)

/-- The byte of nibbles `i` and `i + 1`: `read(i) * 16 + read(i + 1)`. -/
def pairOf (read : Nat → Option UInt8) (i : Nat) : Option UInt8 := do
  let hi ← read i
  let lo ← read (i + 1)
  pure (hi * 16 + lo)

/-- `NibbleSlice::encode_nibbles`, reading `nibbles[i]`. -/
def encodeNibbles (nibbles : List UInt8) (isLeaf : Bool) : Option (List UInt8) :=
  encodeWith nibbles.length isLeaf nibbles[0]? (pairOf fun i => nibbles[i]?)

/-- `NibbleSlice::encoded`, reading `self.at(i)`. -/
def encoded (s : NibbleSlice) (isLeaf : Bool) : Option (List UInt8) :=
  encodeWith s.len isLeaf (s.at 0) (pairOf s.at)

/-- `NibbleSlice::encoded_leftmost`: `encoded` for the first `min(len, n)` nibbles. -/
def encodedLeftmost (s : NibbleSlice) (n : Nat) (isLeaf : Bool) : Option (List UInt8) :=
  encodeWith (min s.len n) isLeaf (s.at 0) (pairOf s.at)

/-- Nibble `i` of `self` followed by `other`, as `merge_encoded` reads it:
`if i < self.len() { self.at(i) } else { other.at(i - self.len()) }`. -/
def mergedAt (a b : NibbleSlice) (i : Nat) : Option UInt8 :=
  if i < a.len then a.at i else b.at (i - a.len)

/-- `NibbleSlice::merge_encoded`: the nibbles of `self` followed by those of `other`. The header
reads `self.at(0)` even when `self` is empty, and the second nibble of a pair is `0` past the
end. -/
def mergeEncoded (a b : NibbleSlice) (isLeaf : Bool) : Option (List UInt8) :=
  let l := a.len + b.len
  encodeWith l isLeaf (a.at 0) fun i => do
    let bit1 ← mergedAt a b i
    let bit2 ← if i + 1 < l then mergedAt a b (i + 1) else some 0
    pure (bit1 * 16 + bit2)

end NibbleSlice

/-! ## The nibbles of a slice -/

/-- The nibbles of a byte string, high nibble first. -/
def byteNibbles (data : List UInt8) : List UInt8 :=
  data.flatMap fun b : UInt8 => [b >>> 4, b &&& 15]

@[simp] theorem byteNibbles_nil : byteNibbles [] = [] := rfl

@[simp] theorem byteNibbles_cons (b : UInt8) (data : List UInt8) :
    byteNibbles (b :: data) = b >>> 4 :: (b &&& 15) :: byteNibbles data := rfl

@[simp] theorem length_byteNibbles (data : List UInt8) :
    (byteNibbles data).length = data.length * 2 := by
  induction data with
  | nil => rfl
  | cons b data ih => simp [ih]; omega

/-- Position `j` of the nibbles is in byte `j / 2`, its low nibble when `j` is odd. -/
theorem getElem?_byteNibbles (data : List UInt8) (j : Nat) :
    (byteNibbles data)[j]? =
      data[j / 2]?.map fun b : UInt8 => if j % 2 = 1 then b &&& 15 else b >>> 4 := by
  induction data generalizing j with
  | nil => simp
  | cons b data ih =>
    match j with
    | 0 => simp
    | 1 => simp
    | j + 2 =>
      have hdiv : (j + 2) / 2 = j / 2 + 1 := by omega
      have hmod : (j + 2) % 2 = j % 2 := by omega
      simp [hdiv, hmod, ih]

theorem shiftRight_four_toNat (b : UInt8) : (b >>> 4).toNat = b.toNat / 16 := by
  simp [UInt8.toNat_shiftRight, Nat.shiftRight_eq_div_pow]

theorem and_fifteen_toNat (b : UInt8) : (b &&& 15).toNat = b.toNat % 16 := by
  have h15 : (15 : UInt8).toNat = 2 ^ 4 - 1 := rfl
  rw [UInt8.toNat_and, h15, Nat.and_two_pow_sub_one_eq_mod]

theorem lt_sixteen_of_mem_byteNibbles {data : List UInt8} {x : UInt8}
    (hx : x ∈ byteNibbles data) : x < 16 := by
  simp only [byteNibbles, List.mem_flatMap, List.mem_cons, List.not_mem_nil, or_false] at hx
  obtain ⟨b, -, rfl | rfl⟩ := hx
  · rw [UInt8.lt_iff_toNat_lt, shiftRight_four_toNat]
    have := b.toNat_lt
    simp; omega
  · rw [UInt8.lt_iff_toNat_lt, and_fifteen_toNat]
    simp; omega

namespace NibbleSlice

/-- The nibbles a slice stands for: those of its data from its offset. -/
def nibbles (s : NibbleSlice) : List UInt8 := (byteNibbles s.data).drop s.offset

@[simp] theorem length_nibbles (s : NibbleSlice) : s.nibbles.length = s.len := by
  simp [nibbles, len]

theorem lt_sixteen_of_mem_nibbles {s : NibbleSlice} {x : UInt8} (hx : x ∈ s.nibbles) : x < 16 :=
  lt_sixteen_of_mem_byteNibbles (List.mem_of_mem_drop hx)

/-- `at` reads the nibble list, and fails exactly past its end. -/
theorem at_eq (s : NibbleSlice) (i : Nat) : s.at i = s.nibbles[i]? := by
  simp only [«at», nibbles, List.getElem?_drop, getElem?_byteNibbles, Nat.and_one_is_mod]

theorem mapM_range_getElem? (xs : List UInt8) :
    ∀ n ≤ xs.length, (List.range n).mapM (fun i => xs[i]?) = some (xs.take n)
  | 0, _ => rfl
  | n + 1, hn => by
    have hget : xs[n]? = some xs[n] := List.getElem?_eq_getElem (by omega)
    rw [List.range_succ, List.mapM_append, mapM_range_getElem? xs n (by omega), List.take_add_one]
    simp [hget]

/-- The iterator yields the nibble list. -/
theorem iter_eq (s : NibbleSlice) : s.iter = some s.nibbles := by
  have hat : s.at = fun i => s.nibbles[i]? := funext s.at_eq
  rw [iter, hat, ← length_nibbles, mapM_range_getElem? _ _ le_rfl, List.take_length]

/-- `NibbleSlice::new` reads a key as the trie does (`toNibbles`). -/
theorem nibbles_new (key : List UInt8) :
    (new key).nibbles = (toNibbles key).map fun x : Nibble => UInt8.ofNat x.val := by
  simp only [nibbles, new, List.drop_zero]
  induction key with
  | nil => rfl
  | cons b key ih =>
    simp only [byteNibbles_cons, ih, toNibbles, List.map_cons, List.cons.injEq, and_true]
    have hb := b.toNat_lt
    constructor
    · apply UInt8.toNat_inj.mp
      rw [shiftRight_four_toNat, UInt8.toNat_ofNat']
      omega
    · apply UInt8.toNat_inj.mp
      rw [and_fifteen_toNat, UInt8.toNat_ofNat']
      omega

end NibbleSlice

/-! ## The hex-prefix encoding -/

/-- Nibbles two to a byte, the first of each pair high; an odd last nibble is dropped. -/
def packPairs : List UInt8 → List UInt8
  | a :: b :: rest => (a * 16 + b) :: packPairs rest
  | _ => []

/-- The leaf flag of the header byte. -/
def leafFlag (isLeaf : Bool) : UInt8 := if isLeaf then 0x20 else 0

/-- The hex-prefix encoding of a nibble list. -/
def hexPrefix (nibbles : List UInt8) (isLeaf : Bool) : List UInt8 :=
  if nibbles.length % 2 = 1 then
    (0x10 + nibbles.headD 0 + leafFlag isLeaf) :: packPairs nibbles.tail
  else leafFlag isLeaf :: packPairs nibbles

namespace NibbleSlice

variable {xs : List UInt8} {read : Nat → Option UInt8}

theorem pairOf_eq (hread : ∀ k < xs.length, read k = xs[k]?) {j : Nat} (hj : j + 1 < xs.length) :
    pairOf read j = some (xs[j] * 16 + xs[j + 1]) := by
  have hj0 : j < xs.length := by omega
  simp [pairOf, hread j hj0, hread (j + 1) hj, List.getElem?_eq_getElem hj0,
    List.getElem?_eq_getElem hj]

/-- The loop packs the rest of the list when each `pair` reads the two nibbles it stands for. -/
theorem pushPairs_eq {pair : Nat → Option UInt8}
    (hpair : ∀ j (hj : j + 1 < xs.length), pair j = some (xs[j] * 16 + xs[j + 1])) :
    ∀ n i, i + 2 * n = xs.length → pushPairs pair i n = some (packPairs (xs.drop i))
  | 0, i, hi => by
    rw [show i = xs.length by omega, List.drop_length]
    rfl
  | n + 1, i, hi => by
    have hdrop : xs.drop i = xs[i] :: xs[i + 1] :: xs.drop (i + 2) := by
      rw [List.drop_eq_getElem_cons (by omega), List.drop_eq_getElem_cons (by omega)]
    rw [pushPairs, hpair i (by omega), pushPairs_eq hpair n (i + 2) (by omega), hdrop]
    rfl

/-- **The shared loop computes the hex-prefix encoding** of the list its readers read. -/
theorem encodeWith_eq {first : Option UInt8} {pair : Nat → Option UInt8} (isLeaf : Bool)
    (hfirst : xs.length % 2 = 1 → first = xs[0]?)
    (hpair : ∀ j (hj : j + 1 < xs.length), pair j = some (xs[j] * 16 + xs[j + 1])) :
    encodeWith xs.length isLeaf first pair = some (hexPrefix xs isLeaf) := by
  have hloop := pushPairs_eq hpair (xs.length / 2) (xs.length % 2) (by omega)
  by_cases hodd : xs.length % 2 = 1
  · have hhead : xs[0]? = some (xs.headD 0) := by
      cases xs with
      | nil => simp at hodd
      | cons x tail => rfl
    rw [hodd] at hloop
    simp [encodeWith, hexPrefix, hodd, hfirst hodd, hhead, hloop, leafFlag, UInt8.add_assoc,
      List.drop_one]
  · have heven : xs.length % 2 = 0 := by omega
    rw [heven] at hloop
    simp [encodeWith, hexPrefix, heven, hloop, leafFlag]

theorem encodeNibbles_eq (nibbles : List UInt8) (isLeaf : Bool) :
    encodeNibbles nibbles isLeaf = some (hexPrefix nibbles isLeaf) :=
  encodeWith_eq isLeaf (fun _ => rfl) fun _ hj => pairOf_eq (fun _ _ => rfl) hj

theorem encoded_eq (s : NibbleSlice) (isLeaf : Bool) :
    s.encoded isLeaf = some (hexPrefix s.nibbles isLeaf) := by
  have hread : ∀ k < s.nibbles.length, s.at k = s.nibbles[k]? := fun k _ => s.at_eq k
  rw [encoded, ← length_nibbles]
  exact encodeWith_eq isLeaf (fun _ => s.at_eq 0) fun _ hj => pairOf_eq hread hj

theorem encodedLeftmost_eq (s : NibbleSlice) (n : Nat) (isLeaf : Bool) :
    s.encodedLeftmost n isLeaf = some (hexPrefix (s.nibbles.take (min n s.len)) isLeaf) := by
  have hlen : (s.nibbles.take (min n s.len)).length = min s.len n := by simp; omega
  have hread : ∀ k < (s.nibbles.take (min n s.len)).length,
      s.at k = (s.nibbles.take (min n s.len))[k]? := by
    intro k hk
    rw [s.at_eq, List.getElem?_take_of_lt (by simp at hk; omega)]
  rw [encodedLeftmost, ← hlen]
  refine encodeWith_eq isLeaf (fun hodd => ?_) fun _ hj => pairOf_eq hread hj
  exact hread 0 (by omega)

/-- The merged read is the read of the concatenated nibbles. -/
theorem mergedAt_eq (a b : NibbleSlice) (k : Nat) :
    mergedAt a b k = (a.nibbles ++ b.nibbles)[k]? := by
  unfold mergedAt
  split_ifs with hk
  · rw [a.at_eq, List.getElem?_append_left (by simpa using hk)]
  · rw [b.at_eq, List.getElem?_append_right (by simp; omega), length_nibbles]

/-- With `self` non-empty, `merge_encoded` reads the nibbles of both slices in turn. -/
theorem mergeEncoded_eq {a : NibbleSlice} (b : NibbleSlice) (ha : a.len ≠ 0) (isLeaf : Bool) :
    a.mergeEncoded b isLeaf = some (hexPrefix (a.nibbles ++ b.nibbles) isLeaf) := by
  have hlen : (a.nibbles ++ b.nibbles).length = a.len + b.len := by simp
  rw [mergeEncoded, ← hlen]
  refine encodeWith_eq isLeaf (fun _ => ?_) fun j hj => ?_
  · rw [a.at_eq, List.getElem?_append_left (by simp; omega)]
  · have hj0 : j < (a.nibbles ++ b.nibbles).length := by omega
    simp only [hj, if_true, mergedAt_eq, List.getElem?_eq_getElem hj0, List.getElem?_eq_getElem hj]
    rfl

/-- **`merge_encoded` panics on an empty `self`** when the merged length is odd: the header reads
`self.at(0)` past the end of `self`. -/
theorem mergeEncoded_eq_none {a : NibbleSlice} (b : NibbleSlice) (ha : a.len = 0)
    (hodd : b.len % 2 = 1) (isLeaf : Bool) : a.mergeEncoded b isLeaf = none := by
  have hfirst : a.at 0 = none := by
    rw [a.at_eq, List.getElem?_eq_none (by simp [ha])]
  simp [mergeEncoded, encodeWith, ha, hodd, hfirst]

end NibbleSlice

/-! ## Decoding -/

theorem byteNibbles_packPairs :
    ∀ (xs : List UInt8), xs.length % 2 = 0 → (∀ x ∈ xs, x < 16) →
      byteNibbles (packPairs xs) = xs
  | [], _, _ => rfl
  | [_], h, _ => by simp at h
  | a :: b :: rest, hlen, hlt => by
    have ha := UInt8.lt_iff_toNat_lt.mp (hlt a (by simp))
    have hb := UInt8.lt_iff_toNat_lt.mp (hlt b (by simp))
    have h16 : (16 : UInt8).toNat = 16 := rfl
    rw [h16] at ha hb
    -- no byte overflows: `a * 16 + b < 256`
    have hpair : (a * 16 + b).toNat = a.toNat * 16 + b.toNat := by
      rw [UInt8.toNat_add, UInt8.toNat_mul, h16]
      omega
    have hhi : (a * 16 + b) >>> 4 = a := by
      apply UInt8.toNat_inj.mp
      rw [shiftRight_four_toNat, hpair]
      omega
    have hlo : (a * 16 + b) &&& 15 = b := by
      apply UInt8.toNat_inj.mp
      rw [and_fifteen_toNat, hpair]
      omega
    have hrest : byteNibbles (packPairs rest) = rest := by
      refine byteNibbles_packPairs rest ?_ fun x hx => hlt x (by simp [hx])
      simp only [List.length_cons] at hlen
      omega
    simp only [packPairs, byteNibbles_cons, hhi, hlo, hrest]

/-- The header byte of an odd-length encoding: both flags read back, and the first nibble. -/
theorem oddHeader_spec (n₀ : Fin 16) (isLeaf : Bool) :
    (0x10 + UInt8.ofNat n₀ + leafFlag isLeaf) &&& 16 = 16 ∧
      decide ((0x10 + UInt8.ofNat n₀ + leafFlag isLeaf) &&& 32 = 32) = isLeaf ∧
      (0x10 + UInt8.ofNat n₀ + leafFlag isLeaf) &&& 15 = UInt8.ofNat n₀ := by
  revert n₀ isLeaf
  decide

/-- The header byte of an even-length encoding carries the leaf flag alone. -/
theorem evenHeader_spec (isLeaf : Bool) :
    ¬ leafFlag isLeaf &&& 16 = 16 ∧ decide (leafFlag isLeaf &&& 32 = 32) = isLeaf := by
  cases isLeaf <;> decide

/-- **Decoding inverts the hex-prefix encoding** of a list of nibbles. -/
theorem fromEncoded_hexPrefix {xs : List UInt8} (hxs : ∀ x ∈ xs, x < 16) (isLeaf : Bool) :
    ∃ s, NibbleSlice.fromEncoded (hexPrefix xs isLeaf) = some (s, isLeaf) ∧ s.nibbles = xs := by
  by_cases hodd : xs.length % 2 = 1
  · obtain ⟨x, tail, rfl⟩ := List.exists_cons_of_length_pos (by omega : 0 < xs.length)
    -- the first nibble as one of the sixteen values the header lemma ranges over
    let n₀ : Fin 16 := ⟨x.toNat, UInt8.lt_iff_toNat_lt.mp (hxs x (by simp))⟩
    have hx : x = UInt8.ofNat n₀ := by simp [n₀]
    obtain ⟨h16, h32, h15⟩ := oddHeader_spec n₀ isLeaf
    rw [← hx] at h16 h32 h15
    have htail : byteNibbles (packPairs tail) = tail :=
      byteNibbles_packPairs tail (by simp at hodd; omega) fun y hy => hxs y (by simp [hy])
    have hhex : hexPrefix (x :: tail) isLeaf = (0x10 + x + leafFlag isLeaf) :: packPairs tail := by
      rw [hexPrefix, if_pos hodd]
      rfl
    rw [hhex]
    refine ⟨⟨(0x10 + x + leafFlag isLeaf) :: packPairs tail, 1, by simp only [List.length_cons]; omega⟩,
      ?_, ?_⟩
    · simp [NibbleSlice.fromEncoded, h16, h32]
    · simp [NibbleSlice.nibbles, h15, htail]
  · obtain ⟨h16, h32⟩ := evenHeader_spec isLeaf
    have hall : byteNibbles (packPairs xs) = xs := byteNibbles_packPairs xs (by omega) hxs
    have hhex : hexPrefix xs isLeaf = leafFlag isLeaf :: packPairs xs := by
      rw [hexPrefix, if_neg hodd]
    rw [hhex]
    refine ⟨⟨leafFlag isLeaf :: packPairs xs, 2, by simp only [List.length_cons]; omega⟩, ?_, ?_⟩
    · simp [NibbleSlice.fromEncoded, h16, h32]
    · simp [NibbleSlice.nibbles, hall]

/-- **The hex-prefix laws**: `from_encoded` inverts `encode_nibbles` on nibbles; `encoded`,
`encoded_leftmost` and `merge_encoded` (from a non-empty slice) are `encode_nibbles` of the
nibbles that the slices yield. -/
theorem hex_prefix_encoding_laws :
    (∀ (nibbles : List UInt8), (∀ x ∈ nibbles, x < 16) → ∀ isLeaf : Bool,
      ∃ encoded s, NibbleSlice.encodeNibbles nibbles isLeaf = some encoded ∧
        NibbleSlice.fromEncoded encoded = some (s, isLeaf) ∧ s.iter = some nibbles) ∧
    (∀ (s : NibbleSlice) (isLeaf : Bool), s.iter = some s.nibbles ∧
      s.encoded isLeaf = NibbleSlice.encodeNibbles s.nibbles isLeaf) ∧
    (∀ (s : NibbleSlice) (k : Nat) (isLeaf : Bool), s.encodedLeftmost k isLeaf =
      NibbleSlice.encodeNibbles (s.nibbles.take (min k s.len)) isLeaf) ∧
    (∀ (a b : NibbleSlice) (isLeaf : Bool), a.len ≠ 0 →
      a.mergeEncoded b isLeaf = NibbleSlice.encodeNibbles (a.nibbles ++ b.nibbles) isLeaf) := by
  refine ⟨fun nibbles hn isLeaf => ?_, fun s isLeaf => ?_, fun s k isLeaf => ?_,
    fun a b isLeaf ha => ?_⟩
  · obtain ⟨s, hdec, hs⟩ := fromEncoded_hexPrefix hn isLeaf
    exact ⟨_, s, NibbleSlice.encodeNibbles_eq nibbles isLeaf, hdec, by rw [s.iter_eq, hs]⟩
  · rw [s.iter_eq, s.encoded_eq, NibbleSlice.encodeNibbles_eq]
    exact ⟨rfl, rfl⟩
  · rw [s.encodedLeftmost_eq, NibbleSlice.encodeNibbles_eq]
  · rw [NibbleSlice.mergeEncoded_eq b ha, NibbleSlice.encodeNibbles_eq]

theorem hex_prefix_encoding_laws_one_two_three :
    (∀ x ∈ ([1, 2, 3] : List UInt8), x < 16) ∧
      (∃ encoded s, NibbleSlice.encodeNibbles [1, 2, 3] true = some encoded ∧
        NibbleSlice.fromEncoded encoded = some (s, true) ∧ s.iter = some [1, 2, 3]) ∧
      (NibbleSlice.new [0x12]).len ≠ 0 ∧
      (NibbleSlice.new [0x12]).mergeEncoded (NibbleSlice.new [0x34]) false =
        NibbleSlice.encodeNibbles
          ((NibbleSlice.new [0x12]).nibbles ++ (NibbleSlice.new [0x34]).nibbles) false :=
  ⟨by simp, hex_prefix_encoding_laws.1 _ (by simp) true, by decide,
    hex_prefix_encoding_laws.2.2.2 _ _ false (by decide)⟩

/-! ## Slicing and comparing -/

namespace NibbleSlice

/-- `NibbleSlice::is_empty`. -/
def isEmpty (s : NibbleSlice) : Bool := s.len == 0

/-- `NibbleSlice::mid`: the same data from `i` nibbles further on. The source also builds a slice
past the end, whose `len()` then underflows and panics; the model returns `none` there. -/
def mid (s : NibbleSlice) (i : Nat) : Option NibbleSlice :=
  if h : s.offset + i ≤ s.data.length * 2 then some ⟨s.data, s.offset + i, h⟩ else none

/-- The loop of `common_prefix` at position `i` with `n` rounds left: the first position where
the two readers differ, or `i + n`. -/
def prefixLoop (a b : Nat → Option UInt8) (i : Nat) : Nat → Option Nat
  | 0 => some i
  | n + 1 => do
    let x ← a i
    let y ← b i
    if x ≠ y then some i else prefixLoop a b (i + 1) n

/-- `NibbleSlice::common_prefix`. -/
def commonPrefix (s them : NibbleSlice) : Option Nat :=
  prefixLoop s.at them.at 0 (min s.len them.len)

/-- `NibbleSlice::starts_with`. -/
def startsWith (s them : NibbleSlice) : Option Bool :=
  (s.commonPrefix them).map (· == them.len)

/-- `impl PartialEq for NibbleSlice`: `self.len() == them.len() && self.starts_with(them)`, the
second test made only when the first holds. -/
def eq (s them : NibbleSlice) : Option Bool :=
  if s.len = them.len then s.startsWith them else some false

@[simp] theorem isEmpty_eq (s : NibbleSlice) : s.isEmpty = s.nibbles.isEmpty := by
  rw [isEmpty, ← length_nibbles]
  cases s.nibbles <;> simp

theorem at_zero (s : NibbleSlice) : s.at 0 = s.nibbles.head? := by
  rw [at_eq, List.head?_eq_getElem?]

/-- `mid` drops nibbles, and does not fail up to the end. -/
theorem mid_eq_some {s : NibbleSlice} {i : Nat} (h : i ≤ s.len) :
    ∃ s', s.mid i = some s' ∧ s'.nibbles = s.nibbles.drop i := by
  have hi : s.offset + i ≤ s.data.length * 2 := by
    have := s.offset_le
    simp only [len] at h
    omega
  refine ⟨_, dif_pos hi, ?_⟩
  simp [nibbles, List.drop_drop, Nat.add_comm]

/-- The loop finds the common prefix of the lists its readers read. -/
theorem prefixLoop_getElem? (xs ys : List UInt8) :
    ∀ n i, i + n = min xs.length ys.length →
      prefixLoop (fun k => xs[k]?) (fun k => ys[k]?) i n =
        some (i + ListPrefix.commonPrefix (xs.drop i) (ys.drop i))
  | 0, i, hi => by
    -- one of the lists is used up at `i`
    rcases Nat.le_total xs.length ys.length with hle | hle
    · rw [List.drop_eq_nil_of_le (by omega : xs.length ≤ i)]
      simp [prefixLoop]
    · rw [List.drop_eq_nil_of_le (by omega : ys.length ≤ i)]
      simp [prefixLoop]
  | n + 1, i, hi => by
    have hx : i < xs.length := by omega
    have hy : i < ys.length := by omega
    rw [prefixLoop, List.getElem?_eq_getElem hx, List.getElem?_eq_getElem hy,
      List.drop_eq_getElem_cons hx, List.drop_eq_getElem_cons hy]
    by_cases hne : xs[i] = ys[i]
    · rw [hne, ListPrefix.commonPrefix_cons_self]
      simp only [Option.bind_eq_bind, Option.bind_some, ne_eq, not_true_eq_false, if_false]
      rw [prefixLoop_getElem? xs ys n (i + 1) (by omega), Nat.add_assoc, Nat.add_comm 1]
    · rw [ListPrefix.commonPrefix_cons_of_ne hne]
      simp [hne]

theorem commonPrefix_eq (s them : NibbleSlice) :
    s.commonPrefix them = some (ListPrefix.commonPrefix s.nibbles them.nibbles) := by
  have hs : s.at = fun k => s.nibbles[k]? := funext s.at_eq
  have ht : them.at = fun k => them.nibbles[k]? := funext them.at_eq
  rw [commonPrefix, hs, ht, ← length_nibbles, ← length_nibbles,
    prefixLoop_getElem? _ _ _ 0 (by omega)]
  simp

theorem startsWith_eq (s them : NibbleSlice) :
    s.startsWith them = some (decide (them.nibbles <+: s.nibbles)) := by
  rw [startsWith, commonPrefix_eq, Option.map_some, Option.some_inj, ← length_nibbles them,
    Bool.eq_iff_iff, beq_iff_eq, decide_eq_true_iff]
  exact ListPrefix.commonPrefix_eq_length_right_iff _ _

theorem eq_eq (s them : NibbleSlice) : s.eq them = some (decide (s.nibbles = them.nibbles)) := by
  unfold eq
  split_ifs with hlen
  · rw [startsWith_eq]
    congr 1
    apply decide_eq_decide.mpr
    constructor
    · intro hpre
      exact (hpre.eq_of_length (by simp [hlen])).symm
    · intro heq
      rw [heq]
  · have hne : s.nibbles ≠ them.nibbles := fun heq => hlen (by simpa using congrArg List.length heq)
    simp [hne]

end NibbleSlice

end Unc
