import UncNode.Lib.LittleEndian

/-!
# Borsh decoding of fixed layouts

Borsh lays a struct out as its fields' bytes in declaration order: an unsigned integer as its
little-endian bytes, a byte array as itself, an enum as a tag byte. A decoder reads the fields
off the front of the bytes and hands on the rest; `try_from_slice` fails unless the bytes are
used up.

* `readLE_toBytes_append`, `readBytes_append`: a field reads back what was written and leaves
  the rest;
* `run_eq_some`: a decoder that reads a value and leaves nothing decodes the slice to it.
-/

set_option autoImplicit false

namespace Borsh

/-- A decoder: reads a value off the front of the bytes and returns the rest, or fails. -/
def Reader (α : Type) : Type := List UInt8 → Option (α × List UInt8)

instance : Monad Reader where
  pure a bytes := some (a, bytes)
  bind r f bytes := (r bytes).bind fun p => f p.1 p.2

variable {α β : Type}

@[simp] theorem pure_apply (a : α) (bytes : List UInt8) :
    (pure a : Reader α) bytes = some (a, bytes) := rfl

@[simp] theorem bind_apply (r : Reader α) (f : α → Reader β) (bytes : List UInt8) :
    (r >>= f) bytes = (r bytes).bind fun p => f p.1 p.2 := rfl

/-- An unsigned integer of `w` bytes. -/
def readLE (w : Nat) : Reader Nat := fun bytes =>
  if w ≤ bytes.length then some (LittleEndian.ofBytes (bytes.take w), bytes.drop w) else none

/-- A byte array of `n` bytes. -/
def readBytes (n : Nat) : Reader (List UInt8) := fun bytes =>
  if n ≤ bytes.length then some (bytes.take n, bytes.drop n) else none

/-- A checked conversion of what was read, such as an enum's tag; it fails on `none`. -/
def lift (o : Option α) : Reader α := fun bytes => o.map (·, bytes)

/-- `try_from_slice`: decode, and fail unless every byte was used. -/
def Reader.run (r : Reader α) (bytes : List UInt8) : Option α :=
  match r bytes with
  | some (a, []) => some a
  | _ => none

@[simp] theorem lift_apply (o : Option α) (bytes : List UInt8) :
    lift o bytes = o.map (·, bytes) := rfl

@[simp] theorem readLE_toBytes_append (w n : Nat) (rest : List UInt8) :
    readLE w (LittleEndian.toBytes w n ++ rest) = some (n % 256 ^ w, rest) := by
  have hw : (LittleEndian.toBytes w n).length = w := LittleEndian.length_toBytes w n
  simp [readLE, List.take_left' hw, List.drop_left' hw, LittleEndian.ofBytes_toBytes]

@[simp] theorem readBytes_append {n : Nat} {l : List UInt8} (h : l.length = n)
    (rest : List UInt8) : readBytes n (l ++ rest) = some (l, rest) := by
  simp [readBytes, ← h]

theorem run_eq_some {r : Reader α} {bytes : List UInt8} {a : α} (h : r bytes = some (a, [])) :
    r.run bytes = some a := by
  simp [Reader.run, h]

end Borsh
