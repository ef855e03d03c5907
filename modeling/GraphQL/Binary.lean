/-!
# Binary forms

A codec writes values as bytes and reads them back off the front of a byte string. Numbers are written in as few
bytes as a leading marker allows: one byte up to 250, else a marker and two, four, eight or sixteen bytes with the
lowest first. Sequences and strings are written after their length, an optional value after a byte that tells
whether it is there, a choice between variants after the variant's number.
-/

namespace GraphQL

/-- Reads a value off the front of a byte string and leaves the rest. -/
abbrev Reader := StateT (List UInt8) Option

structure Codec (α : Type) where
  write : α → List UInt8
  read : Reader α

namespace Codec

/-- The lowest `k` bytes of a number, the lowest first. -/
def littleEndian : Nat → Nat → List UInt8
  | 0, _ => []
  | k + 1, n => UInt8.ofNat n :: littleEndian k (n / 256)

def readByte : Reader UInt8
  | [] => none
  | b :: rest => some (b, rest)

def readLittleEndian : Nat → Reader Nat
  | 0 => return 0
  | k + 1 => do
    let low ← readByte
    let high ← readLittleEndian k
    return low.toNat + 256 * high

def writeVarint (n : Nat) : List UInt8 :=
  if n ≤ 250 then [UInt8.ofNat n]
  else if n < UInt16.size then 251 :: littleEndian 2 n
  else if n < UInt32.size then 252 :: littleEndian 4 n
  else if n < UInt64.size then 253 :: littleEndian 8 n
  else 254 :: littleEndian 16 n

/-- Reads a number of at most `width` bytes; a wider marker is refused, whatever number follows it. -/
def readVarint (width : Nat) : Reader Nat := do
  let marker ← readByte
  if marker ≤ 250 then return marker.toNat
  else if marker = 251 then readLittleEndian 2
  else if marker = 252 then readLittleEndian 4
  else if marker = 253 ∧ 8 ≤ width then readLittleEndian 8
  else failure

/-- A number that 32 bits hold. -/
def word : Codec Nat := ⟨writeVarint, readVarint 4⟩

/-- A length. -/
def length : Codec Nat := ⟨writeVarint, readVarint 8⟩

def bool : Codec Bool where
  write b := [if b then 1 else 0]
  read := do
    match ← readByte with
    | 0 => return false
    | 1 => return true
    | _ => failure

/-- A value of one type through its presentation in another. -/
def via {α β : Type} (c : Codec β) (present : α → β) (restore : β → α) : Codec α where
  write a := c.write (present a)
  read := restore <$> c.read

/-- One value after another. -/
def pair {α β : Type} (a : Codec α) (b : Codec β) : Codec (α × β) where
  write p := a.write p.1 ++ b.write p.2
  read := return (← a.read, ← b.read)

def option {α : Type} (c : Codec α) : Codec (Option α) where
  write
    | none => [0]
    | some a => 1 :: c.write a
  read := do
    if ← bool.read then some <$> c.read else return none

/-- Reads a value so many times. -/
def readTimes {α : Type} (read : Reader α) : Nat → Reader (List α)
  | 0 => return []
  | n + 1 => return (← read) :: (← readTimes read n)

def list {α : Type} (c : Codec α) : Codec (List α) where
  write as := length.write as.length ++ as.flatMap c.write
  read := do readTimes c.read (← length.read)

def readBytes (n : Nat) : Reader (List UInt8) := fun bytes =>
  if n ≤ bytes.length then some (bytes.take n, bytes.drop n) else none

/-- A string in UTF-8. -/
def string : Codec String where
  write s := length.write s.utf8ByteSize ++ s.toUTF8.toList
  read := do
    let bytes ← readBytes (← length.read)
    match String.fromUTF8? bytes.toByteArray with
    | some s => return s
    | none => failure

end Codec

end GraphQL
