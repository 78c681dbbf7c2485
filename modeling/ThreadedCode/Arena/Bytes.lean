import ThreadedCode.Fault

/-!
The byte arena: a buffer of fixed size, handed out from the front. Only the bytes handed out so
far can be read or written, and memory comes back all at once, by a reset.
-/
namespace ThreadedCode

structure ByteArena where
  buffer : Array UInt8
  used : Nat
deriving DecidableEq, Repr

namespace ByteArena

def capacity (a : ByteArena) : Nat := a.buffer.size

def remaining (a : ByteArena) : Nat := a.capacity - a.used

/-- Zeroes every byte and takes all memory back. -/
def reset (a : ByteArena) : ByteArena := ⟨Array.replicate a.capacity 0, 0⟩

/-- Takes over a buffer, whatever it holds. -/
def create (buffer : Array UInt8) : ByteArena := reset ⟨buffer, 0⟩

/-- The end of a range of bytes, if it is a size at all. -/
def rangeEnd? (start length : Nat) : Option Nat :=
  if start + length < sizeLimit then some (start + length) else none

/-- Whether the buffer has so many bytes left. -/
def hasRoom (a : ByteArena) (size : Nat) : Bool :=
  match rangeEnd? a.used size with
  | some stop => stop ≤ a.capacity
  | none => false

/-- Whether a range lies within the bytes handed out so far. -/
def covers (a : ByteArena) (start length : Nat) : Bool :=
  match rangeEnd? start length with
  | some stop => stop ≤ a.used
  | none => false

def full (a : ByteArena) (size : Nat) : Fault := .byteArenaFull size a.used a.capacity

/-- Hands out the next `size` bytes. The number of the first one has to be a word. -/
def allocate (a : ByteArena) (size : Nat) : Except Fault (Address × ByteArena) :=
  if a.hasRoom size ∧ a.used + 1 < wordLimit then
    .ok (⟨a.used⟩, { a with used := a.used + size })
  else .error (a.full size)

def read (a : ByteArena) (start length : Nat) : Except Fault (List UInt8) :=
  if a.covers start length then .ok (a.buffer.extract start (start + length)).toList
  else .error .invalidHandle

/-- Puts bytes into an array, one after another. -/
def overwrite (buffer : Array UInt8) (start : Nat) : List UInt8 → Array UInt8
  | [] => buffer
  | b :: rest => overwrite (buffer.setIfInBounds start b) (start + 1) rest

def write (a : ByteArena) (start : Nat) (bytes : List UInt8) : Except Fault ByteArena :=
  if a.covers start bytes.length then
    .ok { a with buffer := overwrite a.buffer start bytes }
  else .error .invalidHandle

/-- Hands out as many bytes as are given and copies them in. -/
def allocateCopy (a : ByteArena) (bytes : List UInt8) : Except Fault Address × ByteArena :=
  match a.allocate bytes.length with
  | .error fault => (.error fault, a)
  | .ok (address, grown) =>
    match grown.write address.offset bytes with
    | .error fault => (.error fault, grown)
    | .ok filled => (.ok address, filled)

/-- The word stored `field` bytes after an address. -/
def readWord (a : ByteArena) (address : Address) (field : Nat) : Except Fault Nat := do
  let bytes ← a.read (address.offset + field) Word.size
  return Word.decode bytes

def writeWord (a : ByteArena) (address : Address) (field value : Nat) :
    Except Fault ByteArena :=
  a.write (address.offset + field) (Word.encode value)

end ByteArena
end ThreadedCode
