import ThreadedCode.Arena.Bytes
import ThreadedCode.Value

/-!
Dictionary entries as records in the byte arena: five words, in which zero stands for "none".
-/
namespace ThreadedCode

/-- An entry as its record tells it. -/
structure Entry where
  cell : CellId
  copy : CopyId
  /-- Nil until the entry is defined. -/
  name : Value
deriving DecidableEq, Repr

namespace Entry

/-- The place of each word in a record, in bytes. -/
inductive Field where
  | cell
  | copy
  | name
  | nameLength
  | next
deriving DecidableEq, Repr

def Field.place : Field → Nat
  | .cell => 0
  | .copy => 4
  | .name => 8
  | .nameLength => 12
  | .next => 16

/-- The number of bytes of a record. -/
def size : Nat := 20

def readField (bytes : ByteArena) (id : EntryId) (field : Field) : Except Fault Nat :=
  bytes.readWord id.address field.place

def writeField (bytes : ByteArena) (id : EntryId) (field : Field) (value : Nat) :
    Except Fault ByteArena :=
  bytes.writeWord id.address field.place value

def read (bytes : ByteArena) (id : EntryId) : Except Fault Entry := do
  match CellId.ofNumber? (← readField bytes id .cell) with
  | none => throw .invalidHandle
  | some cell =>
    let copy := ⟨← readField bytes id .copy⟩
    match Address.ofNumber? (← readField bytes id .name) with
    | none => return ⟨cell, copy, .nil⟩
    | some address => return ⟨cell, copy, .string address (← readField bytes id .nameLength)⟩

/-- The entry that follows in the same bucket. -/
def next? (bytes : ByteArena) (id : EntryId) : Except Fault (Option EntryId) := do
  return (Address.ofNumber? (← readField bytes id .next)).map EntryId.mk

/-- The bytes of an entry's name. -/
def nameBytes (bytes : ByteArena) (id : EntryId) : Except Fault (List UInt8) := do
  let (address, length) ← (← read bytes id).name.asString
  bytes.read address.offset length

end Entry
end ThreadedCode
