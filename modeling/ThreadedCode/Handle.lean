import ThreadedCode.Word

/-!
Handles into the arenas. They are numbered from one, so that zero can stand for "none" in a
stored record.
-/
namespace ThreadedCode

/-- A cell, by its position in the cell arena. -/
structure CellId where
  index : Nat
deriving DecidableEq, Repr

namespace CellId

def number (id : CellId) : Nat := id.index + 1

/-- No cell has the number zero. -/
def ofNumber? : Nat → Option CellId
  | 0 => none
  | n + 1 => some ⟨n⟩

/-- The cell `n` places further on, as long as its number is a word. -/
def shift? (id : CellId) (n : Nat) : Option CellId :=
  if id.number + n < wordLimit then some ⟨id.index + n⟩ else none

def describe (id : CellId) : String := "cell#" ++ toString id.number

theorem ofNumber?_number (id : CellId) : ofNumber? id.number = some id := rfl

end CellId

/-- A byte of the byte arena, by its position. -/
structure Address where
  offset : Nat
deriving DecidableEq, Repr

namespace Address

def number (a : Address) : Nat := a.offset + 1

/-- No byte has the number zero. -/
def ofNumber? : Nat → Option Address
  | 0 => none
  | n + 1 => some ⟨n⟩

theorem ofNumber?_number (a : Address) : ofNumber? a.number = some a := rfl

end Address

/-- A dictionary entry, by the address of its record. -/
structure EntryId where
  address : Address
deriving DecidableEq, Repr

/-- A row of the table of copy strategies. -/
structure CopyId where
  number : Nat
deriving DecidableEq, Repr

end ThreadedCode
