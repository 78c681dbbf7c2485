import ThreadedCode.Cell

/-!
The cell arena: a fixed number of cells, handed out in order and taken back all at once.
-/
namespace ThreadedCode

structure CellArena (σ : Signature) where
  cells : Array (Cell σ)
  used : Nat

variable {σ : Signature}

instance [DecidableEq σ.Native] : DecidableEq (CellArena σ) := fun ⟨cells, used⟩ ⟨cells', used'⟩ =>
  decidable_of_iff (cells = cells' ∧ used = used') (by simp only [CellArena.mk.injEq])

namespace CellArena

def capacity (a : CellArena σ) : Nat := a.cells.size

/-- Empties every cell and takes all of them back. -/
def reset (a : CellArena σ) : CellArena σ := ⟨Array.replicate a.capacity .empty, 0⟩

/-- Takes over an array of cells, whatever they hold. -/
def create (cells : Array (Cell σ)) : CellArena σ := reset ⟨cells, 0⟩

def hasRoom (a : CellArena σ) : Bool := a.used < a.capacity

/-- Hands out the next cell. Its number has to be a word. -/
def allocate (a : CellArena σ) : Except Fault (CellId × CellArena σ) :=
  if a.hasRoom ∧ a.used + 1 < wordLimit then
    .ok (⟨a.used⟩, { a with used := a.used + 1 })
  else .error (.cellArenaFull a.capacity)

/-- The cell at `id`, if it has been handed out. -/
def get (a : CellArena σ) (id : CellId) : Except Fault (Cell σ) :=
  if id.index < a.used then
    match a.cells[id.index]? with
    | some cell => .ok cell
    | none => .error (.invalidCell id)
  else .error (.invalidCell id)

/-- Changes the cell at `id`, if it has been handed out. -/
def modify (a : CellArena σ) (id : CellId) (change : Cell σ → Cell σ) :
    Except Fault (CellArena σ) := do
  let cell ← a.get id
  return { a with cells := a.cells.setIfInBounds id.index (change cell) }

/-- The cell handed out last. -/
def last? (a : CellArena σ) : Option CellId :=
  if 0 < a.used ∧ a.used < wordLimit then some ⟨a.used - 1⟩ else none

end CellArena
end ThreadedCode
