import ThreadedCode.Value

/-!
Cells, the procedures that they run, and the strategies by which one cell is wired into another. A
host adds procedures and strategies of its own, which are known here by their names only.
-/
namespace ThreadedCode

/-- The names that a host gives to its own code. -/
structure Signature where
  /-- Names of native procedures, which cells run. -/
  Native : Type
  /-- Names of copy strategies, which wire a word into another one. -/
  Strategy : Type

variable {σ : Signature}

/-- What a cell does when it is called. -/
inductive Procedure (σ : Signature) where
  /-- Nothing. -/
  | zero
  /-- Execute the cell that the payload names. -/
  | link
  /-- Push the payload. -/
  | literal
  | native (name : σ.Native)

instance [DecidableEq σ.Native] : DecidableEq (Procedure σ)
  | .zero, .zero | .link, .link | .literal, .literal => isTrue rfl
  | .native a, .native b => decidable_of_iff (a = b) ⟨congrArg _, Procedure.native.inj⟩
  | .zero, .link | .zero, .literal | .zero, .native _ | .link, .zero | .link, .literal
  | .link, .native _ | .literal, .zero | .literal, .link | .literal, .native _ | .native _, .zero
  | .native _, .link | .native _, .literal => isFalse nofun

/-- How a dictionary entry's cell is wired into a freshly compiled one. -/
inductive Strategy (σ : Signature) where
  /-- Make it run the entry's cell. -/
  | link
  /-- Copy a leaf's procedure and payload; link anything larger. -/
  | inline
  /-- Run the entry's cell now and leave a cell that does nothing. -/
  | immediate
  | host (name : σ.Strategy)

/-- The unit of execution. A cell of extent one is a leaf. A larger extent makes it the head of a
compound word: the head and the cells that follow it. -/
structure Cell (σ : Signature) where
  procedure : Procedure σ
  payload : Value
  extent : Nat

instance [DecidableEq σ.Native] : DecidableEq (Cell σ) := fun ⟨p, v, n⟩ ⟨p', v', n'⟩ =>
  decidable_of_iff (p = p' ∧ v = v' ∧ n = n') (by simp only [Cell.mk.injEq])

namespace Cell

def empty : Cell σ := ⟨.zero, .nil, 1⟩

def isLeaf (c : Cell σ) : Bool := c.extent == 1

/-- The cell with another procedure, and no payload. -/
def bound (c : Cell σ) (procedure : Procedure σ) : Cell σ :=
  { c with procedure, payload := .nil }

/-- The cell as a link to `source`. -/
def linked (c : Cell σ) (source : CellId) : Cell σ :=
  { c with procedure := .link, payload := .cell source }

end Cell
end ThreadedCode
