import ThreadedCode.Cell

/-!
The table of copy strategies. Rows are only ever added, so an id keeps its meaning for good.
-/
namespace ThreadedCode

structure CopyTable (σ : Signature) where
  rows : List (Strategy σ)

namespace CopyTable

variable {σ : Signature}

def capacity : Nat := 16

/-- The strategy of every new entry. -/
def link : CopyId := ⟨0⟩

def inline : CopyId := ⟨1⟩

def immediate : CopyId := ⟨2⟩

/-- The table that every machine starts with. -/
def standard : CopyTable σ := ⟨[.link, .inline, .immediate]⟩

def standardIds : List CopyId := [link, inline, immediate]

def register (t : CopyTable σ) (strategy : Strategy σ) : Except Fault (CopyId × CopyTable σ) :=
  if t.rows.length < capacity then .ok (⟨t.rows.length⟩, ⟨t.rows ++ [strategy]⟩)
  else .error .copyTableFull

def get (t : CopyTable σ) (id : CopyId) : Except Fault (Strategy σ) :=
  match t.rows[id.number]? with
  | some strategy => .ok strategy
  | none => .error (.unknownCopyStrategy id)

end CopyTable
end ThreadedCode
