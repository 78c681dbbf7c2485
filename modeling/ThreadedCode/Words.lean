import ThreadedCode.Host

/-!
Programs over the dictionary: defining native words, running words, and wiring them into others.
-/
namespace ThreadedCode
namespace Words

variable {σ : Signature}

/-- Allocates a cell for a procedure and defines it. -/
def define (name : String) (procedure : Procedure σ) : Program σ EntryId := do
  let cell ← request .newCell
  request (.bind cell procedure)
  let entry ← request (.createEntry cell)
  request (.define name entry)
  return entry

/-- Defines every procedure of a table, in order. The first fault ends it; what has been defined
before stays defined. -/
def register (table : List (String × Procedure σ)) : Program σ Unit := do
  table.forM fun (name, procedure) => do
    let _ ← define name procedure
  request (.noteRegistered table.length)

/-- Executes the cell of an entry. -/
def execute (entry : EntryId) : Program σ Unit := do
  ThreadedCode.execute (← request (.entry entry)).cell

/-- Wires the cell of an entry into `dest`, by the entry's own strategy. -/
def copy (host : Host σ) (entry : EntryId) (dest : CellId) : Program σ Unit := do
  let record ← request (.entry entry)
  let strategy ← request (.strategy record.copy)
  strategy.program host record.cell dest

end Words
end ThreadedCode
