import ThreadedCode.Step

/-!
Steps that build words out of cells.
-/
namespace ThreadedCode
namespace Machine

variable {σ : Signature}

def changeCell (id : CellId) (change : Cell σ → Cell σ) : Step σ Unit := do
  let cells ← (← get).cells.modify id change
  modify fun m => { m with cells }

/-- Makes the run of a head one cell longer. -/
def grow (head : CellId) : Step σ Unit :=
  changeCell head fun cell => { cell with extent := cell.extent + 1 }

/-- Allocates a cell. It becomes part of every open word, so the runs of the outer words stay
contiguous around the inner ones. -/
def newCell : Step σ CellId := do
  let m ← get
  unless m.cells.hasRoom do
    Step.log (.arenaFull (.cellArenaFull m.cells.capacity))
  let (id, cells) ← m.cells.allocate
  set { m with cells }
  m.openWords.heads.reverse.forM grow
  return id

def bind (cell : CellId) (procedure : Procedure σ) : Step σ Unit :=
  changeCell cell fun c => c.bound procedure

def setPayload (cell : CellId) (payload : Value) : Step σ Unit :=
  changeCell cell fun c => { c with payload }

/-- Makes a cell push a value. -/
def bindLiteral (cell : CellId) (value : Value) : Step σ Unit := do
  bind cell .literal
  setPayload cell value

/-- Makes `dest` execute `source`, however large that is. -/
def link (source dest : CellId) : Step σ Unit := do
  let _ ← (← get).cells.get source
  changeCell dest fun c => c.linked source

/-- Copies what the leaf `source` does into `dest`. A compound word does not fit into one cell and
is linked instead. -/
def inline (source dest : CellId) : Step σ Unit := do
  let copied ← (← get).cells.get source
  if copied.isLeaf then
    changeCell dest fun c => { c with procedure := copied.procedure, payload := copied.payload }
  else link source dest

/-- Starts to extend `head`. It has to be the cell allocated last, so that every cell allocated
from here on follows it directly. -/
def beginWord (head : CellId) : Step σ Unit := do
  let m ← get
  let _ ← m.cells.get head
  unless m.cells.last? = some head do
    throw (.detachedWord head)
  if m.openWords.heads.contains head then
    throw (.alreadyCompiling head)
  let openWords ← m.openWords.push head
  set { m with openWords }
  Step.log (.wordBegun head openWords.depth)

/-- Finishes the innermost open word. Its extent is looked up only for a listener. -/
def endWord : Step σ CellId := do
  let m ← get
  let (head, openWords) ← m.openWords.pop
  set { m with openWords }
  if Level.debug.heardBy m.verbosity then
    Step.log (.wordEnded head (← m.cells.get head).extent)
  return head

def registerStrategy (strategy : Strategy σ) : Step σ CopyId := do
  let m ← get
  let (id, copies) ← m.copies.register strategy
  set { m with copies }
  Step.log (.strategyRegistered id)
  return id

end Machine
end ThreadedCode
