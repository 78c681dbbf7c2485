import ThreadedCode.Words
import ThreadedCode.Machine.Lifetime

/-!
A small stock of native words and copy strategies, for any host that wants them, and copy ids by
their numbers.
-/
namespace ThreadedCode
namespace Stock

variable {σ : Signature}

inductive Word where
  | push1
  | push2
  | push3
  /-- Push the payload. -/
  | record
  | fail
  | drop
  | newcell
  /-- Start a word on a cell of its own. -/
  | colon
  /-- Finish the innermost word and push its head. -/
  | semi
  /-- Add one to the payload's boxed float. -/
  | incr
  /-- Execute the cell on top of the stack. -/
  | execute
  /-- Call the cell on top of the stack. -/
  | callnow
  /-- Box the float on top of the stack. -/
  | boxf
deriving DecidableEq, Repr

def two : Single := Single.one.add .one

def three : Single := two.add .one

def pushCell (cell : CellId) : Program σ Unit := request (.pushValue (.cell cell))

def procedure : Word → Body σ
  | .push1 => .program fun _ => request (.pushFloat .one)
  | .push2 => .program fun _ => request (.pushFloat two)
  | .push3 => .program fun _ => request (.pushFloat three)
  | .record => .program fun payload => request (.pushValue payload)
  | .fail => .program fun _ => throw .notFound
  | .drop => .program fun _ => do
    let _ ← request .pop
  | .newcell => .program fun _ => do
    pushCell (← request .newCell)
  | .colon => .program fun _ => do
    request (.beginWord (← request .newCell))
  | .semi => .program fun _ => do
    pushCell (← request .endWord)
  | .incr => .program fun payload => do
    let x ← request (.readFloat payload)
    request (.storeFloat payload (x.add .one))
  | .execute => .program fun _ => do
    let slot ← request .pop
    execute (← slot.value.asCell)
  | .callnow => .callTop .finish
  | .boxf => .program fun _ => do
    let value ← request (.boxFloat (← request .popFloat))
    request (.pushValue value)

inductive Wiring where
  /-- Make `dest` push the cell itself. -/
  | quote
  | refuse
  /-- Execute the cell now and link to it as well. -/
  | both
  /-- Link to the cell twice, the second time from a cell more. -/
  | twice
deriving DecidableEq, Repr

def strategy : Wiring → CellId → CellId → Program σ Unit
  | .quote, source, dest => request (.bindLiteral dest (.cell source))
  | .refuse, _, _ => throw .invalidHandle
  | .both, source, dest => do
    execute source
    request (.link source dest)
  | .twice, source, dest => do
    request (.link source dest)
    request (.link source (← request .newCell))

/-- Gives out every copy id that there is, in the order of their numbers. -/
def allCopyIds : Step σ (List CopyId) := do
  Machine.announce
  let spare := CopyTable.capacity - CopyTable.standardIds.length
  let registered ← (List.replicate spare Strategy.link).mapM Machine.registerStrategy
  return CopyTable.standardIds ++ registered

/-- The copy id with a number. Since only a table gives out ids, it is taken from a machine without
storage that is made for this and tells the same log. -/
def copyId (number : Nat) : Step σ CopyId := fun m =>
  let o := allCopyIds (.create #[] #[] ⟨0, .compatible⟩ m.verbosity)
  let found := do
    match (← o.answer)[number]? with
    | some id => return id
    | none => throw (.unknownCopyStrategy ⟨number⟩)
  ⟨found, m, o.events⟩

abbrev signature : Signature := ⟨Word, Wiring⟩

/-- A host of the stock words alone. -/
def host : Host signature := ⟨procedure, strategy⟩

end Stock
end ThreadedCode
