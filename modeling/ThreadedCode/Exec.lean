import ThreadedCode.Host

/-!
Execution. Executing a leaf calls it. Executing the head of a compound word walks the cells of its
run: a leaf in the run is called, a compound word inside it is executed as a unit, and the walk goes
on behind it. The first fault ends everything.

Executions nest, through links, inner words and native code, up to the limit in the settings.
-/
namespace ThreadedCode
namespace Machine

variable {σ : Signature}

/-- Calls a cell: one invocation of its procedure, on its payload. -/
def callWith (invoke : Procedure σ → Value → Step σ Unit) (cell : CellId) : Step σ Unit := do
  let target ← (← get).cells.get cell
  Step.log (.called cell)
  invoke target.procedure target.payload

/-- Invokes a procedure, given a way to execute cells and one to call the cell that a native
procedure has popped. -/
def invokeWith (host : Host σ) (exec popped : CellId → Step σ Unit) :
    Procedure σ → Value → Step σ Unit
  | .zero, _ => return ()
  | .link, payload => do
    exec (← payload.asCell)
  | .literal, payload => pushLiteral payload
  | .native name, payload =>
    match host.procedure name with
    | .program body => (body payload).run exec
    | .callTop next => do
      let answer ← Step.attempt do
        let slot ← serve .pop
        popped (← slot.value.asCell)
      (next answer).run exec

/-- Invokes a procedure on a machine with at most `slots` slots on its stack. Each direct call takes
one of them, so an empty stack has stopped the chain of calls when they have run out. -/
def invokeWithin (host : Host σ) (exec : CellId → Step σ Unit) :
    (slots : Nat) → Procedure σ → Value → Step σ Unit
  | 0 => invokeWith host exec fun _ => throw .stackUnderflow
  | slots + 1 => invokeWith host exec (callWith (invokeWithin host exec slots))

/-- Invokes a procedure on a payload, given a way to execute cells. -/
def invokeUsing (host : Host σ) (exec : CellId → Step σ Unit) (procedure : Procedure σ)
    (payload : Value) : Step σ Unit := do
  invokeWithin host exec (← get).stack.depth procedure payload

/-- Walks the `left` cells that start `offset` places behind a head, passing over the first `skip`
of them. -/
def walk (exec call : CellId → Step σ Unit) (head : CellId) :
    (left skip offset : Nat) → Step σ Unit
  | 0, _, _ => return ()
  | left + 1, skip + 1, offset => walk exec call head left skip (offset + 1)
  | left + 1, 0, offset => do
    match head.shift? offset with
    | none => throw (.invalidCell head)
    | some id =>
      let extent := (← (← get).cells.get id).extent
      if extent = 1 then call id else exec id
      walk exec call head left (extent - 1) (offset + 1)

/-- Executes a cell, given a way to execute the cells in its run. -/
def execRun (host : Host σ) (exec : CellId → Step σ Unit) (head : CellId) : Step σ Unit := do
  let call := callWith (invokeUsing host exec)
  let extent := (← (← get).cells.get head).extent
  if extent = 1 then call head
  else do
    Step.log (.walked head extent)
    walk exec call head (extent - 1) 0 1

/-- Does a step one execution deeper. -/
def nested (s : Step σ Unit) : Step σ Unit := do
  modify fun m => { m with callDepth := m.callDepth + 1 }
  let answer ← s.attempt
  modify fun m => { m with callDepth := m.callDepth - 1 }
  answer

/-- Executes a cell with `budget` levels of nesting left. -/
def execWithin (host : Host σ) : (budget : Nat) → CellId → Step σ Unit
  | 0, cell => do
    let depth := (← get).callDepth
    Step.log (.callDepthExceeded depth cell)
    throw (.callDepthExceeded depth)
  | budget + 1, cell => nested (execRun host (execWithin host budget) cell)

/-- The levels of nesting that a machine has left. -/
def callBudget (m : Machine σ) : Nat := m.settings.maxCallDepth - m.callDepth

/-- Executes a cell. -/
def exec (host : Host σ) (cell : CellId) : Step σ Unit := do
  execWithin host (← get).callBudget cell

/-- Invokes a procedure on a payload. -/
def invoke (host : Host σ) (procedure : Procedure σ) (payload : Value) : Step σ Unit :=
  invokeUsing host (exec host) procedure payload

/-- Calls a cell. -/
def call (host : Host σ) (cell : CellId) : Step σ Unit := callWith (invoke host) cell

end Machine

/-- Runs a program on a machine. -/
def Program.start {σ : Signature} {α : Type} (host : Host σ) (p : Program σ α) : Step σ α :=
  p.run (Machine.exec host)

end ThreadedCode
