import ThreadedCode.Program

/-!
The code behind the names that a host gives to its procedures and copy strategies.
-/
namespace ThreadedCode

/-- What a native procedure does. -/
inductive Body (σ : Signature) where
  /-- Run a program on the payload. -/
  | program (body : Value → Program σ Unit)
  /-- Pop the top slot, call the cell in it, and go on from how that ended. Only here is a cell
  called past the limit on nested executions; every such call takes a slot off the stack first. -/
  | callTop (next : Except Fault Unit → Program σ Unit)

structure Host (σ : Signature) where
  procedure : σ.Native → Body σ
  /-- Wires the cell of an entry, given first, into a freshly compiled one. -/
  strategy : σ.Strategy → CellId → CellId → Program σ Unit

variable {σ : Signature}

/-- The program that wires `source` into `dest`. -/
def Strategy.program (host : Host σ) : Strategy σ → CellId → CellId → Program σ Unit
  | .link, source, dest => request (.link source dest)
  | .inline, source, dest => request (.inline source dest)
  | .immediate, source, dest => do
    execute source
    request (.bind dest .zero)
  | .host name, source, dest => host.strategy name source dest

end ThreadedCode
