import ThreadedCode.Log
import ThreadedCode.Stack
import ThreadedCode.CopyTable
import ThreadedCode.OpenWords
import ThreadedCode.Arena.Cells
import ThreadedCode.Dictionary.Table

/-!
The whole state of a machine. Its storage is given to it once and for all; nothing else is
allocated afterwards.
-/
namespace ThreadedCode

structure Settings where
  /-- How many executions may be nested inside one another, links included. -/
  maxCallDepth : Nat
  mode : Mode
deriving DecidableEq, Repr

structure Machine (σ : Signature) where
  bytes : ByteArena
  cells : CellArena σ
  stack : Stack
  dictionary : Dictionary
  openWords : OpenWords
  copies : CopyTable σ
  settings : Settings
  /-- The number of executions under way. -/
  callDepth : Nat
  /-- The level that the log's listener asked for. -/
  verbosity : Option Level

namespace Machine

variable {σ : Signature}

/-- A machine on two buffers, whatever they hold. -/
def create (bytes : Array UInt8) (cells : Array (Cell σ)) (settings : Settings)
    (verbosity : Option Level) : Machine σ where
  bytes := .create bytes
  cells := .create cells
  stack := .empty
  dictionary := .empty settings.mode
  openWords := .none
  copies := .standard
  settings
  callDepth := 0
  verbosity

/-- The machine emptied, on the same buffers. The copy strategies stay registered. -/
def cleared (m : Machine σ) : Machine σ :=
  { m with
    bytes := m.bytes.reset
    cells := m.cells.reset
    stack := m.stack.clear
    dictionary := .empty m.settings.mode
    openWords := .none
    callDepth := 0 }

end Machine
end ThreadedCode
