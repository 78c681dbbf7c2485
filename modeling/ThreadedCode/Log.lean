import ThreadedCode.Dictionary.Mode
import ThreadedCode.Fault

/-!
The log. What is worth a record does not depend on who listens: each notice has a level, and a
listener hears the notices of its own level and of the more urgent ones.
-/
namespace ThreadedCode

inductive Level where
  | warn
  | debug
  | trace
deriving DecidableEq, Repr

namespace Level

def name : Level → String
  | .warn => "WARN"
  | .debug => "DEBUG"
  | .trace => "TRACE"

/-- The least urgent level ranks highest. -/
def rank : Level → Nat
  | .warn => 0
  | .debug => 1
  | .trace => 2

/-- Whether a listener hears this level; `none` is a listener that hears nothing. -/
def heardBy (level : Level) : Option Level → Bool
  | none => false
  | some listener => level.rank ≤ listener.rank

end Level

/-- Something that the machine tells its log. -/
inductive Notice where
  | cellArenaReady (capacity : Nat)
  | byteArenaReady (capacity : Nat)
  | machineReady (bytes cells : Nat) (mode : Mode)
  | arenaFull (fault : Fault)
  | stackOverflow (depth : Nat)
  | stackUnderflow
  | callDepthExceeded (depth : Nat) (cell : CellId)
  | wordBegun (head : CellId) (depth : Nat)
  | wordEnded (head : CellId) (extent : Nat)
  | defined (name : String) (bucket : Nat)
  | strategyRegistered (id : CopyId)
  | primitivesRegistered (count : Nat)
  | called (cell : CellId)
  | walked (head : CellId) (extent : Nat)
deriving DecidableEq, Repr

namespace Notice

def level : Notice → Level
  | .arenaFull _ | .stackOverflow _ | .stackUnderflow | .callDepthExceeded _ _ => .warn
  | .called _ | .walked _ _ => .trace
  | _ => .debug

def text : Notice → String
  | .cellArenaReady capacity => "cell arena configured with " ++ toString capacity ++ " cells"
  | .byteArenaReady capacity => "byte arena configured with " ++ toString capacity ++ " bytes"
  | .machineReady bytes cells mode =>
    "vm ready: " ++ toString bytes ++ " bytes, " ++ toString cells ++ " cells, "
      ++ mode.name ++ " dictionary"
  | .arenaFull fault => fault.message
  | .stackOverflow depth => "stack overflow at depth " ++ toString depth
  | .stackUnderflow => "stack underflow"
  | .callDepthExceeded depth cell =>
    "call depth " ++ toString depth ++ " exceeded at " ++ cell.describe
  | .wordBegun head depth => "begin word " ++ head.describe ++ " (depth " ++ toString depth ++ ")"
  | .wordEnded head extent => "end word " ++ head.describe ++ " with extent " ++ toString extent
  | .defined name bucket => "defined '" ++ name ++ "' in bucket " ++ toString bucket
  | .strategyRegistered id => "registered copy procedure " ++ toString id.number
  | .primitivesRegistered count => "registered " ++ toString count ++ " primitives"
  | .called cell => "call " ++ cell.describe
  | .walked head extent => "exec " ++ head.describe ++ " with extent " ++ toString extent

end Notice
end ThreadedCode
