import ThreadedCode.Handle

/-!
Faults: why a machine refuses what it is asked for, and the sentence that says so.
-/
namespace ThreadedCode

/-- What a stack slot or a value can hold. -/
inductive Kind where
  | nil
  | float
  | string
  | cell
deriving DecidableEq, Repr

def Kind.name : Kind → String
  | .nil => "nil"
  | .float => "float"
  | .string => "string"
  | .cell => "cell"

/-- Why the machine refuses a request. -/
inductive Fault where
  | byteArenaFull (requested used capacity : Nat)
  | cellArenaFull (capacity : Nat)
  | invalidCell (id : CellId)
  | invalidHandle
  | stackOverflow
  | stackUnderflow
  | typeMismatch (expected got : Kind)
  | notFound
  | alreadyDefined
  | callDepthExceeded (depth : Nat)
  | compileNestingExceeded
  | notCompiling
  | detachedWord (head : CellId)
  | alreadyCompiling (head : CellId)
  | copyTableFull
  | unknownCopyStrategy (id : CopyId)
  | invalidUtf8
deriving DecidableEq, Repr

/-- The sentence a user reads. -/
def Fault.message : Fault → String
  | .byteArenaFull requested used capacity =>
    "byte arena exhausted: requested " ++ toString requested ++ " bytes with "
      ++ toString used ++ "/" ++ toString capacity ++ " in use"
  | .cellArenaFull capacity =>
    "cell arena exhausted: all " ++ toString capacity ++ " cells in use"
  | .invalidCell id => id.describe ++ " is not an allocated cell"
  | .invalidHandle => "handle does not refer to live arena storage"
  | .stackOverflow => "stack overflow"
  | .stackUnderflow => "stack underflow"
  | .typeMismatch expected got => "expected " ++ expected.name ++ ", got " ++ got.name
  | .notFound => "word not found"
  | .alreadyDefined => "entry is already defined"
  | .callDepthExceeded depth => "call depth exceeded (" ++ toString depth ++ ")"
  | .compileNestingExceeded => "too many nested word definitions"
  | .notCompiling => "no word is being compiled"
  | .detachedWord head => head.describe ++ " is not the most recently allocated cell"
  | .alreadyCompiling head => head.describe ++ " is already being compiled"
  | .copyTableFull => "copy procedure table is full"
  | .unknownCopyStrategy id => "unknown copy procedure " ++ toString id.number
  | .invalidUtf8 => "string is not valid utf-8"

end ThreadedCode
