import ThreadedCode.Fault

/-!
Values: what a machine computes with.
-/
namespace ThreadedCode

/-- A tagged reference into one of the arenas. A value never owns what it points at. -/
inductive Value where
  | nil
  /-- A float boxed in the byte arena. -/
  | float (address : Address)
  /-- A string in the byte arena. A zero byte, not counted in the length, follows its bytes. -/
  | string (address : Address) (length : Nat)
  | cell (id : CellId)
deriving DecidableEq, Repr

namespace Value

def kind : Value → Kind
  | .nil => .nil
  | .float _ => .float
  | .string _ _ => .string
  | .cell _ => .cell

def isNil : Value → Bool
  | .nil => true
  | _ => false

def asCell : Value → Except Fault CellId
  | .cell id => .ok id
  | other => .error (.typeMismatch .cell other.kind)

def asFloat : Value → Except Fault Address
  | .float address => .ok address
  | other => .error (.typeMismatch .float other.kind)

/-- The first byte of a string and its length. -/
def asString : Value → Except Fault (Address × Nat)
  | .string address length => .ok (address, length)
  | other => .error (.typeMismatch .string other.kind)

end Value
end ThreadedCode
