import ThreadedCode.Single.Basic
import ThreadedCode.Value

/-!
The value stack. Slots are reused in place: a pop leaves the slot's contents behind and a push
clears them, so nothing above the depth can be seen.
-/
namespace ThreadedCode

/-- A stack slot. An unboxed float has the kind of a float, no value, and its number in
`scratch`. -/
structure Slot where
  kind : Kind
  value : Value
  scratch : Single
deriving DecidableEq, Repr

namespace Slot

def blank : Slot := ⟨.nil, .nil, .zero⟩

/-- A slot for a value, with the value's kind. -/
def ofValue (value : Value) : Slot := ⟨value.kind, value, .zero⟩

/-- A slot for an unboxed float. -/
def ofFloat (x : Single) : Slot := ⟨.float, .nil, x⟩

end Slot

def Stack.capacity : Nat := 32

structure Stack where
  slots : Vector Slot Stack.capacity
  depth : Nat
deriving DecidableEq, Repr

namespace Stack

def empty : Stack := ⟨Vector.replicate capacity .blank, 0⟩

/-- The slots in use, bottom first. -/
def active (s : Stack) : List Slot := s.slots.toList.take s.depth

def isEmpty (s : Stack) : Bool := s.depth == 0

/-- The slot `n` places below the top. -/
def nth? (s : Stack) (n : Nat) : Option Slot :=
  if n < s.depth then s.slots[s.depth - 1 - n]? else none

def top? (s : Stack) : Option Slot := s.nth? 0

/-- Claims a new top slot, cleared. -/
def push (s : Stack) : Except Fault Stack :=
  if s.depth < capacity then
    .ok ⟨s.slots.setIfInBounds s.depth .blank, s.depth + 1⟩
  else .error .stackOverflow

/-- Fills in the top slot. -/
def setTop (s : Stack) (slot : Slot) : Stack :=
  { s with slots := s.slots.setIfInBounds (s.depth - 1) slot }

/-- Claims a new top slot and fills it in. -/
def pushSlot (s : Stack) (slot : Slot) : Except Fault Stack := do
  let s ← s.push
  return s.setTop slot

/-- Gives up the top slot. -/
def pop (s : Stack) : Except Fault (Slot × Stack) :=
  match s.top? with
  | some slot => .ok (slot, { s with depth := s.depth - 1 })
  | none => .error .stackUnderflow

def clear (s : Stack) : Stack := { s with depth := 0 }

end Stack
end ThreadedCode
