import ThreadedCode.Words
import ThreadedCode.Single.Shortest

/-!
The native words of a postfix calculator, for any host that wants them.
-/
namespace ThreadedCode
namespace Calculator

variable {σ : Signature}

inductive Word where
  | greet
  | add
  | mul
  | dup
  /-- Print the top slot and drop it. -/
  | print
deriving DecidableEq, Repr

/-- The names that the words are defined under, in the order of their definition. -/
def vocabulary : List (String × Word) :=
  [("test", .greet), ("+", .add), ("*", .mul), ("dup", .dup), (".", .print)]

def greeting : String := "this is a plugin!"

/-- What is printed for a slot. -/
def describe (slot : Slot) : Program σ String :=
  match slot.kind, slot.value with
  | .float, .float _ => do return (← request (.readFloat slot.value)).text
  | .float, _ => return slot.scratch.text
  | _, .string _ _ => request (.readText slot.value)
  | _, .cell id => return id.describe
  | _, _ => return "nil"

/-- The top slot, left where it is. -/
def top : Program σ Slot := do
  match ← request (.nth 0) with
  | some slot => return slot
  | none => throw .stackUnderflow

/-- Replaces the two floats on top by one; the upper one is the second operand. -/
def combine (operation : Single → Single → Single) : Program σ Unit := do
  let b ← request .popFloat
  let a ← request .popFloat
  request (.pushFloat (operation a b))

def procedure : Word → Body σ
  | .greet => .program fun _ => request (.print greeting)
  | .add => .program fun _ => combine Single.add
  | .mul => .program fun _ => combine Single.mul
  | .dup => .program fun _ => do
    request (.push (← top))
  | .print => .program fun _ => do
    request (.print (← describe (← top)))
    let _ ← request .pop

/-- Defines the whole vocabulary, under a host's names for the words. -/
def register (name : Word → σ.Native) : Program σ Unit :=
  Words.register (vocabulary.map fun (text, word) => (text, .native (name word)))

end Calculator
end ThreadedCode
