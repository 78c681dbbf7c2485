import ThreadedCode.Machine.Boxing

/-!
Steps on the value stack. Its overflow and its underflow are worth a warning.
-/
namespace ThreadedCode
namespace Machine

variable {σ : Signature}

def push (slot : Slot) : Step σ Unit := do
  let m ← get
  unless m.stack.depth < Stack.capacity do
    Step.log (.stackOverflow Stack.capacity)
  let stack ← m.stack.pushSlot slot
  set { m with stack }

def pop : Step σ Slot := do
  let m ← get
  if m.stack.isEmpty then
    Step.log .stackUnderflow
  let (slot, stack) ← m.stack.pop
  set { m with stack }
  return slot

/-- The float of a slot: the boxed one if there is one, else the scratch. -/
def floatOf (slot : Slot) : Step σ Single :=
  match slot.value with
  | .float _ => readFloat slot.value
  | _ => return slot.scratch

/-- Pops a float, boxed or not. Anything else stays where it is. -/
def popFloat : Step σ Single := do
  match (← get).stack.top? with
  | none => throw .stackUnderflow
  | some top =>
    unless top.kind = .float do
      throw (.typeMismatch .float top.kind)
    let x ← floatOf top
    let _ ← pop
    return x

/-- Pushes a value with the value's kind, and a boxed float also unboxed. -/
def pushLiteral (value : Value) : Step σ Unit := do
  let scratch ← match value with
    | .float _ => readFloat value
    | _ => pure .zero
  push ⟨value.kind, value, scratch⟩

end Machine
end ThreadedCode
