import ThreadedCode.Step

/-!
The beginning of a machine's life, and how it starts over.
-/
namespace ThreadedCode
namespace Machine

variable {σ : Signature}

/-- Tells the log that a new machine is ready. -/
def announce : Step σ Unit := do
  let m ← get
  Step.log (.cellArenaReady m.cells.capacity)
  Step.log (.byteArenaReady m.bytes.capacity)
  Step.log (.machineReady m.bytes.capacity m.cells.capacity m.settings.mode)

/-- Drops every word, cell and boxed value. -/
def reset : Step σ Unit := do
  modify cleared
  let m ← get
  Step.log (.cellArenaReady m.cells.capacity)
  Step.log (.byteArenaReady m.bytes.capacity)

end Machine
end ThreadedCode
