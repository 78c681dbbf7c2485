import ThreadedCode.Step
import ThreadedCode.Arena.Boxes

/-!
Steps on the byte arena. An arena that is too full for what is asked of it is worth a warning.
-/
namespace ThreadedCode
namespace Machine

variable {σ : Signature}

/-- Warns if the byte arena has not so many bytes left. -/
def warnUnlessRoom (size : Nat) : Step σ Unit := do
  let m ← get
  unless m.bytes.hasRoom size do
    Step.log (.arenaFull (m.bytes.full size))

/-- Hands out the next `size` bytes. -/
def allocate (size : Nat) : Step σ Address := do
  warnUnlessRoom size
  let (address, bytes) ← (← get).bytes.allocate size
  modify fun m => { m with bytes }
  return address

/-- Hands out as many bytes as are given and copies them in. -/
def allocateCopy (data : List UInt8) : Step σ Address := do
  warnUnlessRoom data.length
  let (answer, bytes) := (← get).bytes.allocateCopy data
  modify fun m => { m with bytes }
  answer

/-- Overwrites the bytes from an address on. -/
def write (address : Address) (data : List UInt8) : Step σ Unit := do
  let bytes ← (← get).bytes.write address.offset data
  modify fun m => { m with bytes }

/-- Overwrites a word of an entry's record. -/
def writeField (entry : EntryId) (field : Entry.Field) (value : Nat) : Step σ Unit := do
  let bytes ← Entry.writeField (← get).bytes entry field value
  modify fun m => { m with bytes }

def boxFloat (x : Single) : Step σ Value := do
  return .float (← allocateCopy x.encode)

def readFloat (value : Value) : Step σ Single := do
  (← get).bytes.readFloat value

def storeFloat (value : Value) (x : Single) : Step σ Unit := do
  let bytes ← (← get).bytes.storeFloat value x
  modify fun m => { m with bytes }

/-- Copies a string into the arena. The zero byte behind it is there already, since bytes not yet
handed out are zero. -/
def boxText (text : String) : Step σ Value := do
  let data := text.toUTF8.toList
  unless data.length < wordLimit do
    throw ((← get).bytes.full data.length)
  let address ← allocate (data.length + 1)
  write address data
  return .string address data.length

def readText (value : Value) : Step σ String := do
  (← get).bytes.readText value

end Machine
end ThreadedCode
