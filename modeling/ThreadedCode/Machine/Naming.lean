import ThreadedCode.Machine.Boxing

/-!
Steps on entries and the dictionary.
-/
namespace ThreadedCode
namespace Machine

variable {σ : Signature}

/-- Allocates an entry for a cell, without a name. It links. -/
def createEntry (cell : CellId) : Step σ EntryId := do
  let _ ← (← get).cells.get cell
  let entry : EntryId := ⟨← allocate Entry.size⟩
  writeField entry .cell cell.number
  writeField entry .copy CopyTable.link.number
  return entry

def entry (id : EntryId) : Step σ Entry := do
  Entry.read (← get).bytes id

def entryName (id : EntryId) : Step σ String := do
  readText (← entry id).name

def setEntryCopy (entry : EntryId) (copy : CopyId) : Step σ Unit := do
  let _ ← (← get).copies.get copy
  writeField entry .copy copy.number

/-- Names an entry and makes it the newest of its bucket. -/
def define (name : String) (id : EntryId) : Step σ Unit := do
  unless (← entry id).name.isNil do
    throw .alreadyDefined
  let index := Dictionary.bucketOf (← get).dictionary.mode name.toUTF8.toList
  let (address, length) ← (← boxText name).asString
  writeField id .name address.number
  writeField id .nameLength length
  match (← get).dictionary.newest index with
  | some newest => writeField newest .next id.address.number
  | none => pure ()
  modify fun m => { m with dictionary := m.dictionary.append index id }
  Step.log (.defined name index)

def search (name : String) : Step σ EntryId := do
  let m ← get
  m.dictionary.search m.bytes name.toUTF8.toList

end Machine
end ThreadedCode
