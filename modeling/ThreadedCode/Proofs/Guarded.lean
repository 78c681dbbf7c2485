import ThreadedCode.Proofs.Steps
import ThreadedCode.Machine.Lifetime

/-!
The requests once more, as a processor serves them. Sizes and words have so many bits and no more, and
buffers and tables have ends: where a sum or a difference leaves its type, or an access its bounds, a
guarded computation panics. It refuses with a fault where the plain one does.
-/
namespace ThreadedCode

variable {σ : Signature} {α β : Type}

/-- A computation that panics, or ends with an answer or a fault. -/
abbrev Guarded (α : Type) : Type := ExceptT Fault Option α

namespace Guarded

def sum (limit a b : Nat) : Option Nat := if a + b < limit then some (a + b) else none

def difference (a b : Nat) : Option Nat := if b ≤ a then some (a - b) else none

/-- A place in a table of `size` rows. -/
def place (size index : Nat) : Option Nat := if index < size then some index else none

/-- The bytes of a range. -/
def slice (buffer : Array UInt8) (start stop : Nat) : Option (List UInt8) :=
  if start ≤ stop ∧ stop ≤ buffer.size then some (buffer.extract start stop).toList else none

/-- Copies bytes out of a range into a buffer of `size` bytes. -/
def copied (size : Nat) (bytes : List UInt8) : Option (List UInt8) :=
  if bytes.length = size then some bytes else none

/-- Copies bytes into a range that is as long as they are. -/
def fill (buffer : Array UInt8) (start stop : Nat) (bytes : List UInt8) : Option (Array UInt8) :=
  if start ≤ stop ∧ stop ≤ buffer.size ∧ bytes.length = stop - start then
    some (ByteArena.overwrite buffer start bytes)
  else none

/-- The plain computation, which cannot panic. -/
def sure (answer : Except Fault α) : Guarded α := ExceptT.mk (some answer)

end Guarded

open Guarded

namespace ByteArena

/-- The end of a range of the bytes handed out. -/
def guardedEnd (a : ByteArena) (start length : Nat) : Guarded Nat :=
  match rangeEnd? start length with
  | some stop => if stop ≤ a.used then pure stop else throw .invalidHandle
  | none => throw .invalidHandle

def guardedAllocate (a : ByteArena) (size : Nat) : Guarded (Address × ByteArena) :=
  match rangeEnd? a.used size with
  | some stop =>
    if stop ≤ a.capacity then do
      let number ← sum sizeLimit a.used 1
      if number < wordLimit then pure (⟨a.used⟩, { a with used := stop }) else throw (a.full size)
    else throw (a.full size)
  | none => throw (a.full size)

def guardedRead (a : ByteArena) (start length : Nat) : Guarded (List UInt8) := do
  let stop ← a.guardedEnd start length
  slice a.buffer start stop

def guardedWrite (a : ByteArena) (start : Nat) (bytes : List UInt8) : Guarded ByteArena := do
  let stop ← a.guardedEnd start bytes.length
  let buffer ← fill a.buffer start stop bytes
  return { a with buffer }

def guardedReadWord (a : ByteArena) (address : Address) (field : Nat) : Guarded Nat := do
  let start ← sum sizeLimit address.offset field
  let bytes ← a.guardedRead start Word.size
  return Word.decode (← copied Word.size bytes)

def guardedWriteWord (a : ByteArena) (address : Address) (field value : Nat) : Guarded ByteArena := do
  let start ← sum sizeLimit address.offset field
  a.guardedWrite start (Word.encode value)

def guardedReadFloat (a : ByteArena) (value : Value) : Guarded Single := do
  let address ← value.asFloat
  let bytes ← a.guardedRead address.offset Word.size
  return Single.decode (← copied Word.size bytes)

def guardedStoreFloat (a : ByteArena) (value : Value) (x : Single) : Guarded ByteArena := do
  let address ← value.asFloat
  a.guardedWrite address.offset x.encode

def guardedReadText (a : ByteArena) (value : Value) : Guarded String := do
  let (address, length) ← value.asString
  let bytes ← a.guardedRead address.offset length
  match String.fromUTF8? ⟨bytes.toArray⟩ with
  | some text => return text
  | none => throw .invalidUtf8

end ByteArena

namespace CellArena

def guardedAllocate (a : CellArena σ) : Guarded (CellId × CellArena σ) :=
  if a.capacity ≤ a.used then throw (.cellArenaFull a.capacity)
  else do
    let number ← sum sizeLimit a.used 1
    if number < wordLimit then pure (⟨a.used⟩, { a with used := number })
    else throw (.cellArenaFull a.capacity)

def guardedGet (a : CellArena σ) (id : CellId) : Guarded (Cell σ) :=
  if a.used ≤ id.index then throw (.invalidCell id) else liftM a.cells[id.index]?

def guardedModify (a : CellArena σ) (id : CellId) (change : Cell σ → Option (Cell σ)) :
    Guarded (CellArena σ) := do
  let cell ← a.guardedGet id
  return { a with cells := a.cells.setIfInBounds id.index (← change cell) }

end CellArena

namespace OpenWords

/-- The open words, innermost first. -/
def guardedHeads (w : OpenWords) : Option (List CellId) :=
  if w.depth ≤ capacity then some w.heads else Option.none

def guardedPush (w : OpenWords) (head : CellId) : Guarded OpenWords :=
  if w.depth = capacity then throw .compileNestingExceeded
  else do
    let _ ← place capacity w.depth
    let _ ← sum sizeLimit w.depth 1
    return ⟨head :: w.heads⟩

def guardedPop (w : OpenWords) : Guarded (CellId × OpenWords) :=
  match w.heads with
  | [] => throw .notCompiling
  | head :: outer => do
    let _ ← place capacity (← difference w.depth 1)
    return (head, ⟨outer⟩)

def guardedCurrent (w : OpenWords) : Option (Option CellId) :=
  match w.heads with
  | [] => some .none
  | head :: _ => do
    let _ ← place capacity (w.depth - 1)
    return some head

end OpenWords

def CopyTable.guardedRegister (t : CopyTable σ) (strategy : Strategy σ) :
    Guarded (CopyId × CopyTable σ) :=
  if t.rows.length = capacity then throw .copyTableFull
  else do
    let _ ← place capacity t.rows.length
    let _ ← sum sizeLimit t.rows.length 1
    return (⟨t.rows.length⟩, ⟨t.rows ++ [strategy]⟩)

namespace Stack

def guardedPushSlot (s : Stack) (slot : Slot) : Guarded Stack :=
  if s.depth = capacity then throw .stackOverflow
  else do
    let top ← place capacity s.depth
    let depth ← sum sizeLimit s.depth 1
    return ⟨s.slots.setIfInBounds top slot, depth⟩

def guardedNth (s : Stack) (n : Nat) : Option (Option Slot) :=
  if s.depth ≤ n then some none
  else do
    let index ← difference (← difference s.depth 1) n
    return s.slots[index]?

def guardedPop (s : Stack) : Guarded (Slot × Stack) :=
  if s.depth = 0 then throw .stackUnderflow
  else do
    let depth ← difference s.depth 1
    let slot ← (s.slots[depth]? : Option Slot)
    return (slot, { s with depth })

end Stack

namespace Entry

def guardedReadField (bytes : ByteArena) (id : EntryId) (field : Field) : Guarded Nat :=
  bytes.guardedReadWord id.address field.place

def guardedRead (bytes : ByteArena) (id : EntryId) : Guarded Entry := do
  match CellId.ofNumber? (← guardedReadField bytes id .cell) with
  | none => throw .invalidHandle
  | some cell =>
    let copy := ⟨← guardedReadField bytes id .copy⟩
    match Address.ofNumber? (← guardedReadField bytes id .name) with
    | none => return ⟨cell, copy, .nil⟩
    | some address => return ⟨cell, copy, .string address (← guardedReadField bytes id .nameLength)⟩

def guardedNext? (bytes : ByteArena) (id : EntryId) : Guarded (Option EntryId) := do
  return (Address.ofNumber? (← guardedReadField bytes id .next)).map EntryId.mk

def guardedNameBytes (bytes : ByteArena) (id : EntryId) : Guarded (List UInt8) := do
  let (address, length) ← (← guardedRead bytes id).name.asString
  bytes.guardedRead address.offset length

end Entry

namespace Dictionary

def guardedAppend (d : Dictionary) (index : Fin bucketCount) (entry : EntryId) :
    Option Dictionary := do
  let bucket := d.buckets.get index
  let oldest := if bucket.newest.isSome then bucket.oldest else some entry
  let size ← sum wordLimit bucket.size 1
  let count ← sum sizeLimit d.count 1
  return { d with buckets := d.buckets.set index ⟨size, oldest, some entry⟩ index.isLt, count }

def guardedFollow (bytes : ByteArena) (mode : Mode) (query : List UInt8) :
    (hops : Nat) → (cursor found : Option EntryId) → Guarded (Option EntryId)
  | 0, _, found => return found
  | _ + 1, none, found => return found
  | hops + 1, some id, found => do
    let name ← Entry.guardedNameBytes bytes id
    match answers mode query name, mode with
    | true, .compatible => return some id
    | true, .strict => guardedFollow bytes mode query hops (← Entry.guardedNext? bytes id) (some id)
    | false, _ => guardedFollow bytes mode query hops (← Entry.guardedNext? bytes id) found

def guardedSearch (d : Dictionary) (bytes : ByteArena) (query : List UInt8) : Guarded EntryId := do
  let bucket := d.buckets.get (bucketOf d.mode query)
  match ← guardedFollow bytes d.mode query bucket.size bucket.oldest none with
  | some entry => return entry
  | none => throw .notFound

end Dictionary

/-- A step that can panic. -/
def GuardedStep (σ : Signature) (α : Type) : Type := Machine σ → Option (Outcome σ α)

namespace GuardedStep

/-- Does one step, and unless it panics or ends with a fault the next one. -/
def andThen (g : GuardedStep σ α) (next : α → GuardedStep σ β) : GuardedStep σ β := fun m =>
  (g m).bind fun o =>
    match o.answer with
    | .ok a => (next a o.machine).map fun rest => rest.after o.events
    | .error fault => some ⟨.error fault, o.machine, o.events⟩

def attempt (g : GuardedStep σ α) : GuardedStep σ (Except Fault α) := fun m =>
  (g m).map fun o => ⟨.ok o.answer, o.machine, o.events⟩

def log (notice : Notice) : GuardedStep σ Unit := fun m => some (Step.log notice m)

instance : Monad (GuardedStep σ) where
  pure a := fun m => some ⟨.ok a, m, []⟩
  bind := andThen

instance : MonadLift (Step σ) (GuardedStep σ) := ⟨fun s m => some (s m)⟩

instance : MonadLift Guarded (GuardedStep σ) :=
  ⟨fun g m => g.run.map fun answer => ⟨answer, m, []⟩⟩

end GuardedStep

namespace Machine

def guardedAllocate (size : Nat) : GuardedStep σ Address := do
  liftM (warnUnlessRoom size : Step σ Unit)
  let (address, bytes) ← (← get).bytes.guardedAllocate size
  modify fun m => { m with bytes }
  return address

def guardedWrite (address : Address) (data : List UInt8) : GuardedStep σ Unit := do
  let bytes ← (← get).bytes.guardedWrite address.offset data
  modify fun m => { m with bytes }

def guardedAllocateCopy (data : List UInt8) : GuardedStep σ Address := do
  let address ← guardedAllocate data.length
  guardedWrite address data
  return address

def guardedWriteField (entry : EntryId) (field : Entry.Field) (value : Nat) :
    GuardedStep σ Unit := do
  let bytes ← (← get).bytes.guardedWriteWord entry.address field.place value
  modify fun m => { m with bytes }

def guardedBoxFloat (x : Single) : GuardedStep σ Value := do
  return .float (← guardedAllocateCopy x.encode)

def guardedReadFloat (value : Value) : GuardedStep σ Single := do
  (← get).bytes.guardedReadFloat value

def guardedStoreFloat (value : Value) (x : Single) : GuardedStep σ Unit := do
  let bytes ← (← get).bytes.guardedStoreFloat value x
  modify fun m => { m with bytes }

def guardedBoxText (text : String) : GuardedStep σ Value := do
  let data := text.toUTF8.toList
  unless data.length < wordLimit do
    sure (.error ((← get).bytes.full data.length))
  let address ← guardedAllocate (← sum sizeLimit data.length 1)
  guardedWrite address data
  return .string address data.length

def guardedReadText (value : Value) : GuardedStep σ String := do
  (← get).bytes.guardedReadText value

def guardedChangeCell (id : CellId) (change : Cell σ → Option (Cell σ)) : GuardedStep σ Unit := do
  let cells ← (← get).cells.guardedModify id change
  modify fun m => { m with cells }

def guardedGrow (head : CellId) : GuardedStep σ Unit :=
  guardedChangeCell head fun cell => do
    return { cell with extent := ← sum wordLimit cell.extent 1 }

def guardedNewCell : GuardedStep σ CellId := do
  let m ← get
  unless m.cells.hasRoom do
    GuardedStep.log (.arenaFull (.cellArenaFull m.cells.capacity))
  let (id, cells) ← m.cells.guardedAllocate
  set { m with cells }
  let heads ← m.openWords.guardedHeads
  heads.reverse.forM guardedGrow
  return id

def guardedBind (cell : CellId) (procedure : Procedure σ) : GuardedStep σ Unit :=
  guardedChangeCell cell fun c => some (c.bound procedure)

def guardedSetPayload (cell : CellId) (payload : Value) : GuardedStep σ Unit :=
  guardedChangeCell cell fun c => some { c with payload }

def guardedBindLiteral (cell : CellId) (value : Value) : GuardedStep σ Unit := do
  guardedBind cell .literal
  guardedSetPayload cell value

def guardedLink (source dest : CellId) : GuardedStep σ Unit := do
  let _ ← (← get).cells.guardedGet source
  guardedChangeCell dest fun c => some (c.linked source)

def guardedInline (source dest : CellId) : GuardedStep σ Unit := do
  let copied ← (← get).cells.guardedGet source
  if copied.isLeaf then
    guardedChangeCell dest fun c =>
      some { c with procedure := copied.procedure, payload := copied.payload }
  else guardedLink source dest

def guardedBeginWord (head : CellId) : GuardedStep σ Unit := do
  let m ← get
  let _ ← m.cells.guardedGet head
  unless m.cells.last? = some head do
    sure (.error (.detachedWord head))
  if (← m.openWords.guardedHeads).contains head then
    sure (.error (.alreadyCompiling head))
  let openWords ← m.openWords.guardedPush head
  set { m with openWords }
  GuardedStep.log (.wordBegun head openWords.depth)

def guardedEndWord : GuardedStep σ CellId := do
  let m ← get
  let (head, openWords) ← m.openWords.guardedPop
  set { m with openWords }
  if Level.debug.heardBy m.verbosity then
    GuardedStep.log (.wordEnded head (← m.cells.guardedGet head).extent)
  return head

def guardedRegisterStrategy (strategy : Strategy σ) : GuardedStep σ CopyId := do
  let m ← get
  let (id, copies) ← m.copies.guardedRegister strategy
  set { m with copies }
  GuardedStep.log (.strategyRegistered id)
  return id

def guardedCreateEntry (cell : CellId) : GuardedStep σ EntryId := do
  let _ ← (← get).cells.guardedGet cell
  let entry : EntryId := ⟨← guardedAllocate Entry.size⟩
  guardedWriteField entry .cell cell.number
  guardedWriteField entry .copy CopyTable.link.number
  return entry

def guardedEntry (id : EntryId) : GuardedStep σ Entry := do
  Entry.guardedRead (← get).bytes id

def guardedEntryName (id : EntryId) : GuardedStep σ String := do
  guardedReadText (← guardedEntry id).name

def guardedSetEntryCopy (entry : EntryId) (copy : CopyId) : GuardedStep σ Unit := do
  let _ ← sure ((← get).copies.get copy)
  guardedWriteField entry .copy copy.number

/-- Makes an entry the newest of its bucket. -/
def guardedFile (index : Fin Dictionary.bucketCount) (id : EntryId) : GuardedStep σ Unit := do
  let dictionary ← (← get).dictionary.guardedAppend index id
  modify fun m => { m with dictionary }

def guardedDefine (name : String) (id : EntryId) : GuardedStep σ Unit := do
  unless (← guardedEntry id).name.isNil do
    sure (.error .alreadyDefined)
  let index := Dictionary.bucketOf (← get).dictionary.mode name.toUTF8.toList
  let (address, length) ← sure (← guardedBoxText name).asString
  guardedWriteField id .name address.number
  guardedWriteField id .nameLength length
  match (← get).dictionary.newest index with
  | some newest => guardedWriteField newest .next id.address.number
  | none => pure ()
  guardedFile index id
  GuardedStep.log (.defined name index)

def guardedSearch (name : String) : GuardedStep σ EntryId := do
  let m ← get
  m.dictionary.guardedSearch m.bytes name.toUTF8.toList

def guardedPush (slot : Slot) : GuardedStep σ Unit := do
  let m ← get
  unless m.stack.depth < Stack.capacity do
    GuardedStep.log (.stackOverflow Stack.capacity)
  let stack ← m.stack.guardedPushSlot slot
  set { m with stack }

def guardedPop : GuardedStep σ Slot := do
  let m ← get
  if m.stack.isEmpty then
    GuardedStep.log .stackUnderflow
  let (slot, stack) ← m.stack.guardedPop
  set { m with stack }
  return slot

def guardedFloatOf (slot : Slot) : GuardedStep σ Single :=
  match slot.value with
  | .float _ => guardedReadFloat slot.value
  | _ => return slot.scratch

def guardedPopFloat : GuardedStep σ Single := do
  match ← (← get).stack.guardedNth 0 with
  | none => sure (.error .stackUnderflow)
  | some top =>
    unless top.kind = .float do
      sure (.error (.typeMismatch .float top.kind))
    let x ← guardedFloatOf top
    let _ ← guardedPop
    return x

def guardedPushLiteral (value : Value) : GuardedStep σ Unit := do
  let scratch ← match value with
    | .float _ => guardedReadFloat value
    | _ => pure .zero
  guardedPush ⟨value.kind, value, scratch⟩

end Machine

/-- The guarded step that a request asks for. -/
def guardedPerform : (request : Request σ) → GuardedStep σ request.Answer
  | .newCell => Machine.guardedNewCell
  | .cell id => do (← get).cells.guardedGet id
  | .bind cell procedure => Machine.guardedBind cell procedure
  | .setPayload cell payload => Machine.guardedSetPayload cell payload
  | .bindLiteral cell value => Machine.guardedBindLiteral cell value
  | .link source dest => Machine.guardedLink source dest
  | .inline source dest => Machine.guardedInline source dest
  | .beginWord head => Machine.guardedBeginWord head
  | .endWord => Machine.guardedEndWord
  | .currentWord => do (← get).openWords.guardedCurrent
  | .registerStrategy strategy => Machine.guardedRegisterStrategy strategy
  | .strategy id => do sure ((← get).copies.get id)
  | .createEntry cell => Machine.guardedCreateEntry cell
  | .entry id => Machine.guardedEntry id
  | .entryName id => Machine.guardedEntryName id
  | .setEntryCopy entry copy => Machine.guardedSetEntryCopy entry copy
  | .define name entry => Machine.guardedDefine name entry
  | .search name => Machine.guardedSearch name
  | .noteRegistered count => GuardedStep.log (.primitivesRegistered count)
  | .boxFloat x => Machine.guardedBoxFloat x
  | .readFloat value => Machine.guardedReadFloat value
  | .storeFloat value x => Machine.guardedStoreFloat value x
  | .boxText text => Machine.guardedBoxText text
  | .readText value => Machine.guardedReadText value
  | .push slot => Machine.guardedPush slot
  | .pop => Machine.guardedPop
  | .popFloat => Machine.guardedPopFloat
  | .nth n => do (← get).stack.guardedNth n
  | .clear => modify fun m => { m with stack := m.stack.clear }
  | .print _ => pure ()

/-- Answers a request and keeps a record of it, unless it panics. -/
def guardedServe (request : Request σ) : GuardedStep σ request.Answer := do
  let answer ← (guardedPerform request).attempt
  Step.emit (.served request answer)
  sure answer

end ThreadedCode
