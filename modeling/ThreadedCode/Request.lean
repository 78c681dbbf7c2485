import ThreadedCode.Dictionary.Entry
import ThreadedCode.Cell
import ThreadedCode.Stack

/-!
What native code may ask of the machine, short of execution, and the type of each answer.
-/
namespace ThreadedCode

inductive Request (σ : Signature) where
  /-- Allocate a cell. It becomes part of every open word. -/
  | newCell
  | cell (id : CellId)
  /-- Give a cell a procedure and no payload. -/
  | bind (cell : CellId) (procedure : Procedure σ)
  | setPayload (cell : CellId) (payload : Value)
  /-- Make a cell push a value. -/
  | bindLiteral (cell : CellId) (value : Value)
  /-- Make `dest` execute `source`. -/
  | link (source dest : CellId)
  /-- Make `dest` do what the leaf `source` does. -/
  | inline (source dest : CellId)
  /-- Start to extend the cell allocated last. -/
  | beginWord (head : CellId)
  /-- Finish the innermost open word. -/
  | endWord
  /-- The innermost open word. -/
  | currentWord
  | registerStrategy (strategy : Strategy σ)
  | strategy (id : CopyId)
  /-- Allocate an entry without a name. -/
  | createEntry (cell : CellId)
  | entry (id : EntryId)
  | entryName (id : EntryId)
  | setEntryCopy (entry : EntryId) (copy : CopyId)
  /-- Name an entry and put it into the dictionary. -/
  | define (name : String) (entry : EntryId)
  | search (name : String)
  /-- Tell the log that a table of primitives has been defined. -/
  | noteRegistered (count : Nat)
  | boxFloat (x : Single)
  | readFloat (value : Value)
  /-- Overwrite a boxed float in place. -/
  | storeFloat (value : Value) (x : Single)
  | boxText (text : String)
  | readText (value : Value)
  | push (slot : Slot)
  | pop
  /-- Pop a float, boxed or not. -/
  | popFloat
  /-- The slot so many places below the top. -/
  | nth (n : Nat)
  | clear
  /-- Put out a line of text. -/
  | print (line : String)

/-- What a request is answered with. -/
abbrev Request.Answer {σ : Signature} : Request σ → Type
  | .newCell => CellId
  | .cell _ => Cell σ
  | .bind _ _ => Unit
  | .setPayload _ _ => Unit
  | .bindLiteral _ _ => Unit
  | .link _ _ => Unit
  | .inline _ _ => Unit
  | .beginWord _ => Unit
  | .endWord => CellId
  | .currentWord => Option CellId
  | .registerStrategy _ => CopyId
  | .strategy _ => Strategy σ
  | .createEntry _ => EntryId
  | .entry _ => Entry
  | .entryName _ => String
  | .setEntryCopy _ _ => Unit
  | .define _ _ => Unit
  | .search _ => EntryId
  | .noteRegistered _ => Unit
  | .boxFloat _ => Value
  | .readFloat _ => Single
  | .storeFloat _ _ => Unit
  | .boxText _ => Value
  | .readText _ => String
  | .push _ => Unit
  | .pop => Slot
  | .popFloat => Single
  | .nth _ => Option Slot
  | .clear => Unit
  | .print _ => Unit

namespace Request

variable {σ : Signature}

/-- Push a value with the value's kind. -/
def pushValue (value : Value) : Request σ := .push (.ofValue value)

/-- Push an unboxed float. -/
def pushFloat (x : Single) : Request σ := .push (.ofFloat x)

end Request
end ThreadedCode
