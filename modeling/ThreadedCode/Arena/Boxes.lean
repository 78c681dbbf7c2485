import ThreadedCode.Arena.Bytes
import ThreadedCode.Single.Basic
import ThreadedCode.Value

/-!
Floats and strings boxed in the byte arena.
-/
namespace ThreadedCode
namespace ByteArena

/-- The float that a value refers to. -/
def readFloat (a : ByteArena) (value : Value) : Except Fault Single := do
  let address ← value.asFloat
  return Single.decode (← a.read address.offset Word.size)

/-- Overwrites the float that a value refers to. -/
def storeFloat (a : ByteArena) (value : Value) (x : Single) : Except Fault ByteArena := do
  let address ← value.asFloat
  a.write address.offset x.encode

/-- The string that a value refers to. -/
def readText (a : ByteArena) (value : Value) : Except Fault String := do
  let (address, length) ← value.asString
  let bytes ← a.read address.offset length
  match String.fromUTF8? ⟨bytes.toArray⟩ with
  | some text => return text
  | none => throw .invalidUtf8

end ByteArena
end ThreadedCode
