import ThreadedCode.Word

/-!
Single precision floats: their bits, their arithmetic and their stored form.
-/
namespace ThreadedCode

/-- A single precision float, by its thirty-two bits. -/
structure Single where
  bits : UInt32
deriving DecidableEq, Repr

namespace Single

def zero : Single := ⟨0⟩

def one : Single := ⟨0x3F800000⟩

def infinity : Single := ⟨0x7F800000⟩

/-- A quiet NaN. -/
def nan : Single := ⟨0x7FC00000⟩

def add (a b : Single) : Single :=
  ⟨(Float32.ofBits a.bits + Float32.ofBits b.bits).toBits⟩

def mul (a b : Single) : Single :=
  ⟨(Float32.ofBits a.bits * Float32.ofBits b.bits).toBits⟩

def isNegative (x : Single) : Bool := 0x80000000 ≤ x.bits

/-- The bits without the sign. They order the magnitudes. -/
def magnitude (x : Single) : Nat := (x.bits &&& 0x7FFFFFFF).toNat

def isNan (x : Single) : Bool := infinity.bits.toNat < x.magnitude

def isInfinite (x : Single) : Bool := x.magnitude = infinity.bits.toNat

def withSign (x : Single) (negative : Bool) : Single :=
  if negative then ⟨x.bits ||| 0x80000000⟩ else x

/-- The bytes of a boxed float. -/
def encode (x : Single) : List UInt8 := Word.encode x.bits.toNat

def decode (bytes : List UInt8) : Single := ⟨UInt32.ofNat (Word.decode bytes)⟩

theorem decode_encode (x : Single) : decode (encode x) = x := by
  simp [decode, encode, Word.decode_encode x.bits.toNat x.bits.toNat_lt]

end Single
end ThreadedCode
