import ThreadedCode.Dictionary.Mode

/-!
The bucket of a name: a multiply-by-33 hash in wrapping words, reduced at every step.
-/
namespace ThreadedCode

namespace Dictionary

def bucketCount : Nat := 128

def hashPrime : UInt32 := 0x7FFFFFFF

def hashSeed : UInt32 := 5381

/-- One step of the hash: fold `c` into `h`. -/
def hashStep (h c : UInt32) : UInt32 := (((h <<< 5) + h) ^^^ c) % hashPrime

/-- A byte as a word with the byte's sign. -/
def signExtended (b : UInt8) : UInt32 := b.toInt8.toInt32.toUInt32

/-- What the hash folds for each byte of a name. The compatible hash folds the first byte every
time, so it sees that byte and the length only. -/
def folded (mode : Mode) (name : List UInt8) : List UInt32 :=
  match mode with
  | .compatible => name.map fun _ => signExtended (name.headD 0)
  | .strict => name.map UInt8.toUInt32

def hash (mode : Mode) (name : List UInt8) : UInt32 := (folded mode name).foldl hashStep hashSeed

def bucketOf (mode : Mode) (name : List UInt8) : Fin bucketCount :=
  ⟨(hash mode name).toNat % bucketCount, Nat.mod_lt _ (by decide)⟩

end Dictionary
end ThreadedCode
