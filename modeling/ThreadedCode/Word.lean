/-!
Thirty-two bit words as they are stored: four bytes, the least significant first.
-/
namespace ThreadedCode

/-- A stored word has thirty-two bits. -/
def wordLimit : Nat := 4294967296

/-- A size, or the end of a range of bytes, has sixty-four bits. -/
def sizeLimit : Nat := 18446744073709551616

namespace Word

/-- The number of bytes of a stored word. -/
def size : Nat := 4

/-- The four bytes of a number, the least significant first. -/
def encode (n : Nat) : List UInt8 :=
  [UInt8.ofNat n, UInt8.ofNat (n / 256), UInt8.ofNat (n / 65536), UInt8.ofNat (n / 16777216)]

/-- The number whose bytes these are, the least significant first. -/
def decode : List UInt8 → Nat
  | [] => 0
  | b :: rest => b.toNat + 256 * decode rest

@[simp] theorem length_encode (n : Nat) : (encode n).length = size := rfl

theorem decode_encode (n : Nat) (h : n < wordLimit) : decode (encode n) = n := by
  simp only [encode, decode, UInt8.toNat_ofNat', wordLimit] at *
  omega

end Word
end ThreadedCode
