import ThreadedCode.Single.Nearest

/-!
Reading: the words that stand for numbers, and the single that each of them denotes.

A number is an optional sign and then either `inf`, `infinity` or `nan`, in letters of any case, or a
decimal. A decimal has at least one digit, in front of an optional point or behind it, and after that
an optional exponent. A decimal denotes the nearest single.
-/
namespace ThreadedCode
namespace Single

/-- The text without its sign, and whether that is a minus. -/
def splitSign : List Char → Bool × List Char
  | '-' :: rest => (true, rest)
  | '+' :: rest => (false, rest)
  | text => (false, text)

def digitValue (c : Char) : Nat := c.toNat - '0'.toNat

/-- The number that decimal digits denote. -/
def valueOf (digits : List Char) : Nat :=
  digits.foldl (fun n c => 10 * n + digitValue c) 0

/-- An exponent stops growing once it is beyond every use. -/
def exponentLimit : Nat := 65536

def exponentValue (digits : List Char) : Nat :=
  digits.foldl (fun n c => if n < exponentLimit then 10 * n + digitValue c else n) 0

/-- The exponent at the end of a decimal. -/
def readExponent : List Char → Option Int
  | [] => some 0
  | mark :: rest =>
    let (negative, digits) := splitSign rest
    if (mark = 'e' ∨ mark = 'E') ∧ digits ≠ [] ∧ digits.all Char.isDigit then
      let n : Int := exponentValue digits
      some (if negative then -n else n)
    else none

/-- The single nearest to `digits` times ten to the power `exponent`. Outside of the range of singles
the number of digits alone decides. -/
def ofDecimal (digits : Nat) (exponent : Int) : Single :=
  let places : Int := (toString digits).length + exponent
  if digits = 0 ∨ places < -45 then zero
  else if 39 < places then infinity
  else nearest (digits * Nat.pow 10 exponent.toNat) (Nat.pow 10 (-exponent).toNat)

/-- The digits behind the point, if there is one, and what follows them. -/
def splitFraction : List Char → List Char × List Char
  | '.' :: rest => (rest.takeWhile Char.isDigit, rest.dropWhile Char.isDigit)
  | text => ([], text)

def readDecimal (text : List Char) : Option Single := do
  let whole := text.takeWhile Char.isDigit
  let (fraction, rest) := splitFraction (text.dropWhile Char.isDigit)
  if whole = [] ∧ fraction = [] then none
  else
    let exponent ← readExponent rest
    return ofDecimal (valueOf (whole ++ fraction)) (exponent - fraction.length)

def readMagnitude (text : List Char) : Option Single :=
  let lower := text.map Char.toLower
  if lower = "inf".toList ∨ lower = "infinity".toList then some infinity
  else if lower = "nan".toList then some nan
  else readDecimal text

/-- The single that a word denotes, if it is a number at all. -/
def ofText? (word : String) : Option Single :=
  let (negative, text) := splitSign word.toList
  (readMagnitude text).map fun x => x.withSign negative

end Single
end ThreadedCode
