/-!
The two ways in which a dictionary resolves names.
-/
namespace ThreadedCode

/-- How names are hashed and matched. -/
inductive Mode where
  /-- A name is hashed by its first byte and its length, a query finds the names that begin with
  it, and of those the oldest. -/
  | compatible
  /-- A name is hashed by all its bytes, a query finds the names equal to it, and of those the
  newest. -/
  | strict
deriving DecidableEq, Repr

def Mode.name : Mode → String
  | .compatible => "Compatible"
  | .strict => "Strict"

end ThreadedCode
