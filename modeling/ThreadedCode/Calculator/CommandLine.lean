import ThreadedCode.Calculator.Session

/-!
The command line of the calculator: words, and between them options, which two dashes end.
-/
namespace ThreadedCode
namespace Calculator
namespace CommandLine

/-- What has been read of a command line so far. -/
structure Draft where
  bytes : Option Nat
  cells : Option Nat
  strict : Bool
  words : List String
deriving DecidableEq, Repr

def Draft.blank : Draft := ⟨none, none, false, []⟩

def Draft.options (d : Draft) : Options where
  bytes := d.bytes.getD 65536
  cells := d.cells.getD 1024
  mode := if d.strict then .strict else .compatible
  words := d.words

/-- A size in decimal digits, with a plus at most in front. -/
def readSize (text : String) : Option Nat :=
  let digits := match text.toList with
    | '+' :: rest => rest
    | other => other
  let n := Single.valueOf digits
  if digits ≠ [] ∧ digits.all Char.isDigit ∧ n < sizeLimit then some n else none

/-- The options with a size. -/
inductive Sized where
  | bytes
  | cells
deriving DecidableEq, Repr

/-- Takes down a size, unless the option has been given before. -/
def Draft.withSize (d : Draft) (option : Sized) (text : String) : Option Draft := do
  let n ← readSize text
  match option, d.bytes, d.cells with
  | .bytes, none, _ => some { d with bytes := some n }
  | .cells, _, none => some { d with cells := some n }
  | _, _, _ => none

def Draft.withStrict (d : Draft) : Option Draft :=
  if d.strict then none else some { d with strict := true }

/-- An argument, by its form. -/
inductive Argument where
  | word
  | endOfOptions
  | strict
  /-- A size option whose value is the next argument. -/
  | sized (option : Sized)
  /-- A size option and its value. -/
  | sizedAs (option : Sized) (value : String)
  | unknown
deriving DecidableEq, Repr

/-- A single dash is a word; anything else that starts with a dash is an option. -/
def classify (argument : String) : Argument :=
  let text := argument.toList
  if text.head? ≠ some '-' ∨ argument = "-" then .word
  else
    let name := String.ofList (text.takeWhile (· != '='))
    let value := match text.dropWhile (· != '=') with
      | [] => none
      | _ :: rest => some (String.ofList rest)
    match name, value with
    | "--", none => .endOfOptions
    | "--strict-dictionary", none => .strict
    | "--bytes", none => .sized .bytes
    | "--bytes", some value => .sizedAs .bytes value
    | "--cells", none => .sized .cells
    | "--cells", some value => .sizedAs .cells value
    | _, _ => .unknown

/-- Reads the arguments from left to right. -/
def read : List String → Draft → Option Draft
  | [], d => some d
  | argument :: rest, d =>
    match classify argument, rest with
    | .word, rest => read rest { d with words := d.words ++ [argument] }
    | .endOfOptions, rest => some { d with words := d.words ++ rest }
    | .strict, rest => do read rest (← d.withStrict)
    | .sizedAs option value, rest => do read rest (← d.withSize option value)
    | .sized option, value :: rest => do read rest (← d.withSize option value)
    | _, _ => none

/-- The options that a command line asks for, unless it has to be refused. -/
def parse (arguments : List String) : Option Options := (read arguments .blank).map Draft.options

/-- The code that a refused command line exits with. -/
def refusal : Nat := 2

end CommandLine
end Calculator
end ThreadedCode
