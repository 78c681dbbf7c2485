import ThreadedCode.Words
import ThreadedCode.Single.Literal

/-!
Compiling a line of words into one compound word: a number becomes a cell that pushes it, and every
other word is looked up in the dictionary and wired in.
-/
namespace ThreadedCode
namespace Calculator

variable {σ : Signature}

/-- Why a line cannot be compiled. -/
structure Rejection where
  /-- The word at fault, unless the fault lies outside of all words. -/
  word : Option String
  fault : Fault
deriving DecidableEq, Repr

def Rejection.message (r : Rejection) : String :=
  match r.word with
  | some word => word ++ ": " ++ r.fault.message
  | none => r.fault.message

/-- Compiles one word into a cell of its own. -/
def compileWord (host : Host σ) (word : String) : Program σ Unit := do
  match Single.ofText? word with
  | some x =>
    let value ← request (.boxFloat x)
    let cell ← request .newCell
    request (.bindLiteral cell value)
  | none =>
    let entry ← request (.search word)
    let cell ← request .newCell
    Words.copy host entry cell

/-- Compiles words up to the first one that is at fault. -/
def compileWords (host : Host σ) : List String → Program σ (Except Rejection Unit)
  | [] => return .ok ()
  | word :: rest => do
    match ← (compileWord host word).attempt with
    | .ok () => compileWords host rest
    | .error fault => return .error ⟨some word, fault⟩

/-- Opens a word on a cell of its own. -/
def openWord : Program σ Unit := do
  request (.beginWord (← request .newCell))

/-- Compiles a line and answers with its head. The word that it opens is closed again in any
case. -/
def compile (host : Host σ) (words : List String) : Program σ (Except Rejection CellId) := do
  match ← openWord.attempt with
  | .error fault => return .error ⟨none, fault⟩
  | .ok () =>
    let compiled ← compileWords host words
    let closed ← (request .endWord).attempt
    match compiled, closed with
    | .error rejection, _ => return .error rejection
    | .ok (), .error fault => return .error ⟨none, fault⟩
    | .ok (), .ok head => return .ok head

end Calculator
end ThreadedCode
