import ThreadedCode.Exec
import ThreadedCode.Calculator.Words
import ThreadedCode.Calculator.Compile

/-!
A session of the calculator: a new machine, one line of words compiled and executed, and whatever is
left on the stack printed.
-/
namespace ThreadedCode
namespace Calculator

def signature : Signature := ⟨Word, Empty⟩

instance : DecidableEq signature.Native := inferInstanceAs (DecidableEq Word)

def host : Host signature where
  procedure := procedure
  strategy := nofun

/-- How many executions may be nested. -/
def maxCallDepth : Nat := 256

structure Options where
  bytes : Nat
  cells : Nat
  mode : Mode
  words : List String
deriving DecidableEq, Repr

/-- Why a session ends early. -/
inductive Failure where
  | registering (fault : Fault)
  | compiling (rejection : Rejection)
  | executing (fault : Fault)
deriving DecidableEq, Repr

def Failure.message : Failure → String
  | .registering fault => "Error registering primitives: " ++ fault.message
  | .compiling rejection => "Error compiling: " ++ rejection.message
  | .executing fault => "Error executing: " ++ fault.message

/-- What a session writes and the code it exits with. -/
structure Report where
  output : List String
  complaints : List String
  exitCode : Nat
deriving DecidableEq, Repr

/-- The machine that a session starts with. -/
def machine (o : Options) : Machine signature :=
  .create (Array.replicate o.bytes 0) (Array.replicate o.cells .empty) ⟨maxCallDepth, o.mode⟩ none

/-- Defines the vocabulary, compiles the words and executes them. -/
def evaluate (words : List String) : Step signature (Except Failure Unit) := do
  match ← ((register id).start host).attempt with
  | .error fault => return .error (.registering fault)
  | .ok () =>
    match ← (compile host words).start host with
    | .error rejection => return .error (.compiling rejection)
    | .ok head =>
      match ← (Machine.exec host head).attempt with
      | .error fault => return .error (.executing fault)
      | .ok () => return .ok ()

/-- What is printed for each slot that is left, top first. -/
def leftovers (m : Machine signature) : List (Except Fault String) :=
  m.stack.active.reverse.map fun slot => ((describe slot).start host m).answer

/-- What went wrong with a slot that cannot be printed. -/
def complaint? : Except Fault String → Option String
  | .ok _ => none
  | .error fault => some ("Error printing: " ++ fault.message)

def run (o : Options) : Report :=
  let evaluated := evaluate o.words (machine o)
  match evaluated.answer with
  | .ok (.ok ()) =>
    let shown := leftovers evaluated.machine
    ⟨evaluated.lines ++ shown.filterMap Except.toOption, shown.filterMap complaint?, 0⟩
  | .ok (.error failure) => ⟨evaluated.lines, [failure.message], 1⟩
  | .error fault => ⟨evaluated.lines, [(Failure.executing fault).message], 1⟩

end Calculator
end ThreadedCode
