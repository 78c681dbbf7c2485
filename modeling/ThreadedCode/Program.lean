import ThreadedCode.Serve

/-!
Native code as data: a program asks its requests and executes cells one after another, each next
one chosen by the answers so far.
-/
namespace ThreadedCode

inductive Program (σ : Signature) (α : Type) where
  | finish (answer : Except Fault α)
  | ask (request : Request σ) (next : Except Fault request.Answer → Program σ α)
  | execute (cell : CellId) (next : Except Fault Unit → Program σ α)

namespace Program

variable {σ : Signature} {α β : Type}

/-- Does one program, and unless it ends with a fault the next one. -/
def andThen (p : Program σ α) (next : α → Program σ β) : Program σ β :=
  match p with
  | .finish (.ok a) => next a
  | .finish (.error fault) => .finish (.error fault)
  | .ask request rest => .ask request fun answer => (rest answer).andThen next
  | .execute cell rest => .execute cell fun answer => (rest answer).andThen next

/-- Does a program and answers with how it ended. -/
def attempt : Program σ α → Program σ (Except Fault α)
  | .finish answer => .finish (.ok answer)
  | .ask request rest => .ask request fun answer => (rest answer).attempt
  | .execute cell rest => .execute cell fun answer => (rest answer).attempt

instance : Monad (Program σ) where
  pure a := .finish (.ok a)
  bind := andThen

instance : MonadLift (Except Fault) (Program σ) := ⟨finish⟩

instance : MonadExceptOf Fault (Program σ) where
  throw fault := .finish (.error fault)
  tryCatch p handle := do
    match ← p.attempt with
    | .ok a => pure a
    | .error fault => handle fault

/-- Runs a program, given a way to execute cells. -/
def run (exec : CellId → Step σ Unit) : Program σ α → Step σ α
  | .finish answer => Step.done answer
  | .ask request rest => do
    let answer ← (serve request).attempt
    (rest answer).run exec
  | .execute cell rest => do
    let answer ← (exec cell).attempt
    (rest answer).run exec

end Program

/-- The program that asks for one thing. -/
def request {σ : Signature} (request : Request σ) : Program σ request.Answer :=
  .ask request .finish

/-- The program that executes one cell. -/
def execute {σ : Signature} (cell : CellId) : Program σ Unit := .execute cell .finish

end ThreadedCode
