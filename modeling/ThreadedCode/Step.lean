import ThreadedCode.Machine
import ThreadedCode.Request

/-!
Steps: what can be done to a machine. A step always leaves a machine, also when it ends with a
fault, and it tells what happened on the way.
-/
namespace ThreadedCode

/-- Something that happens while a machine runs. -/
inductive Event (σ : Signature) where
  | logged (notice : Notice)
  | served (request : Request σ) (answer : Except Fault request.Answer)

namespace Event

variable {σ : Signature}

/-- The line of output that an event puts out. -/
def line? : Event σ → Option String
  | .served (.print line) _ => some line
  | _ => none

/-- The record that an event leaves in the log. -/
def notice? : Event σ → Option Notice
  | .logged notice => some notice
  | _ => none

end Event

/-- How a step ends. -/
structure Outcome (σ : Signature) (α : Type) where
  answer : Except Fault α
  machine : Machine σ
  /-- What happened, the first event first. -/
  events : List (Event σ)

namespace Outcome

variable {σ : Signature} {α : Type}

/-- The lines of output. -/
def lines (o : Outcome σ α) : List String := o.events.filterMap Event.line?

/-- The records of the log. -/
def notices (o : Outcome σ α) : List Notice := o.events.filterMap Event.notice?

end Outcome

def Step (σ : Signature) (α : Type) : Type := Machine σ → Outcome σ α

namespace Step

variable {σ : Signature} {α β : Type}

/-- Ends at once, with a machine that nothing has happened to. -/
def done (answer : Except Fault α) : Step σ α := fun m => ⟨answer, m, []⟩

/-- Does one step, and unless it ends with a fault the next one. -/
def andThen (s : Step σ α) (next : α → Step σ β) : Step σ β := fun m =>
  match s m with
  | ⟨.ok a, m, events⟩ =>
    let rest := next a m
    ⟨rest.answer, rest.machine, events ++ rest.events⟩
  | ⟨.error fault, m, events⟩ => ⟨.error fault, m, events⟩

/-- Does a step and answers with how it ended. -/
def attempt (s : Step σ α) : Step σ (Except Fault α) := fun m =>
  let o := s m
  ⟨.ok o.answer, o.machine, o.events⟩

/-- Makes something happen. -/
def emit (event : Event σ) : Step σ Unit := fun m => ⟨.ok (), m, [event]⟩

/-- Tells the log, if its listener hears it. -/
def log (notice : Notice) : Step σ Unit := fun m =>
  ⟨.ok (), m, if notice.level.heardBy m.verbosity then [.logged notice] else []⟩

instance : Monad (Step σ) where
  pure a := done (.ok a)
  bind := andThen

instance : MonadLift (Except Fault) (Step σ) := ⟨done⟩

instance : MonadExceptOf Fault (Step σ) where
  throw fault := done (.error fault)
  tryCatch s handle := do
    match ← s.attempt with
    | .ok a => pure a
    | .error fault => handle fault

instance : MonadStateOf (Machine σ) (Step σ) where
  get := fun m => ⟨.ok m, m, []⟩
  set m := fun _ => ⟨.ok (), m, []⟩
  modifyGet f := fun m => let (a, m) := f m; ⟨.ok a, m, []⟩

end Step
end ThreadedCode
