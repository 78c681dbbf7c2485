import ThreadedCode.Proofs.Steps
import ThreadedCode.Machine.Lifetime

/-!
Whatever a machine executes, it only ever makes elementary moves. What every move preserves holds
after every run.
-/
namespace ThreadedCode

variable {σ : Signature} {α β : Type} {given : Value → Prop}

/-- Some cell handed out has this payload. -/
def Machine.Carries (m : Machine σ) (v : Value) : Prop :=
  ∃ id cell, m.cells.get id = .ok cell ∧ cell.payload = v

/-- The elementary moves of native code, literals and nested executions. A literal pushes the payload
of a cell or a value `given` from outside. -/
inductive Move (given : Value → Prop) : Machine σ → List (Event σ) → Machine σ → Prop
  | served (m : Machine σ) (r : Request σ) : Move given m (serve r m).events (serve r m).machine
  | literal (m : Machine σ) (v : Value) (hv : given v ∨ m.Carries v) :
    Move given m (Machine.pushLiteral v m).events (Machine.pushLiteral v m).machine
  | noted (m : Machine σ) (notice : Notice) : Move given m (Step.log notice m).events m
  | deeper (m : Machine σ) : Move given m [] { m with callDepth := m.callDepth + 1 }
  | back (m : Machine σ) : Move given m [] { m with callDepth := m.callDepth - 1 }

inductive Moves (given : Value → Prop) : Machine σ → List (Event σ) → Machine σ → Prop
  | refl (m : Machine σ) : Moves given m [] m
  | step {m n o : Machine σ} {first rest : List (Event σ)} :
    Move given m first n → Moves given n rest o → Moves given m (first ++ rest) o

namespace Moves

theorem single {m n : Machine σ} {events : List (Event σ)} (h : Move given m events n) :
    Moves given m events n := by
  simpa using step h (refl n)

theorem trans {m n o : Machine σ} {first rest : List (Event σ)}
    (hf : Moves given m first n) (hr : Moves given n rest o) : Moves given m (first ++ rest) o := by
  induction hf with
  | refl m => exact hr
  | step hm _ ih =>
    rw [List.append_assoc]
    exact step hm (ih hr)

/-- An invariant of machines and their past that each move preserves is preserved by many. -/
theorem preserve {I : List (Event σ) → Machine σ → Prop}
    (hI : ∀ past m events n, I past m → Move given m events n → I (past ++ events) n)
    {m n : Machine σ} {events : List (Event σ)} (h : Moves given m events n) :
    ∀ past, I past m → I (past ++ events) n := by
  induction h with
  | refl m =>
    intro past hp
    simpa using hp
  | step hm _ ih =>
    intro past hp
    rw [← List.append_assoc]
    exact ih _ (hI past _ _ _ hp hm)

end Moves

/-- Every outcome of the step is reached by moves. -/
def Step.Moving (given : Value → Prop) (s : Step σ α) : Prop :=
  ∀ m, Moves given m (s m).events (s m).machine

/-- The same of a way to invoke procedures, on the payloads that can occur. -/
def Step.Invoking (given : Value → Prop) (invoke : Procedure σ → Value → Step σ Unit) : Prop :=
  ∀ procedure v m, given v ∨ m.Carries v →
    Moves given m (invoke procedure v m).events (invoke procedure v m).machine

namespace Step

theorem done_moving (answer : Except Fault α) : (done answer : Step σ α).Moving given :=
  fun m => .refl m

theorem log_moving (notice : Notice) : (log notice : Step σ Unit).Moving given :=
  fun m => .single (.noted m notice)

theorem serve_moving (r : Request σ) : (serve r).Moving given :=
  fun m => .single (.served m r)

theorem attempt_moving {s : Step σ α} (h : s.Moving given) : s.attempt.Moving given := h

theorem bind_moving {s : Step σ α} {next : α → Step σ β} (hs : s.Moving given)
    (hn : ∀ a, (next a).Moving given) : (s >>= next).Moving given := by
  intro m
  cases h : (s m).answer with
  | ok a =>
    rw [bind_of_ok h]
    exact (hs m).trans (hn a _)
  | error fault =>
    rw [bind_of_error h]
    exact hs m

end Step

open Step in
theorem Program.run_moving {exec : CellId → Step σ Unit} (he : ∀ cell, (exec cell).Moving given)
    (p : Program σ α) : (p.run exec).Moving given := by
  induction p with
  | finish answer => exact done_moving answer
  | ask request rest ih => exact bind_moving (attempt_moving (serve_moving request)) ih
  | execute cell rest ih => exact bind_moving (attempt_moving (he cell)) ih

namespace Machine

open Step

theorem callWith_moving {invoke : Procedure σ → Value → Step σ Unit} (hi : Invoking given invoke)
    (cell : CellId) : (callWith invoke cell).Moving given := by
  intro m
  simp only [callWith, bind_apply, get_apply, Outcome.bind_ok, Outcome.after_nil, lift_apply]
  cases ht : m.cells.get cell with
  | error fault => exact .refl m
  | ok target =>
    rw [Outcome.bind_ok, log_bind]
    exact (log_moving _ m).trans (hi _ _ m (.inr ⟨cell, target, ht, rfl⟩))

theorem invokeWith_invoking (host : Host σ) {exec popped : CellId → Step σ Unit}
    (he : ∀ cell, (exec cell).Moving given) (hp : ∀ cell, (popped cell).Moving given) :
    Invoking given (invokeWith host exec popped) := by
  intro procedure v m hv
  cases procedure with
  | zero => exact .refl m
  | link => exact bind_moving (done_moving v.asCell) he m
  | literal => exact .single (.literal m v hv)
  | native name =>
    simp only [invokeWith]
    cases host.procedure name with
    | program body => exact Program.run_moving he _ m
    | callTop next =>
      refine bind_moving (attempt_moving ?_) (fun _ => Program.run_moving he _) m
      exact bind_moving (serve_moving .pop) fun slot => bind_moving (done_moving slot.value.asCell) hp

theorem invokeWithin_invoking (host : Host σ) {exec : CellId → Step σ Unit}
    (he : ∀ cell, (exec cell).Moving given) (slots : Nat) :
    Invoking given (invokeWithin host exec slots) := by
  induction slots with
  | zero => exact invokeWith_invoking host he fun _ => done_moving _
  | succ slots ih => exact invokeWith_invoking host he (callWith_moving ih)

theorem invokeUsing_invoking (host : Host σ) {exec : CellId → Step σ Unit}
    (he : ∀ cell, (exec cell).Moving given) : Invoking given (invokeUsing host exec) :=
  fun procedure v m hv => invokeWithin_invoking host he m.stack.depth procedure v m hv

theorem walk_moving {exec call : CellId → Step σ Unit} (he : ∀ cell, (exec cell).Moving given)
    (hc : ∀ cell, (call cell).Moving given) (head : CellId) (left skip offset : Nat) :
    (walk exec call head left skip offset).Moving given := by
  induction left generalizing skip offset with
  | zero => exact done_moving _
  | succ left ih =>
    cases skip with
    | succ skip => exact ih skip (offset + 1)
    | zero =>
      simp only [walk]
      split
      · exact done_moving _
      · rename_i id _
        intro m
        cases hg : m.cells.get id with
        | error fault => simpa [bind_apply, hg] using Moves.refl m
        | ok cell =>
          simp only [bind_apply, get_apply, Outcome.bind_ok, Outcome.after_nil, lift_apply, hg]
          split
          · exact bind_moving (hc id) (fun _ => ih _ _) m
          · exact bind_moving (he id) (fun _ => ih _ _) m

theorem nested_moving {s : Step σ Unit} (hs : s.Moving given) : (nested s).Moving given := by
  intro m
  have hin := hs { m with callDepth := m.callDepth + 1 }
  have hall := (Moves.single (.deeper m)).trans (hin.trans (.single (.back _)))
  simpa [nested, bind_apply] using hall

theorem execRun_moving (host : Host σ) {exec : CellId → Step σ Unit}
    (he : ∀ cell, (exec cell).Moving given) (head : CellId) :
    (execRun host exec head).Moving given := by
  have hc := callWith_moving (invokeUsing_invoking host he)
  intro m
  simp only [execRun, bind_apply, get_apply, Outcome.bind_ok, Outcome.after_nil, lift_apply]
  cases m.cells.get head with
  | error fault => exact .refl m
  | ok cell =>
    simp only [Outcome.bind_ok, Outcome.after_nil]
    split
    · exact hc head m
    · exact bind_moving (log_moving _) (fun _ => walk_moving he hc head _ _ _) m

theorem execWithin_moving (host : Host σ) (budget : Nat) (cell : CellId) :
    (execWithin host budget cell).Moving given := by
  induction budget generalizing cell with
  | zero => exact fun m => bind_moving (log_moving _) (fun _ => done_moving _) m
  | succ budget ih => exact nested_moving (execRun_moving host ih cell)

theorem exec_moving (host : Host σ) (cell : CellId) : (exec host cell).Moving given :=
  fun m => execWithin_moving host m.callBudget cell m

theorem invoke_invoking (host : Host σ) : Invoking given (invoke host) :=
  invokeUsing_invoking host (exec_moving host)

theorem call_moving (host : Host σ) (cell : CellId) : (call host cell).Moving given :=
  callWith_moving (invoke_invoking host) cell

end Machine

theorem Program.start_moving (host : Host σ) (p : Program σ α) : (p.start host).Moving given :=
  p.run_moving (Machine.exec_moving host)

/-- What can be done with a machine at rest, short of emptying it. -/
inductive Operation (σ : Signature) where
  /-- Run code that asks requests and executes cells. -/
  | program (p : Program σ Unit)
  | call (cell : CellId)
  /-- Invoke a procedure on a payload from outside. -/
  | invoke (procedure : Procedure σ) (payload : Value)

namespace Operation

def step (host : Host σ) : Operation σ → Step σ Unit
  | .program p => p.start host
  | .call cell => Machine.call host cell
  | .invoke procedure payload => Machine.invoke host procedure payload

/-- The payload that comes from outside. -/
def Gives : Operation σ → Value → Prop
  | .invoke _ payload, v => v = payload
  | _, _ => False

theorem moves (host : Host σ) (op : Operation σ) (m : Machine σ) :
    Moves op.Gives m (op.step host m).events (op.step host m).machine := by
  cases op with
  | program p => exact p.start_moving host m
  | call cell => exact Machine.call_moving host cell m
  | invoke procedure payload => exact Machine.invoke_invoking host procedure payload m (.inl rfl)

end Operation

/-- The machines that operations lead to, each with what has happened since it was last empty. -/
inductive Run (host : Host σ) : List (Event σ) → Machine σ → Prop
  | created (bytes : Array UInt8) (cells : Array (Cell σ)) (settings : Settings)
    (verbosity : Option Level) : Run host [] (.create bytes cells settings verbosity)
  | operated {past : List (Event σ)} {m : Machine σ} (h : Run host past m) (op : Operation σ) :
    Run host (past ++ (op.step host m).events) (op.step host m).machine
  | emptied {past : List (Event σ)} {m : Machine σ} (h : Run host past m) :
    Run host [] (Machine.reset m).machine

/-- The machines that operations lead to from one machine, none of them a reset. -/
inductive Onward (host : Host σ) (m : Machine σ) : List (Event σ) → Machine σ → Prop
  | here : Onward host m [] m
  | operated {events : List (Event σ)} {n : Machine σ} (h : Onward host m events n)
    (op : Operation σ) : Onward host m (events ++ (op.step host n).events) (op.step host n).machine

/-- What holds of empty machines and is preserved by every move holds throughout every run. -/
theorem Run.invariant {host : Host σ} {I : List (Event σ) → Machine σ → Prop}
    (hcreate : ∀ bytes cells settings verbosity, I [] (.create bytes cells settings verbosity))
    (hclear : ∀ past m, I past m → I [] m.cleared)
    (hmove : ∀ given past m events n, I past m → Move given m events n → I (past ++ events) n)
    {past : List (Event σ)} {m : Machine σ} (h : Run host past m) : I past m := by
  induction h with
  | created bytes cells settings verbosity => exact hcreate bytes cells settings verbosity
  | operated _ op ih => exact (op.moves host _).preserve (hmove op.Gives) _ ih
  | emptied _ ih => exact hclear _ _ ih

end ThreadedCode
