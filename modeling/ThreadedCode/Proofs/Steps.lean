import ThreadedCode.Exec

/-!
How steps and programs compose: what a step does to one machine, piece by piece.
-/
namespace ThreadedCode

variable {σ : Signature} {α β γ : Type}

attribute [ext] Outcome

namespace Outcome

/-- The outcome with events that happened before it. -/
def after (events : List (Event σ)) (o : Outcome σ α) : Outcome σ α :=
  { o with events := events ++ o.events }

/-- Goes on from an outcome, unless it is a fault. -/
def bind (o : Outcome σ α) (next : α → Step σ β) : Outcome σ β :=
  match o with
  | ⟨.ok a, m, events⟩ => (next a m).after events
  | ⟨.error fault, m, events⟩ => ⟨.error fault, m, events⟩

@[simp] theorem after_answer (events : List (Event σ)) (o : Outcome σ α) :
    (o.after events).answer = o.answer := rfl

@[simp] theorem after_machine (events : List (Event σ)) (o : Outcome σ α) :
    (o.after events).machine = o.machine := rfl

@[simp] theorem after_events (events : List (Event σ)) (o : Outcome σ α) :
    (o.after events).events = events ++ o.events := rfl

@[simp] theorem after_nil (o : Outcome σ α) : o.after [] = o := rfl

@[simp] theorem after_after (first second : List (Event σ)) (o : Outcome σ α) :
    (o.after second).after first = o.after (first ++ second) := by
  simp [after]

@[simp] theorem bind_ok (a : α) (m : Machine σ) (events : List (Event σ)) (next : α → Step σ β) :
    (⟨.ok a, m, events⟩ : Outcome σ α).bind next = (next a m).after events := rfl

@[simp] theorem bind_error (fault : Fault) (m : Machine σ) (events : List (Event σ))
    (next : α → Step σ β) :
    (⟨.error fault, m, events⟩ : Outcome σ α).bind next = ⟨.error fault, m, events⟩ := rfl

theorem bind_after (events : List (Event σ)) (o : Outcome σ α) (next : α → Step σ β) :
    (o.after events).bind next = (o.bind next).after events := by
  obtain ⟨answer, m, rest⟩ := o
  cases answer with
  | ok a => simp [after]
  | error fault => rfl

end Outcome

namespace Step

theorem bind_apply (s : Step σ α) (next : α → Step σ β) (m : Machine σ) :
    (s >>= next) m = (s m).bind next := rfl

@[simp] theorem pure_apply (a : α) (m : Machine σ) : (pure a : Step σ α) m = ⟨.ok a, m, []⟩ := rfl

@[simp] theorem get_apply (m : Machine σ) : (get : Step σ (Machine σ)) m = ⟨.ok m, m, []⟩ := rfl

@[simp] theorem set_apply (m n : Machine σ) : (set n : Step σ PUnit) m = ⟨.ok ⟨⟩, n, []⟩ := rfl

@[simp] theorem modify_apply (f : Machine σ → Machine σ) (m : Machine σ) :
    (modify f : Step σ PUnit) m = ⟨.ok ⟨⟩, f m, []⟩ := rfl

@[simp] theorem lift_apply (answer : Except Fault α) (m : Machine σ) :
    (liftM answer : Step σ α) m = ⟨answer, m, []⟩ := rfl

@[simp] theorem done_apply (answer : Except Fault α) (m : Machine σ) :
    done answer m = ⟨answer, m, []⟩ := rfl

@[simp] theorem throw_apply (fault : Fault) (m : Machine σ) :
    (throw fault : Step σ α) m = ⟨.error fault, m, []⟩ := rfl

@[simp] theorem attempt_apply (s : Step σ α) (m : Machine σ) :
    s.attempt m = ⟨.ok (s m).answer, (s m).machine, (s m).events⟩ := rfl

@[simp] theorem emit_apply (event : Event σ) (m : Machine σ) :
    emit event m = ⟨.ok (), m, [event]⟩ := rfl

@[simp] theorem log_answer (notice : Notice) (m : Machine σ) : (log notice m).answer = .ok () := rfl

@[simp] theorem log_machine (notice : Notice) (m : Machine σ) : (log notice m).machine = m := rfl

/-- A step that succeeds with what it is bound to goes on from the machine that it leaves. -/
theorem bind_of_ok {s : Step σ α} {m : Machine σ} {a : α} (h : (s m).answer = .ok a)
    (next : α → Step σ β) :
    (s >>= next) m = (next a (s m).machine).after (s m).events := by
  rw [bind_apply]
  rcases hs : s m with ⟨answer, n, events⟩
  rw [hs] at h
  subst h
  rfl

/-- A fault ends everything that is bound to it. -/
theorem bind_of_error {s : Step σ α} {m : Machine σ} {fault : Fault}
    (h : (s m).answer = .error fault) (next : α → Step σ β) :
    (s >>= next) m = ⟨.error fault, (s m).machine, (s m).events⟩ := by
  rw [bind_apply]
  rcases hs : s m with ⟨answer, n, events⟩
  rw [hs] at h
  subst h
  rfl

theorem log_bind (notice : Notice) (next : Unit → Step σ β) (m : Machine σ) :
    (log notice >>= next) m = (next () m).after (log notice m).events := rfl

/-- What goes on from an attempt can only fail by itself. -/
theorem attempt_bind_attempt (s : Step σ α) (next : Except Fault α → Step σ β) :
    (s.attempt >>= next).attempt = s.attempt >>= fun a => (next a).attempt := rfl

instance : LawfulMonad (Step σ) := LawfulMonad.mk' (Step σ)
  (by
    intro α s
    funext m
    change (s m).bind (fun a => pure a) = s m
    obtain ⟨answer, n, events⟩ := s m
    cases answer <;> simp [Outcome.after])
  (by
    intro α β a next
    rfl)
  (by
    intro α β γ s next last
    funext m
    change ((s m).bind next).bind last = (s m).bind fun a => next a >>= last
    obtain ⟨answer, n, events⟩ := s m
    cases answer with
    | ok a => exact Outcome.bind_after events (next a n) last
    | error fault => rfl)

end Step

namespace Program

variable (exec : CellId → Step σ Unit)

/-- Running one program and then another is running both together. -/
theorem run_bind (p : Program σ α) (next : α → Program σ β) :
    (p >>= next).run exec = p.run exec >>= fun a => (next a).run exec := by
  change (p.andThen next).run exec = _
  induction p with
  | finish answer => cases answer <;> rfl
  | ask request rest ih =>
    simp only [andThen, run, bind_assoc]
    exact congrArg _ (funext ih)
  | execute cell rest ih =>
    simp only [andThen, run, bind_assoc]
    exact congrArg _ (funext ih)

theorem run_attempt (p : Program σ α) : p.attempt.run exec = (p.run exec).attempt := by
  induction p with
  | finish answer => rfl
  | ask request rest ih =>
    simp only [attempt, run, Step.attempt_bind_attempt]
    exact congrArg _ (funext ih)
  | execute cell rest ih =>
    simp only [attempt, run, Step.attempt_bind_attempt]
    exact congrArg _ (funext ih)

theorem run_request (r : Request σ) : (request r).run exec = serve r := by
  funext m
  simp only [request, run, Step.bind_apply, Step.attempt_apply, Outcome.bind_ok]
  simp [Outcome.after]

theorem run_execute (cell : CellId) : (ThreadedCode.execute cell).run exec = exec cell := by
  funext m
  simp only [ThreadedCode.execute, run, Step.bind_apply, Step.attempt_apply, Outcome.bind_ok]
  simp [Outcome.after]

end Program
end ThreadedCode
