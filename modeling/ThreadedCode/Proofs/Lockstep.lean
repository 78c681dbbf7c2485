import ThreadedCode.Proofs.Footprints
import ThreadedCode.Proofs.Walks

/-!
Two machines that run side by side. What every request preserves between them is preserved by
everything that they execute.
-/
namespace ThreadedCode

variable {σ : Signature} {α β : Type}

/-- How two machines that run side by side are compared. -/
structure Lens (σ : Signature) where
  related : Machine σ → Machine σ → Prop
  /-- The events that count. -/
  counts : Event σ → Bool
  /-- The faults of the second machine that end the comparison. -/
  spares : Fault → Prop

variable {lens : Lens σ}

/-- The outcomes are the same to the lens, or the second one is a fault that it spares. -/
def Outcome.Agrees (lens : Lens σ) (o o' : Outcome σ α) : Prop :=
  (∃ fault, lens.spares fault ∧ o'.answer = .error fault) ∨
  (o.answer = o'.answer ∧ lens.related o.machine o'.machine ∧
    o.events.filter lens.counts = o'.events.filter lens.counts)

/-- On related machines the two steps have the same outcome. -/
def Step.Agrees (lens : Lens σ) (s t : Step σ α) : Prop :=
  ∀ m n, lens.related m n → (s m).Agrees lens (t n)

namespace Outcome

theorem Agrees.after {o o' : Outcome σ α} {first first' : List (Event σ)} (h : o.Agrees lens o')
    (he : first.filter lens.counts = first'.filter lens.counts) :
    (o.after first).Agrees lens (o'.after first') := by
  rcases h with h | ⟨ha, hr, hev⟩
  · exact .inl h
  · refine .inr ⟨ha, hr, ?_⟩
    simp only [after_events, List.filter_append, he, hev]

/-- Where every event counts, the events are the same. -/
theorem Agrees.same {o o' : Outcome σ α} (h : o.Agrees lens o')
    (hc : ∀ event, lens.counts event = true) :
    (∃ fault, lens.spares fault ∧ o'.answer = .error fault) ∨
    (o.answer = o'.answer ∧ lens.related o.machine o'.machine ∧ o.events = o'.events) := by
  have hall : ∀ events : List (Event σ), events.filter lens.counts = events :=
    fun _ => List.filter_eq_self.mpr fun event _ => hc event
  rwa [Agrees, hall, hall] at h

/-- Outcomes that agree go on in the same way. -/
theorem Agrees.bind {o o' : Outcome σ α} {next next' : α → Step σ β} (h : o.Agrees lens o')
    (hn : ∀ a, o'.answer = .ok a → lens.related o.machine o'.machine →
      (next a o.machine).Agrees lens (next' a o'.machine)) :
    (o.bind next).Agrees lens (o'.bind next') := by
  obtain ⟨answer, m, events⟩ := o
  obtain ⟨answer', n, events'⟩ := o'
  rcases h with ⟨fault, hf, ha⟩ | ⟨ha, hr, he⟩
  · obtain rfl : answer' = .error fault := ha
    exact .inl ⟨fault, hf, rfl⟩
  · obtain rfl : answer = answer' := ha
    cases answer with
    | ok a => exact (hn a rfl hr).after he
    | error fault => exact .inr ⟨rfl, hr, he⟩

/-- An attempt goes on after every fault. From one that is spared it has to come back to one. -/
theorem Agrees.attempt {s t : Step σ α} {next next' : Except Fault α → Step σ β} {m n : Machine σ}
    (h : (s m).Agrees lens (t n))
    (hn : ∀ answer m' n', lens.related m' n' → (next answer m').Agrees lens (next' answer n'))
    (hp : ∀ fault, lens.spares fault → ∀ n',
      ∃ last, lens.spares last ∧ (next' (.error fault) n').answer = .error last) :
    ((s.attempt >>= next) m).Agrees lens ((t.attempt >>= next') n) := by
  simp only [Step.bind_apply, Step.attempt_apply, bind_ok]
  rcases h with ⟨fault, hf, ha⟩ | ⟨ha, hr, he⟩
  · rw [ha]
    exact .inl (hp fault hf _)
  · rw [ha]
    exact (hn _ _ _ hr).after he

end Outcome

namespace Step

theorem done_agrees (answer : Except Fault α) : Agrees lens (done answer) (done answer) :=
  fun _ _ h => .inr ⟨rfl, h, rfl⟩

theorem bind_agrees {s t : Step σ α} {next next' : α → Step σ β} (hs : Agrees lens s t)
    (hn : ∀ a, Agrees lens (next a) (next' a)) : Agrees lens (s >>= next) (t >>= next') :=
  fun m n h => (hs m n h).bind fun a _ hr => hn a _ _ hr

theorem attempt_agrees {s t : Step σ α} {next next' : Except Fault α → Step σ β}
    (hs : Agrees lens s t) (hn : ∀ answer, Agrees lens (next answer) (next' answer))
    (hp : ∀ fault, lens.spares fault → ∀ n,
      ∃ last, lens.spares last ∧ (next' (.error fault) n).answer = .error last) :
    Agrees lens (s.attempt >>= next) (t.attempt >>= next') :=
  fun m n h => (hs m n h).attempt hn hp

end Step

/-- Wherever it is run, the program ends with a fault of this kind. -/
def Program.Fails (spares : Fault → Prop) (p : Program σ α) : Prop :=
  ∀ exec m, ∃ fault, spares fault ∧ (p.run exec m).answer = .error fault

/-- Whenever it is told a fault of this kind by an execution, the program ends with one. -/
def Program.Passes (spares : Fault → Prop) : Program σ α → Prop
  | .finish _ => True
  | .ask _ next => ∀ answer, (next answer).Passes spares
  | .execute _ next =>
    (∀ fault, spares fault → (next (.error fault)).Fails spares) ∧ ∀ answer, (next answer).Passes spares

def Body.Passes (spares : Fault → Prop) : Body σ → Prop
  | .program body => ∀ payload, (body payload).Passes spares
  | .callTop next =>
    (∀ fault, spares fault → (next (.error fault)).Fails spares) ∧ ∀ answer, (next answer).Passes spares

/-- No native procedure swallows a fault of this kind. -/
def Host.Passes (spares : Fault → Prop) (host : Host σ) : Prop :=
  ∀ name, (host.procedure name).Passes spares

/-- A fault ends both programs. -/
theorem Program.Fails.bind {spares : Fault → Prop} {p : Program σ α} (hp : p.Fails spares)
    (next : α → Program σ β) : (p >>= next).Fails spares := by
  intro exec m
  obtain ⟨fault, hf, ha⟩ := hp exec m
  refine ⟨fault, hf, ?_⟩
  rw [Program.run_bind, Step.bind_of_error ha]

theorem Program.Passes.bind {spares : Fault → Prop} {p : Program σ α} {next : α → Program σ β}
    (hp : p.Passes spares) (hn : ∀ a, (next a).Passes spares) : (p >>= next).Passes spares := by
  induction p with
  | finish answer =>
    cases answer with
    | ok a => exact hn a
    | error fault => trivial
  | ask request rest ih => exact fun answer => ih answer (hp answer)
  | execute cell rest ih =>
    exact ⟨fun fault hf => (hp.1 fault hf).bind next, fun answer => ih answer (hp.2 answer)⟩

theorem Program.passes_request (spares : Fault → Prop) (r : Request σ) :
    (request r).Passes spares := fun _ => trivial

/-- Nothing that is there to be passed on is ever lost. -/
theorem Program.passes_none (p : Program σ α) : p.Passes fun _ => False := by
  induction p with
  | finish answer => trivial
  | ask request next ih => exact ih
  | execute cell next ih => exact ⟨fun _ h => h.elim, ih⟩

theorem Host.passes_none (host : Host σ) : host.Passes fun _ => False := by
  intro name
  cases host.procedure name with
  | program body => exact fun payload => (body payload).passes_none
  | callTop next => exact ⟨fun _ h => h.elim, fun answer => (next answer).passes_none⟩

/-- The lens that spares nothing. -/
def Lens.strict (lens : Lens σ) : Lens σ := { lens with spares := fun _ => False }

theorem Outcome.Agrees.of_strict {o o' : Outcome σ α} (h : o.Agrees lens.strict o') :
    o.Agrees lens o' := by
  rcases h with ⟨_, hf, _⟩ | h
  · exact hf.elim
  · exact .inr h

theorem Step.Agrees.of_strict {s t : Step σ α} (h : s.Agrees lens.strict t) : s.Agrees lens t :=
  fun m n hr => (h m n hr).of_strict

open Step

theorem Step.attempt_agrees_of_strict {s t : Step σ α} {next next' : Except Fault α → Step σ β}
    (hs : s.Agrees lens.strict t) (hn : ∀ answer, (next answer).Agrees lens (next' answer)) :
    (s.attempt >>= next).Agrees lens (t.attempt >>= next') := by
  intro m n h
  rcases hs m n h with ⟨_, hf, _⟩ | ⟨ha, hr, he⟩
  · exact hf.elim
  · simp only [bind_apply, attempt_apply, Outcome.bind_ok, ha]
    exact (hn _ _ _ hr).after he

/-- The relation survives whatever happens between two executions. -/
structure Lens.Lockstep (lens : Lens σ) : Prop where
  serve : ∀ r : Request σ, (serve r).Agrees lens.strict (serve r)
  log : ∀ notice, (Step.log notice).Agrees lens.strict (Step.log notice)
  literal : ∀ v, (Machine.pushLiteral v).Agrees lens.strict (Machine.pushLiteral v)
  cells : ∀ {m n}, lens.related m n → n.cells = m.cells
  stack : ∀ {m n}, lens.related m n → n.stack.depth = m.stack.depth

/-- Programs agree if the executions that they ask for do. -/
theorem Program.run_agrees (hl : lens.Lockstep) {exec exec' : CellId → Step σ Unit}
    (he : ∀ cell, (exec cell).Agrees lens (exec' cell)) {p : Program σ α}
    (hp : p.Passes lens.spares) : (p.run exec).Agrees lens (p.run exec') := by
  induction p with
  | finish answer => exact done_agrees answer
  | ask request next ih =>
    exact attempt_agrees_of_strict (hl.serve request) fun answer => ih answer (hp answer)
  | execute cell next ih =>
    exact attempt_agrees (he cell) (fun answer => ih answer (hp.2 answer))
      fun fault hf n => hp.1 fault hf exec' n

namespace Machine

variable {host : Host σ} {exec exec' call call' : CellId → Step σ Unit}

theorem callWith_agrees (hl : lens.Lockstep) {invoke invoke' : Procedure σ → Value → Step σ Unit}
    (hi : ∀ procedure v, (invoke procedure v).Agrees lens (invoke' procedure v)) (cell : CellId) :
    (callWith invoke cell).Agrees lens (callWith invoke' cell) := by
  intro m n h
  simp only [callWith, bind_apply, get_apply, Outcome.bind_ok, Outcome.after_nil, lift_apply,
    hl.cells h]
  cases m.cells.get cell with
  | error fault => exact .inr ⟨rfl, h, rfl⟩
  | ok target => exact bind_agrees (hl.log _).of_strict (fun _ => hi _ _) m n h

theorem invokeWith_agrees (hl : lens.Lockstep) (hp : host.Passes lens.spares)
    (he : ∀ cell, (exec cell).Agrees lens (exec' cell))
    (hc : ∀ cell, (call cell).Agrees lens (call' cell)) (procedure : Procedure σ) (v : Value) :
    (invokeWith host exec call procedure v).Agrees lens
      (invokeWith host exec' call' procedure v) := by
  cases procedure with
  | zero => exact done_agrees _
  | link => exact bind_agrees (done_agrees v.asCell) he
  | literal => exact (hl.literal v).of_strict
  | native name =>
    have hname := hp name
    simp only [invokeWith]
    cases hb : host.procedure name with
    | program body =>
      rw [hb] at hname
      exact Program.run_agrees hl he (hname v)
    | callTop next =>
      rw [hb] at hname
      refine attempt_agrees ?_ (fun answer => Program.run_agrees hl he (hname.2 answer))
        fun fault hf n => hname.1 fault hf exec' n
      apply bind_agrees (hl.serve .pop).of_strict
      intro slot
      exact bind_agrees (done_agrees slot.value.asCell) hc

theorem invokeUsing_agrees (hl : lens.Lockstep) (hp : host.Passes lens.spares)
    (he : ∀ cell, (exec cell).Agrees lens (exec' cell)) (procedure : Procedure σ) (v : Value) :
    (invokeUsing host exec procedure v).Agrees lens (invokeUsing host exec' procedure v) := by
  have hwithin : ∀ slots procedure v, (invokeWithin host exec slots procedure v).Agrees lens
      (invokeWithin host exec' slots procedure v) := by
    intro slots
    induction slots with
    | zero => exact invokeWith_agrees hl hp he fun _ => done_agrees _
    | succ slots ih => exact invokeWith_agrees hl hp he (callWith_agrees hl ih)
  intro m n h
  have hrun := hwithin m.stack.depth procedure v m n h
  simp only [invokeUsing, bind_apply, get_apply, Outcome.bind_ok, Outcome.after_nil, hl.stack h]
  exact hrun

theorem walk_agrees (hl : lens.Lockstep) (he : ∀ cell, (exec cell).Agrees lens (exec' cell))
    (hc : ∀ cell, (call cell).Agrees lens (call' cell)) (head : CellId) (left skip offset : Nat) :
    (walk exec call head left skip offset).Agrees lens (walk exec' call' head left skip offset) := by
  induction left generalizing skip offset with
  | zero => exact done_agrees _
  | succ left ih =>
    cases skip with
    | succ skip => exact ih skip (offset + 1)
    | zero =>
      intro m n h
      cases hs : head.shift? offset with
      | none =>
        rw [walk_of_none hs, walk_of_none hs]
        exact .inr ⟨rfl, h, rfl⟩
      | some id =>
        cases hg : m.cells.get id with
        | error fault =>
          rw [walk_of_error hs hg, walk_of_error hs (hl.cells h ▸ hg)]
          exact .inr ⟨rfl, h, rfl⟩
        | ok cell =>
          rw [walk_of_cell hs hg, walk_of_cell hs (hl.cells h ▸ hg)]
          refine bind_agrees ?_ (fun _ => ih _ _) m n h
          unfold visit
          split
          · exact hc id
          · exact he id

theorem execRun_agrees (hl : lens.Lockstep) (hp : host.Passes lens.spares)
    (he : ∀ cell, (exec cell).Agrees lens (exec' cell)) (head : CellId) :
    (execRun host exec head).Agrees lens (execRun host exec' head) := by
  have hc := callWith_agrees hl (invokeUsing_agrees hl hp he)
  intro m n h
  cases hg : m.cells.get head with
  | error fault =>
    rw [execRun_of_error host hg, execRun_of_error host (hl.cells h ▸ hg)]
    exact .inr ⟨rfl, h, rfl⟩
  | ok cell =>
    by_cases hleaf : cell.extent = 1
    · rw [execRun_of_leaf host hg hleaf, execRun_of_leaf host (hl.cells h ▸ hg) hleaf]
      exact hc head m n h
    · rw [execRun_of_word host hg hleaf, execRun_of_word host (hl.cells h ▸ hg) hleaf]
      exact bind_agrees (hl.log _).of_strict (fun _ => walk_agrees hl he hc head _ _ _) m n h

/-- One execution deeper another lens may be the right one. -/
theorem nested_agrees (outer inner : Lens σ) (hs : inner.spares = outer.spares)
    (hc : inner.counts = outer.counts)
    (hin : ∀ m n, outer.related m n → inner.related { m with callDepth := m.callDepth + 1 }
      { n with callDepth := n.callDepth + 1 })
    (hout : ∀ m n, inner.related m n → outer.related { m with callDepth := m.callDepth - 1 }
      { n with callDepth := n.callDepth - 1 })
    {s t : Step σ Unit} (h : s.Agrees inner t) : (nested s).Agrees outer (nested t) := by
  intro m n hr
  rw [nested_apply, nested_apply]
  rcases h _ _ (hin m n hr) with ⟨fault, hf, ha⟩ | ⟨ha, hr', he⟩
  · exact .inl ⟨fault, hs ▸ hf, ha⟩
  · exact .inr ⟨ha, hout _ _ hr', hc ▸ he⟩

end Machine
end ThreadedCode
