import ThreadedCode.Proofs.Refusals
import ThreadedCode.Proofs.Termination
import ThreadedCode.Calculator.Compile

/-!
The conduct of code: what it asks for, and the faults that it ends with as long as it is told no other
ones. Where all the code of a host keeps to a conduct, so does everything that is executed.
-/
namespace ThreadedCode

variable {σ : Signature} {α β : Type}

structure Conduct (σ : Signature) where
  asks : Request σ → Prop
  /-- The faults that code is told and ends with. -/
  tells : Fault → Prop

namespace Conduct

def Admits (c : Conduct σ) (answer : Except Fault α) : Prop :=
  ∀ fault, answer = .error fault → c.tells fault

/-- Code may ask for all that neither opens nor closes a word, and it may be told whatever a machine
itself tells: every fault but the refusal of an execution below the limit. -/
structure Fair (c : Conduct σ) (limit : Nat) : Prop where
  asks : ∀ r : Request σ, r.part ≠ .words → c.asks r
  tells : ∀ fault, (∀ depth, fault = .callDepthExceeded depth → depth = limit) → c.tells fault

variable {c : Conduct σ}

theorem admits_ok (a : α) : c.Admits (.ok a : Except Fault α) := nofun

theorem admits_error {fault : Fault} (h : c.tells fault) : c.Admits (.error fault : Except Fault α) := by
  rintro _ ⟨⟩
  exact h

theorem Fair.admits {limit : Nat} (hf : c.Fair limit) {answer : Except Fault α} (h : Unrefused answer) :
    c.Admits answer := by
  rintro fault rfl
  refine hf.tells fault fun depth hfault => ?_
  subst hfault
  exact absurd rfl (h depth)

end Conduct

/-- As long as it is told no other faults, the program keeps to the conduct. What it comes to, if it
comes to no fault, is as promised. -/
def Program.Follows (c : Conduct σ) (promised : α → Prop) : Program σ α → Prop
  | .finish (.ok a) => promised a
  | .finish (.error fault) => c.tells fault
  | .ask request next =>
    c.asks request ∧ ∀ answer, c.Admits answer → (next answer).Follows c promised
  | .execute _ next => ∀ answer, c.Admits answer → (next answer).Follows c promised

/-- The same of a program that promises nothing. -/
def Program.Keeps (c : Conduct σ) (p : Program σ α) : Prop := p.Follows c fun _ => True

def Body.Keeps (c : Conduct σ) : Body σ → Prop
  | .program body => ∀ payload, (body payload).Keeps c
  | .callTop next => ∀ answer, c.Admits answer → (next answer).Keeps c

structure Host.Keeps (c : Conduct σ) (host : Host σ) : Prop where
  procedure : ∀ name, (host.procedure name).Keeps c
  strategy : ∀ name source dest, (host.strategy name source dest).Keeps c

namespace Program

variable {c : Conduct σ} {promised : α → Prop}

theorem Follows.keeps {p : Program σ α} (h : p.Follows c promised) : p.Keeps c := by
  induction p with
  | finish answer =>
    cases answer with
    | ok a => trivial
    | error fault => exact h
  | ask request next ih => exact ⟨h.1, fun answer ha => ih answer (h.2 answer ha)⟩
  | execute cell next ih => exact fun answer ha => ih answer (h answer ha)

theorem Follows.bind {hoped : β → Prop} {p : Program σ α} {next : α → Program σ β}
    (h : p.Follows c promised) (hn : ∀ a, promised a → (next a).Follows c hoped) :
    (p >>= next).Follows c hoped := by
  induction p with
  | finish answer =>
    cases answer with
    | ok a => exact hn a h
    | error fault => exact h
  | ask request rest ih => exact ⟨h.1, fun answer ha => ih answer (h.2 answer ha)⟩
  | execute cell rest ih => exact fun answer ha => ih answer (h answer ha)

/-- An attempt promises that it comes to no other faults. -/
theorem Keeps.attempt {p : Program σ α} (h : p.Keeps c) : p.attempt.Follows c c.Admits := by
  induction p with
  | finish answer =>
    cases answer with
    | ok a => exact Conduct.admits_ok a
    | error fault => exact Conduct.admits_error h
  | ask request next ih => exact ⟨h.1, fun answer ha => ih answer (h.2 answer ha)⟩
  | execute cell next ih => exact fun answer ha => ih answer (h answer ha)

theorem keeps_finish (answer : Except Fault α) (h : c.Admits answer) :
    (Program.finish answer).Keeps c := by
  cases answer with
  | ok a => trivial
  | error fault => exact h fault rfl

theorem keeps_request {r : Request σ} (h : c.asks r) : (request r).Keeps c :=
  ⟨h, keeps_finish⟩

theorem keeps_execute (cell : CellId) : (ThreadedCode.execute cell : Program σ Unit).Keeps c :=
  keeps_finish

end Program

section

variable {c : Conduct σ} {limit : Nat} {host : Host σ}

theorem Conduct.Fair.request (hf : c.Fair limit) (r : Request σ) (h : r.part ≠ .words) :
    (request r).Keeps c := Program.keeps_request (hf.asks r h)

/-- Wiring a cell into another one asks for no words. -/
theorem Words.copy_keeps (hf : c.Fair limit) (hh : host.Keeps c) (entry : EntryId) (dest : CellId) :
    (Words.copy host entry dest).Keeps c := by
  apply (hf.request (.entry entry) nofun).bind
  intro record _
  apply (hf.request (.strategy record.copy) nofun).bind
  intro strategy _
  cases strategy with
  | link => exact hf.request (.link record.cell dest) nofun
  | inline => exact hf.request (.inline record.cell dest) nofun
  | immediate =>
    exact (Program.keeps_execute record.cell).bind fun _ _ => hf.request (.bind dest .zero) nofun
  | host name => exact hh.strategy name record.cell dest

theorem Words.execute_keeps (hf : c.Fair limit) (entry : EntryId) :
    (Words.execute entry : Program σ Unit).Keeps c :=
  (hf.request (.entry entry) nofun).bind fun record _ => Program.keeps_execute record.cell

namespace Calculator

theorem compileWord_keeps (hf : c.Fair limit) (hh : host.Keeps c) (word : String) :
    (compileWord host word).Keeps c := by
  unfold compileWord
  split
  · rename_i x _
    apply (hf.request (.boxFloat x) nofun).bind
    intro value _
    apply (hf.request .newCell nofun).bind
    intro cell _
    exact hf.request (.bindLiteral cell value) nofun
  · apply (hf.request (.search word) nofun).bind
    intro entry _
    apply (hf.request .newCell nofun).bind
    intro cell _
    exact Words.copy_keeps hf hh entry cell

/-- The fault of a rejection is one of those that may be told. -/
def Rejects (c : Conduct σ) (result : Except Rejection α) : Prop :=
  ∀ rejection, result = .error rejection → c.tells rejection.fault

theorem compileWords_keeps (hf : c.Fair limit) (hh : host.Keeps c) (words : List String) :
    (compileWords host words).Follows c (Rejects c) := by
  induction words with
  | nil => exact fun _ => nofun
  | cons word rest ih =>
    refine (compileWord_keeps hf hh word).attempt.bind fun answer ha => ?_
    cases answer with
    | ok _ => exact ih
    | error fault =>
      rintro _ ⟨⟩
      exact ha fault rfl

/-- Compiling a line asks for words as well: it opens one, and closes it. -/
theorem compile_keeps (hf : c.Fair limit) (hh : host.Keeps c) (hb : ∀ head, c.asks (.beginWord head))
    (he : c.asks .endWord) (words : List String) : (compile host words).Follows c (Rejects c) := by
  have hopen : (openWord : Program σ Unit).Keeps c :=
    (hf.request .newCell nofun).bind fun head _ => Program.keeps_request (hb head)
  refine hopen.attempt.bind fun opened ho => ?_
  cases opened with
  | error fault =>
    rintro _ ⟨⟩
    exact ho fault rfl
  | ok _ =>
    refine (compileWords_keeps hf hh words).bind fun compiled hc => ?_
    refine (Program.keeps_request he).attempt.bind fun closed hclosed => ?_
    cases compiled with
    | error rejection =>
      rintro _ ⟨⟩
      exact hc rejection rfl
    | ok _ =>
      cases closed with
      | error fault =>
        rintro _ ⟨⟩
        exact hclosed fault rfl
      | ok head => exact fun _ => nofun

end Calculator
end

def Task.Keeps (c : Conduct σ) : Task σ → Prop
  | .run p => p.Keeps c
  | .give answer => c.Admits answer
  | _ => True

def Frame.Keeps (c : Conduct σ) : Frame σ → Prop
  | .code next => ∀ answer, c.Admits answer → (next answer).Keeps c
  | _ => True

/-- What has been asked for may be. -/
def Event.Keeps (c : Conduct σ) : Event σ → Prop
  | .served request _ => c.asks request
  | .logged _ => True

namespace Config

/-- All code that is running or waiting keeps to the conduct, and it has until now. -/
structure Keeps (conduct : Conduct σ) (c : Config σ) : Prop where
  task : c.task.Keeps conduct
  frames : ∀ frame ∈ c.frames, frame.Keeps conduct
  events : ∀ event ∈ c.events, event.Keeps conduct

namespace Keeps

open Step

variable {conduct : Conduct σ} {limit : Nat} {host : Host σ} {c : Config σ} {task : Task σ}

theorem turn (h : c.Keeps conduct) (ht : task.Keeps conduct) : Keeps conduct { c with task } :=
  ⟨ht, h.frames, h.events⟩

theorem fail (h : c.Keeps conduct) {fault : Fault} (hf : conduct.tells fault) :
    (c.fail fault).Keeps conduct := h.turn (Conduct.admits_error hf)

theorem inside (h : c.Keeps conduct) {frame : Frame σ} (hf : frame.Keeps conduct)
    (ht : task.Keeps conduct) : (c.inside frame task).Keeps conduct :=
  ⟨ht, List.forall_mem_cons.mpr ⟨hf, h.frames⟩, h.events⟩

theorem go (h : c.Keeps conduct) {s : Step σ α} {next : Except Fault α → Task σ}
    (he : ∀ event ∈ (s c.machine).events, event.Keeps conduct)
    (ht : (next (s c.machine).answer).Keeps conduct) : (c.go s next).Keeps conduct :=
  ⟨ht, h.frames, List.forall_mem_append.mpr ⟨h.events, he⟩⟩

theorem of_notices {events : List (Event σ)} {notices : List Notice}
    (he : events = notices.map .logged) : ∀ event ∈ events, event.Keeps conduct := by
  subst he
  exact List.forall_mem_map.mpr fun _ _ => trivial

theorem log (h : c.Keeps conduct) (notice : Notice) (ht : task.Keeps conduct) :
    (c.go (Step.log notice) fun _ => task).Keeps conduct := by
  obtain ⟨notices, he⟩ := log_events notice c.machine
  exact h.go (of_notices he) ht

theorem serve (h : c.Keeps conduct) {r : Request σ} (hr : conduct.asks r)
    {next : Except Fault r.Answer → Task σ}
    (ht : (next (ThreadedCode.serve r c.machine).answer).Keeps conduct) :
    (c.go (ThreadedCode.serve r) next).Keeps conduct := by
  obtain ⟨notices, he⟩ := serve_events r c.machine
  refine h.go ?_ ht
  rw [he]
  refine List.forall_mem_append.mpr ⟨of_notices rfl, ?_⟩
  rw [List.forall_mem_singleton]
  exact hr

theorem execute (h : c.Keeps conduct) (hf : conduct.Fair limit) (cell : CellId)
    (hs : c.machine.settings.maxCallDepth = limit) (hd : c.machine.callDepth ≤ limit) :
    (c.execute cell).Keeps conduct := by
  unfold Config.execute
  simp only
  split
  · exact ⟨trivial, List.forall_mem_cons.mpr ⟨trivial, h.frames⟩, h.events⟩
  · -- The machine is never deeper than its limit, so it refuses with just that number.
    refine h.log _ (Conduct.admits_error (hf.tells _ fun depth hdepth => ?_))
    cases hdepth
    omega

theorem missing (h : c.Keeps conduct) (hf : conduct.Fair limit) {id : CellId} {fault : Fault}
    (hg : c.machine.cells.get id = .error fault) : (c.fail fault).Keeps conduct :=
  h.fail (hf.admits (c.machine.cells.get_ample id).unrefused fault hg)

theorem enter (h : c.Keeps conduct) (hf : conduct.Fair limit) (head : CellId) :
    (c.enter head).Keeps conduct := by
  unfold Config.enter
  split
  · rename_i hg
    exact h.missing hf hg
  · split
    · exact h.turn trivial
    · exact h.log _ trivial

theorem walk (h : c.Keeps conduct) (hf : conduct.Fair limit) (w : Walk) : (c.walk w).Keeps conduct := by
  unfold Config.walk
  split
  · split
    · exact h.fail (hf.tells _ nofun)
    · split
      · rename_i hg
        exact h.missing hf hg
      · split
        · exact h.inside trivial trivial
        · exact h.inside trivial trivial
  · exact h.turn (Conduct.admits_ok ())

theorem call (h : c.Keeps conduct) (hf : conduct.Fair limit) (cell : CellId) :
    (c.call cell).Keeps conduct := by
  unfold Config.call
  split
  · rename_i hg
    exact h.missing hf hg
  · exact h.log _ trivial

theorem callSlot (hf : conduct.Fair limit) {answer : Except Fault Slot} (ha : conduct.Admits answer) :
    (Config.callSlot answer : Task σ).Keeps conduct := by
  unfold Config.callSlot
  split
  · rename_i fault
    exact Conduct.admits_error (ha fault rfl)
  · rename_i slot
    split
    · rename_i fault hcell
      exact Conduct.admits_error (hf.admits slot.value.asCell_ample.unrefused fault hcell)
    · trivial

theorem invoke (h : c.Keeps conduct) (hf : conduct.Fair limit) (hh : host.Keeps conduct)
    (procedure : Procedure σ) (payload : Value) : (c.invoke host procedure payload).Keeps conduct := by
  cases procedure with
  | zero => exact h.turn (Conduct.admits_ok ())
  | link =>
    simp only [Config.invoke]
    split
    · rename_i fault hcell
      exact h.fail (hf.admits payload.asCell_ample.unrefused fault hcell)
    · exact h.turn trivial
  | literal =>
    obtain ⟨notices, he⟩ := (Machine.pushLiteral_within (m := c.machine) payload).records
    exact h.go (of_notices he) (hf.admits (Machine.pushLiteral_unrefused payload c.machine))
  | native name =>
    have hname := hh.procedure name
    simp only [Config.invoke]
    cases hb : host.procedure name with
    | program body =>
      rw [hb] at hname
      exact h.turn (hname payload)
    | callTop next =>
      rw [hb] at hname
      exact h.inside hname trivial

theorem run (h : c.Keeps conduct) (hf : conduct.Fair limit) {p : Program σ Unit} (hp : p.Keeps conduct) :
    (c.run p).Keeps conduct := by
  cases p with
  | finish answer =>
    refine h.turn fun fault ha => ?_
    subst ha
    exact hp
  | ask request next =>
    change (c.go (ThreadedCode.serve request) fun answer => .run (next answer)).Keeps conduct
    refine h.serve hp.1 ?_
    exact hp.2 _ (hf.admits (serve_unrefused request c.machine))
  | execute cell next => exact h.inside hp trivial

theorem resume (h : c.Keeps conduct) {answer : Except Fault Unit} (ht : c.task = .give answer) :
    (c.resume answer).Keeps conduct := by
  have ha : (Task.give answer).Keeps conduct := ht ▸ h.task
  unfold Config.resume
  split
  · exact h
  · rename_i rest hframes
    have hall := List.forall_mem_cons.mp (hframes ▸ h.frames)
    exact ⟨h.task, hall.2, h.events⟩
  · rename_i w rest hframes
    have hall := List.forall_mem_cons.mp (hframes ▸ h.frames)
    split
    · exact ⟨trivial, hall.2, h.events⟩
    · exact ⟨h.task, hall.2, h.events⟩
  · rename_i next rest hframes
    have hall := List.forall_mem_cons.mp (hframes ▸ h.frames)
    exact ⟨hall.1 answer ha, hall.2, h.events⟩

theorem step {settings : Settings} (h : c.Keeps conduct) (hb : c.Bounded settings)
    (hf : conduct.Fair settings.maxCallDepth) (hh : host.Keeps conduct) :
    (c.step host).Keeps conduct := by
  have htask := h.task
  unfold Config.step
  cases ht : c.task with
  | execute cell => exact h.execute hf cell (congrArg _ hb.settled) hb.limit
  | enter head => exact h.enter hf head
  | walk w => exact h.walk hf w
  | call cell => exact h.call hf cell
  | callTop =>
    exact h.serve (hf.asks .pop nofun) (callSlot hf (hf.admits (serve_unrefused .pop c.machine)))
  | invoke procedure payload => exact h.invoke hf hh procedure payload
  | run p =>
    rw [ht] at htask
    exact h.run hf htask
  | give answer => exact h.resume ht

theorem iterate {settings : Settings} (h : c.Keeps conduct) (hb : c.Bounded settings)
    (hf : conduct.Fair settings.maxCallDepth) (hh : host.Keeps conduct) (k : Nat) :
    ((Config.step host)^[k] c).Keeps conduct := by
  induction k with
  | zero => exact h
  | succ k ih =>
    rw [Function.iterate_succ_apply']
    exact ih.step (hb.iterate host k) hf hh

end Keeps

/-- A task on a machine in the middle of as many executions as it is deep. -/
def amid (task : Task σ) (m : Machine σ) : Config σ :=
  ⟨task, List.replicate m.callDepth .execution, m, []⟩

variable {conduct : Conduct σ} {host : Host σ} {task : Task σ} {m : Machine σ}

theorem bounded_amid (hb : m.Built) (hd : m.callDepth ≤ m.settings.maxCallDepth)
    (hw : ∀ w, task ≠ .walk w) : (amid task m).Bounded m.settings where
  built := hb
  settled := rfl
  depth := by simp [amid, List.countP_replicate, Frame.isExecution]
  limit := hd
  walks := by
    rintro w (h | h)
    · exact absurd h (hw w)
    · cases List.eq_of_mem_replicate h

theorem keeps_amid (ht : task.Keeps conduct) (m : Machine σ) : (amid task m).Keeps conduct where
  task := ht
  frames := by
    intro frame hmem
    obtain rfl := List.eq_of_mem_replicate hmem
    trivial
  events _ hmem := absurd hmem List.not_mem_nil

/-- What a task comes to keeps to the conduct of its code. -/
theorem Computes.keeps {s : Step σ Unit} (h : Computes host task s m)
    (hb : (amid task m).Bounded m.settings) (ht : task.Keeps conduct)
    (hf : conduct.Fair m.settings.maxCallDepth) (hh : host.Keeps conduct) :
    conduct.Admits (s m).answer ∧ ∀ event ∈ (s m).events, event.Keeps conduct := by
  obtain ⟨k, hk⟩ := h (List.replicate m.callDepth .execution) []
  have hall := (keeps_amid ht m).iterate hb hf hh k
  rw [amid, hk] at hall
  exact ⟨hall.task, hall.events⟩

end Config

open Config in
/-- What happens while a program runs keeps to its conduct. -/
theorem Program.Keeps.start {c : Conduct σ} {host : Host σ} {m : Machine σ} {p : Program σ α}
    (hp : p.Keeps c) (hf : c.Fair m.settings.maxCallDepth) (hh : host.Keeps c) (hb : m.Built)
    (hd : m.callDepth ≤ m.settings.maxCallDepth) :
    ∀ event ∈ (p.start host m).events, event.Keeps c := by
  let q : Program σ Unit := p >>= fun _ => pure ()
  have hevents : (q.start host m).events = (p.start host m).events := by
    have hbind : q.start host = p.start host >>= fun _ => pure () := Program.run_bind _ p _
    rw [hbind]
    cases ha : (p.start host m).answer with
    | ok a => simp [Step.bind_of_ok ha]
    | error fault => simp [Step.bind_of_error ha]
  have hq : (Task.run q).Keeps c := hp.bind fun _ _ => trivial
  have hcomputes : Computes host (.run q) (q.start host) m := operation_computes (.program q) m hb
  obtain ⟨-, hall⟩ := hcomputes.keeps (bounded_amid hb hd nofun) hq hf hh
  rwa [hevents] at hall
end ThreadedCode
