import ThreadedCode.Proofs.Sturdy
import ThreadedCode.Proofs.Termination

/-!
No operation panics. Executed step by step with every guard in place, it does what it is defined to do,
on every machine that operations lead to, with whatever handles they have been given.
-/
namespace ThreadedCode

variable {σ : Signature} {α : Type}

open Guarded

namespace Config

def guardedGo (c : Config σ) (g : GuardedStep σ α) (next : Except Fault α → Task σ) :
    Option (Config σ) :=
  (g c.machine).map fun o => ⟨next o.answer, c.frames, o.machine, c.events ++ o.events⟩

def guardedExecute (c : Config σ) (cell : CellId) : Option (Config σ) :=
  let depth := c.machine.callDepth
  if depth < c.machine.settings.maxCallDepth then do
    let deeper ← sum sizeLimit depth 1
    return { c with
      task := .enter cell
      frames := .execution :: c.frames
      machine := { c.machine with callDepth := deeper } }
  else c.guardedGo (GuardedStep.log (.callDepthExceeded depth cell)) fun _ =>
    .give (.error (.callDepthExceeded depth))

def guardedEnter (c : Config σ) (head : CellId) : Option (Config σ) := do
  match ← (c.machine.cells.guardedGet head).run with
  | .error fault => return c.fail fault
  | .ok cell =>
    if cell.extent = 1 then return { c with task := .call head }
    else c.guardedGo (GuardedStep.log (.walked head cell.extent)) fun _ =>
      .walk (.start head cell.extent)

/-- One round of a walk. Behind a compound word it goes on at the last word that there is, should
the place be none. -/
def guardedWalk (c : Config σ) (w : Walk) : Option (Config σ) :=
  if w.index < w.extent then
    match w.head.shift? w.index with
    | none => some (c.fail (.invalidCell w.head))
    | some id => do
      match ← (c.machine.cells.guardedGet id).run with
      | .error fault => return c.fail fault
      | .ok cell =>
        if cell.extent = 1 then do
          let index ← sum wordLimit w.index 1
          return c.inside (.walk { w.past 1 with index }) (.call id)
        else
          let index := min (w.index + cell.extent) (wordLimit - 1)
          return c.inside (.walk { w.past cell.extent with index }) (.execute id)
  else some { c with task := .give (.ok ()) }

def guardedCall (c : Config σ) (cell : CellId) : Option (Config σ) := do
  match ← (c.machine.cells.guardedGet cell).run with
  | .error fault => return c.fail fault
  | .ok target =>
    c.guardedGo (GuardedStep.log (.called cell)) fun _ => .invoke target.procedure target.payload

def guardedInvoke (host : Host σ) (c : Config σ) : Procedure σ → Value → Option (Config σ)
  | .literal, payload => c.guardedGo (Machine.guardedPushLiteral payload) .give
  | procedure, payload => some (c.invoke host procedure payload)

def guardedRun (c : Config σ) : Program σ Unit → Option (Config σ)
  | .ask request next => c.guardedGo (guardedServe request) fun answer => .run (next answer)
  | p => some (c.run p)

def guardedResume (c : Config σ) (answer : Except Fault Unit) : Option (Config σ) :=
  match c.frames with
  | .execution :: rest => do
    let callDepth ← difference c.machine.callDepth 1
    return { c with frames := rest, machine := { c.machine with callDepth } }
  | _ => some (c.resume answer)

/-- One step, unless it panics. -/
def guardedStep (host : Host σ) (c : Config σ) : Option (Config σ) :=
  match c.task with
  | .execute cell => c.guardedExecute cell
  | .enter head => c.guardedEnter head
  | .walk w => c.guardedWalk w
  | .call cell => c.guardedCall cell
  | .callTop => c.guardedGo (guardedServe .pop) callSlot
  | .invoke procedure payload => c.guardedInvoke host procedure payload
  | .run p => c.guardedRun p
  | .give answer => c.guardedResume answer

/-- So many steps, unless one of them panics. -/
def guardedSteps (host : Host σ) : Nat → Config σ → Option (Config σ)
  | 0, c => some c
  | k + 1, c => do
    guardedSteps host k (← c.guardedStep host)

end Config

/-- The entries that the event's request names can be named in a word. -/
def Event.Fits (event : Event σ) : Prop := ∀ handle ∈ event.uses, handle.Fits

instance (event : Event σ) : Decidable event.Fits :=
  inferInstanceAs (Decidable (∀ handle ∈ event.uses, handle.Fits))

namespace Config

open GuardedStep

variable {host : Host σ} {settings : Settings} {c : Config σ}

/-- Nothing panics, and what comes next has a sturdy machine. -/
structure Calm (guarded : Option (Config σ)) (next : Config σ) : Prop where
  same : guarded = some next
  sturdy : next.machine.Sturdy 0

theorem calm_go {g : GuardedStep σ α} {s : Step σ α} {Q : α → Machine σ → Prop}
    (h : Safe c.machine g s Q) (next : Except Fault α → Task σ) :
    Calm (c.guardedGo g next) (c.go s next) where
  same := by
    rw [guardedGo, h.calm]
    rfl
  sturdy := h.sturdy

theorem calm_log (hs : c.machine.Sturdy 0) (notice : Notice) (next : Except Fault Unit → Task σ) :
    Calm (c.guardedGo (GuardedStep.log notice) next) (c.go (Step.log notice) next) :=
  calm_go (safe_log hs notice (Q := fun _ _ => True) trivial) next

/-- A cell is looked at first. -/
theorem calm_get (hs : c.machine.Sturdy 0) (id : CellId) {guarded : Cell σ → Option (Config σ)}
    {next : Cell σ → Config σ}
    (h : ∀ cell, c.machine.cells.get id = .ok cell → Calm (guarded cell) (next cell)) :
    Calm (do
      match ← (c.machine.cells.guardedGet id).run with
      | .error fault => return c.fail fault
      | .ok cell => guarded cell)
      (match c.machine.cells.get id with
      | .error fault => c.fail fault
      | .ok cell => next cell) := by
  rw [CellArena.guardedGet_eq hs.room]
  cases hg : c.machine.cells.get id with
  | error fault => exact ⟨rfl, hs⟩
  | ok cell => exact h cell hg

theorem Bounded.calm_execute (h : c.Bounded settings) (hs : c.machine.Sturdy 0)
    (hd : settings.maxCallDepth < sizeLimit) (cell : CellId) :
    Calm (c.guardedExecute cell) (c.execute cell) := by
  unfold guardedExecute Config.execute
  simp only
  split
  · rename_i hlt
    rw [h.settled] at hlt
    rw [sum_of_lt (Nat.lt_of_le_of_lt hlt hd)]
    exact ⟨rfl, hs.atDepth _⟩
  · exact calm_log hs ..

theorem calm_enter (hs : c.machine.Sturdy 0) (head : CellId) :
    Calm (c.guardedEnter head) (c.enter head) := by
  refine calm_get hs head fun cell _ => ?_
  split
  · exact ⟨rfl, hs⟩
  · exact calm_log hs ..

/-- Extents end where the cells end, and cells are numbered by words. So a walk goes on at a place that
is a word still. -/
theorem Bounded.calm_walk (h : c.Bounded settings) (hs : c.machine.Sturdy 0) (w : Walk) :
    Calm (c.guardedWalk w) (c.walk w) := by
  unfold guardedWalk Config.walk
  split
  · cases hshift : w.head.shift? w.index with
    | none => exact ⟨rfl, hs⟩
    | some id =>
      refine calm_get hs id fun cell hg => ?_
      have hplace : id.index = w.head.index + w.index := CellId.shift?_eq_some hshift
      have hends : id.index + cell.extent ≤ c.machine.cells.used := by
        rw [← CellArena.extentAt_of_get hg]
        exact h.built.sound.inside _ (CellArena.get_eq_ok.mp hg).1
      have hpos : 1 ≤ cell.extent := by
        rw [← CellArena.extentAt_of_get hg]
        exact h.built.sound.positive _
      have hnumbered := hs.numbered
      split
      · have hnext : w.index + 1 < wordLimit := by omega
        rw [sum_of_lt hnext]
        exact ⟨rfl, hs⟩
      · -- The sum is a word, so it has not been cut off.
        have hnext : min (w.index + cell.extent) (wordLimit - 1) = w.index + cell.extent := by omega
        rw [hnext]
        exact ⟨rfl, hs⟩
  · exact ⟨rfl, hs⟩

theorem calm_call (hs : c.machine.Sturdy 0) (cell : CellId) :
    Calm (c.guardedCall cell) (c.call cell) :=
  calm_get hs cell fun _ _ => calm_log hs ..

theorem calm_invoke (hs : c.machine.Sturdy 0) (host : Host σ) (procedure : Procedure σ)
    (payload : Value) :
    Calm (c.guardedInvoke host procedure payload) (c.invoke host procedure payload) := by
  cases procedure with
  | zero => exact ⟨rfl, hs⟩
  | link =>
    refine ⟨rfl, ?_⟩
    simp only [Config.invoke]
    split
    · exact hs
    · exact hs
  | literal => exact calm_go (Machine.pushLiteral_safe hs payload) .give
  | native name =>
    refine ⟨rfl, ?_⟩
    simp only [Config.invoke]
    split
    · exact hs
    · exact hs

theorem Bounded.calm_run (h : c.Bounded settings) (hs : c.machine.Sturdy 0) (p : Program σ Unit)
    (hfits : ∀ event ∈ (c.run p).events, event.Fits) : Calm (c.guardedRun p) (c.run p) := by
  cases p with
  | finish answer => exact ⟨rfl, hs⟩
  | ask request next =>
    have hr : request.Fits := by
      obtain ⟨notices, he⟩ := serve_events request c.machine
      refine hfits (.served request (perform request c.machine).answer) ?_
      change _ ∈ c.events ++ (serve request c.machine).events
      rw [he]
      simp
    exact calm_go (serve_safe hs h.built hr) fun answer => .run (next answer)
  | execute cell next => exact ⟨rfl, hs⟩

/-- There are as many executions among the frames as the machine is deep. -/
theorem Bounded.calm_resume (h : c.Bounded settings) (hs : c.machine.Sturdy 0)
    (answer : Except Fault Unit) : Calm (c.guardedResume answer) (c.resume answer) := by
  obtain ⟨task, frames, m, events⟩ := c
  cases frames with
  | nil => exact ⟨rfl, hs⟩
  | cons frame rest =>
    cases frame with
    | execution =>
      have hdepth : (Frame.execution :: rest).countP Frame.isExecution = m.callDepth := h.depth
      rw [List.countP_cons_of_pos rfl] at hdepth
      have hdeep : 1 ≤ m.callDepth := by omega
      simp only [guardedResume, difference_of_le hdeep]
      exact ⟨rfl, hs.atDepth _⟩
    | walk w =>
      cases answer with
      | ok _ => exact ⟨rfl, hs⟩
      | error fault => exact ⟨rfl, hs⟩
    | code next => exact ⟨rfl, hs⟩

/-- No step panics whose requests name entries by words. -/
theorem Bounded.calm_step (h : c.Bounded settings) (hs : c.machine.Sturdy 0)
    (hd : settings.maxCallDepth < sizeLimit) (hfits : ∀ event ∈ (c.step host).events, event.Fits) :
    Calm (c.guardedStep host) (c.step host) := by
  unfold guardedStep Config.step at *
  cases ht : c.task with
  | execute cell => exact h.calm_execute hs hd cell
  | enter head => exact calm_enter hs head
  | walk w => exact h.calm_walk hs w
  | call cell => exact calm_call hs cell
  | callTop =>
    have hpop : Request.Fits (σ := σ) .pop := fun _ hid => absurd hid List.not_mem_nil
    exact calm_go (serve_safe hs h.built hpop) callSlot
  | invoke procedure payload => exact calm_invoke hs host procedure payload
  | run p =>
    rw [ht] at hfits
    exact h.calm_run hs p hfits
  | give answer => exact h.calm_resume hs answer

/-- What has happened stays on record. -/
theorem events_step (host : Host σ) (c : Config σ) : c.events <+: (c.step host).events := by
  have hgo : ∀ {α : Type} (s : Step σ α) (next : Except Fault α → Task σ),
      c.events <+: (c.go s next).events := fun _ _ => List.prefix_append ..
  unfold Config.step
  cases c.task with
  | execute cell =>
    simp only [Config.execute]
    split
    · exact List.prefix_rfl
    · exact hgo ..
  | enter head =>
    simp only [Config.enter]
    split
    · exact List.prefix_rfl
    · split
      · exact List.prefix_rfl
      · exact hgo ..
  | walk w =>
    simp only [Config.walk]
    repeat' split
    all_goals exact List.prefix_rfl
  | call cell =>
    simp only [Config.call]
    split
    · exact List.prefix_rfl
    · exact hgo ..
  | callTop => exact hgo ..
  | invoke procedure payload =>
    cases procedure with
    | literal => exact hgo ..
    | _ =>
      simp only [Config.invoke]
      repeat' split
      all_goals exact List.prefix_rfl
  | run p =>
    cases p with
    | ask request next => exact hgo ..
    | _ => exact List.prefix_rfl
  | give answer =>
    simp only [Config.resume]
    repeat' split
    all_goals exact List.prefix_rfl

theorem events_steps (host : Host σ) (k : Nat) (c : Config σ) :
    c.events <+: ((step host)^[k] c).events := by
  induction k with
  | zero => exact List.prefix_rfl
  | succ k ih =>
    rw [Function.iterate_succ_apply']
    exact ih.trans (events_step host _)

theorem Bounded.calm_steps (h : c.Bounded settings) (hs : c.machine.Sturdy 0)
    (hd : settings.maxCallDepth < sizeLimit) (k : Nat)
    (hfits : ∀ event ∈ ((Config.step host)^[k] c).events, event.Fits) :
    Calm (guardedSteps host k c) ((Config.step host)^[k] c) := by
  induction k generalizing c with
  | zero => exact ⟨rfl, hs⟩
  | succ k ih =>
    rw [Function.iterate_succ_apply] at hfits ⊢
    have hstep : Calm (c.guardedStep host) (c.step host) :=
      h.calm_step hs hd fun event he => hfits event ((events_steps host k _).subset he)
    have hnext : (c.step host).Bounded settings := h.step host
    have hrest := ih hnext hstep.sturdy hfits
    refine ⟨?_, hrest.sturdy⟩
    change (c.guardedStep host).bind (guardedSteps host k) = _
    rw [hstep.same, Option.bind_some, hrest.same]

/-- Whatever is on record on the way is so in the end. -/
theorem events_subset (host : Host σ) (op : Operation σ) {m : Machine σ} (hb : m.Built) (k : Nat) :
    ((step host)^[k] (op.config m)).events ⊆ (op.step host m).events := by
  obtain ⟨l, hend⟩ : Reaches host (op.config m) (giving [] [] (op.step host m)) :=
    operation_computes op m hb [] []
  -- The end is a fixed point, so that it is reached from every config on the way.
  have hstays : (step host)^[k] (giving [] [] (op.step host m)) = giving [] [] (op.step host m) :=
    Function.iterate_fixed rfl k
  have hlater : (step host)^[l] ((step host)^[k] (op.config m)) = giving [] [] (op.step host m) := by
    rw [← Function.iterate_add_apply, Nat.add_comm, Function.iterate_add_apply, hend, hstays]
  have hkept := events_steps host l ((step host)^[k] (op.config m))
  rw [hlater] at hkept
  exact hkept.subset

end Config

namespace Machine

variable {m n : Machine σ} {past events : List (Event σ)}

theorem Sturdy.of_empty {b : ByteArena} {a : CellArena σ} {mode : Mode} (hb : m.bytes = b.reset)
    (hsmall : b.capacity < addressLimit) (hc : m.cells = a.reset) (hs : m.stack.depth = 0)
    (ho : m.openWords = .none) (hd : m.dictionary = .empty mode)
    (hl : m.copies.rows.length ≤ CopyTable.capacity) : m.Sturdy 0 where
  held := ⟨[], hb ▸ .of_reset b⟩
  small := by
    rw [hb]
    simpa [ByteArena.reset, ByteArena.capacity] using hsmall
  room := by
    rw [hc]
    exact Nat.zero_le _
  numbered := by
    rw [hc]
    exact Nat.zero_lt_succ _
  stacked := by omega
  nested := by
    rw [ho]
    decide
  listed := hl
  defined := by
    rw [hd]
    refine ⟨Nat.zero_le _, Nat.zero_lt_succ _, fun i => ?_, fun i id hid => ?_, fun i id hid => ?_⟩
    · simp [Dictionary.empty, Bucket.empty]
    · simp [Dictionary.empty, Bucket.empty] at hid
    · simp [Dictionary.newest, Dictionary.empty, Bucket.empty] at hid

/-- The machine has not gone out of bounds, and the entries that it has given out are named by
words. -/
structure Firm (m : Machine σ) (past : List (Event σ)) : Prop where
  built : m.Built
  sturdy : m.Sturdy 0
  limited : m.settings.maxCallDepth < sizeLimit
  gives : ∀ id, Handle.entry id ∈ given past → id.Fits

namespace Firm

theorem logged (h : m.Firm past) (hb : n.Built) (hs : n.Sturdy 0) (he : n.settings = m.settings)
    (notices : List Notice) : n.Firm (past ++ notices.map .logged) where
  built := hb
  sturdy := hs
  limited := he ▸ h.limited
  gives := by
    rw [given_append, given_logged, List.append_nil]
    exact h.gives

theorem served (h : m.Firm past) (r : Request σ) (hfits : ∀ event ∈ (serve r m).events, event.Fits) :
    (serve r m).machine.Firm (past ++ (serve r m).events) := by
  obtain ⟨hb, hsettings, -⟩ := h.built.steadied_serve r
  obtain ⟨notices, he⟩ := serve_events r m
  rw [he] at hfits ⊢
  have hr : r.Fits := hfits (.served r (perform r m).answer) (by simp)
  refine ⟨hb, (serve_safe h.sturdy h.built hr).sturdy, hsettings ▸ h.limited, fun id hid => ?_⟩
  rw [given_append, given_append, given_logged, List.nil_append] at hid
  rcases List.mem_append.mp hid with hid | hid
  · exact h.gives id hid
  · rw [given, List.flatMap_singleton] at hid
    exact perform_gives h.sturdy r hid

theorem move {allowed : Value → Prop} (h : m.Firm past) (hm : Move allowed m events n)
    (hfits : ∀ event ∈ events, event.Fits) : n.Firm (past ++ events) := by
  cases hm with
  | served r => exact h.served r hfits
  | literal v _ =>
    obtain ⟨hb, hsettings, -⟩ := h.built.steadied_literal v
    obtain ⟨notices, he⟩ := (pushLiteral_within (m := m) v).records
    rw [he]
    exact h.logged hb (pushLiteral_safe h.sturdy v).sturdy hsettings notices
  | noted notice =>
    obtain ⟨notices, he⟩ := Step.log_events notice m
    rw [he]
    exact h.logged h.built h.sturdy rfl notices
  | deeper => exact h.logged (h.built.atDepth (m.callDepth + 1)) (h.sturdy.atDepth _) rfl []
  | back => exact h.logged (h.built.atDepth (m.callDepth - 1)) (h.sturdy.atDepth _) rfl []

theorem moves {allowed : Value → Prop} (h : m.Firm past) (hm : Moves allowed m events n)
    (hfits : ∀ event ∈ events, event.Fits) : n.Firm (past ++ events) := by
  induction hm generalizing past with
  | refl m =>
    rw [List.append_nil]
    exact h
  | step hm _ ih =>
    rw [← List.append_assoc]
    exact ih (h.move hm fun event he => hfits event (List.mem_append_left _ he))
      fun event he => hfits event (List.mem_append_right _ he)

end Firm

/-- What is in use lies within the storage, and the rest of the bytes is zero. -/
structure WithinBounds (m : Machine σ) : Prop where
  bytes : m.bytes.used ≤ m.bytes.capacity
  zero : ∀ i, m.bytes.used ≤ i → i < m.bytes.capacity → m.bytes.buffer[i]? = some 0
  cells : m.cells.used ≤ m.cells.capacity
  stack : m.stack.depth ≤ Stack.capacity
  openWords : m.openWords.depth ≤ OpenWords.capacity

theorem Sturdy.withinBounds {spare : Nat} (h : m.Sturdy spare) : m.WithinBounds where
  bytes := h.fits
  zero i hi hc := by
    obtain ⟨_, hheld⟩ := h.held
    exact hheld.zero hi hc
  cells := h.room
  stack := h.stacked
  openWords := h.nested

end Machine

/-- The machines that operations lead to on buffers that fit into an address space, with a limit on
nesting that is a size. Entries are named by words, but not necessarily by those that have been given
out, or since the last reset. -/
inductive SizedRun (host : Host σ) : List (Event σ) → Machine σ → Prop
  | created (bytes : Array UInt8) (cells : Array (Cell σ)) (settings : Settings)
    (verbosity : Option Level) (hb : bytes.size < addressLimit)
    (hd : settings.maxCallDepth < sizeLimit) :
    SizedRun host [] (.create bytes cells settings verbosity)
  | operated {past : List (Event σ)} {m : Machine σ} (h : SizedRun host past m) (op : Operation σ)
    (hfits : ∀ event ∈ (op.step host m).events, event.Fits) :
    SizedRun host (past ++ (op.step host m).events) (op.step host m).machine
  | emptied {past : List (Event σ)} {m : Machine σ} (h : SizedRun host past m) :
    SizedRun host [] (Machine.reset m).machine

namespace SizedRun

variable {host : Host σ} {past : List (Event σ)} {m : Machine σ}

theorem run (h : SizedRun host past m) : Run host past m := by
  induction h with
  | created bytes cells settings verbosity => exact .created bytes cells settings verbosity
  | operated _ op _ ih => exact ih.operated op
  | emptied _ ih => exact ih.emptied

theorem firm (h : SizedRun host past m) : m.Firm past := by
  induction h with
  | created bytes cells settings verbosity hb hd =>
    have hempty : Run host [] (.create bytes cells settings verbosity) :=
      .created bytes cells settings verbosity
    refine ⟨hempty.built.1, ?_, hd, nofun⟩
    exact .of_empty rfl hb rfl rfl rfl rfl (Nat.le_add_left ..)
  | operated _ op hfits ih => exact ih.moves (op.moves host _) hfits
  | emptied h ih =>
    refine ⟨h.run.emptied.built.1, ?_, ih.limited, nofun⟩
    exact .of_empty rfl ih.sturdy.small rfl rfl rfl rfl ih.sturdy.listed

end SizedRun

open Config in
/-- No operation panics, whichever cells it names, and whichever values and entries: those of
before a reset, or of its own making. At every step each guard holds, so that the operation comes to its
outcome, which is an answer or a fault, and what is in use lies within the storage. Afterwards no
execution is under way, and the entries that have been given out are named by words again. -/
theorem SizedRun.never_panics {host : Host σ} {past : List (Event σ)} {m : Machine σ}
    (h : SizedRun host past m) (op : Operation σ)
    (hfits : ∀ event ∈ (op.step host m).events, event.Fits) :
    (∀ k, guardedSteps host k (op.config m) = some ((step host)^[k] (op.config m)) ∧
      ((step host)^[k] (op.config m)).machine.WithinBounds) ∧
    (∃ k, guardedSteps host k (op.config m) =
      some ⟨.give (op.step host m).answer, [], (op.step host m).machine, (op.step host m).events⟩) ∧
    (op.step host m).machine.callDepth = 0 ∧
    ∀ id, Handle.entry id ∈ given (past ++ (op.step host m).events) → id.Fits := by
  have hm := h.firm
  have hstart := bounded_start op hm.built h.run.at_rest
  have hcalm : ∀ k, Calm (guardedSteps host k (op.config m)) ((step host)^[k] (op.config m)) :=
    fun k => hstart.calm_steps hm.sturdy hm.limited k fun event he =>
      hfits event (events_subset host op hm.built k he)
  refine ⟨fun k => ⟨(hcalm k).same, (hcalm k).sturdy.withinBounds⟩, ?_, (h.run.operated op).at_rest,
    (h.operated op hfits).firm.gives⟩
  obtain ⟨k, hend⟩ : Reaches host (op.config m) (giving [] [] (op.step host m)) :=
    operation_computes op m hm.built [] []
  exact ⟨k, (hcalm k).same.trans (congrArg some hend)⟩

/-- A word that is defined and then forgotten. -/
def Stock.forgotten : Program Stock.signature Unit := do
  let id ← request (.createEntry (← request .newCell))
  request (.define "forgotten" id)

/-- A string in place of the first record, and then the name in that record. -/
def Stock.overlaid : Program Stock.signature Unit := do
  let _ ← request (.boxText "in place of a record")
  let _ ← request (.entryName ⟨⟨0⟩⟩)

open Stock Config in
/-- The entry is named that was given out before the reset. What is read as its record is text. -/
theorem SizedRun.never_panics_of_overlaid :
    let m : Machine signature := .create (.replicate 64 7) (.replicate 1 .empty) ⟨1, .strict⟩ none
    let o := forgotten.start host m
    let n := (Machine.reset o.machine).machine
    let p := overlaid.start host n
    Handle.entry ⟨⟨0⟩⟩ ∈ given o.events ∧ SizedRun host [] n ∧ (∀ event ∈ p.events, event.Fits) ∧
    p.answer = .error .invalidHandle ∧
    ∃ k, guardedSteps host k ((Operation.program overlaid).config n) =
      some ⟨.give p.answer, [], p.machine, p.events⟩ := by
  intro m o n p
  have hcreated : SizedRun host [] m :=
    .created (.replicate 64 7) (.replicate 1 .empty) ⟨1, .strict⟩ none (by decide) (by decide)
  have hfirst : ∀ event ∈ o.events, event.Fits := by decide +kernel
  have hrun : SizedRun host [] n := (hcreated.operated (.program forgotten) hfirst).emptied
  have hgiven : Handle.entry ⟨⟨0⟩⟩ ∈ given o.events := by decide +kernel
  have hfits : ∀ event ∈ p.events, event.Fits := by decide +kernel
  have hfault : p.answer = .error .invalidHandle := by decide +kernel
  exact ⟨hgiven, hrun, hfits, hfault, (hrun.never_panics (.program overlaid) hfits).2.1⟩

end ThreadedCode
