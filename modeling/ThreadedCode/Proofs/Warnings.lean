import Mathlib.Data.List.Iterate
import ThreadedCode.Machine.Lifetime
import ThreadedCode.Proofs.Shortages
import ThreadedCode.Proofs.Slots

/-!
Warnings. A machine that is heard warns of each shortage that it comes to by itself, once, and of
nothing else; what is passed on it does not warn of again. Some shortages it overlooks.
-/
namespace ThreadedCode

variable {σ : Signature} {α β : Type}

/-- The records at the level of a warning. -/
def warnings (events : List (Event σ)) : List Notice :=
  (events.filterMap Event.notice?).filter fun notice => notice.level = .warn

theorem warnings_append (first rest : List (Event σ)) :
    warnings (first ++ rest) = warnings first ++ warnings rest := by
  rw [warnings, List.filterMap_append, List.filter_append]
  rfl

/-- Warnings are the records that tell of shortages. -/
theorem warnings_reports (events : List (Event σ)) :
    (warnings events).map Notice.reports = (reported events).map some := by
  induction events with
  | nil => rfl
  | cons event rest ih =>
    have hsingle : (warnings [event]).map Notice.reports = (reported [event]).map some := by
      cases event with
      | served r answer => rfl
      | logged notice => cases notice <;> rfl
    rw [← List.singleton_append, warnings_append, reported_append, List.map_append, List.map_append,
      hsingle, ih]

/-- The shortage that an answer ends with, if it does. -/
def shortage : Except Fault α → List Fault
  | .error fault => if fault.isShortage then [fault] else []
  | .ok _ => []

theorem Ample.shortage {answer : Except Fault α} (h : Ample answer) : shortage answer = [] := by
  cases answer with
  | ok a => rfl
  | error fault => simp [ThreadedCode.shortage, h fault rfl]

/-- There are so many bytes left, but no number for the first of them. -/
def ByteArena.outnumbered (a : ByteArena) (size : Nat) : Bool :=
  a.hasRoom size && decide (wordLimit ≤ a.used + 1)

/-- The request meets a shortage that is looked for only after the place where it would be warned
of. -/
def Request.overlooked (m : Machine σ) : Request σ → Bool
  | .newCell => m.cells.hasRoom && decide (wordLimit ≤ m.cells.used + 1)
  | .createEntry _ => m.bytes.outnumbered Entry.size
  | .boxFloat _ => m.bytes.outnumbered Word.size
  | .boxText text | .define text _ => decide (wordLimit ≤ text.toUTF8.toList.length) ||
    m.bytes.outnumbered (text.toUTF8.toList.length + 1)
  | .popFloat => m.stack.isEmpty
  | _ => false

/-- On this machine the step tells of the shortage that it ends with, unless that is overlooked, and
of nothing else. -/
def Step.Warns (s : Step σ α) (m : Machine σ) (overlooked : Bool) : Prop :=
  reported (s m).events = if overlooked then [] else shortage (s m).answer

namespace Step

variable {m : Machine σ} {overlooked : Bool} {s : Step σ α} {next : α → Step σ β} {notice : Notice}

theorem Plain.warns (h : s.Plain) (m : Machine σ) (overlooked : Bool) : s.Warns m overlooked := by
  rw [Warns, h.silent, (h.ample m).shortage, ite_self]

theorem warns_bind (hs : s.Warns m overlooked)
    (hn : ∀ a, (s m).answer = .ok a → (next a).Warns (s m).machine overlooked) :
    (s >>= next).Warns m overlooked := by
  cases ha : (s m).answer with
  | error fault =>
    rw [Warns, bind_of_error ha]
    rw [Warns, ha] at hs
    exact hs
  | ok a =>
    rw [Warns, ha] at hs
    -- What goes on has come to no shortage so far, so only what follows can tell of one.
    have hquiet : reported (s m).events = [] := hs.trans (ite_self _)
    rw [Warns, bind_of_ok ha, Outcome.after_events, reported_append, hquiet, List.nil_append]
    exact hn a ha

theorem warns_bind_plain (hs : s.Warns m overlooked) (hn : ∀ a, (next a).Plain) :
    (s >>= next).Warns m overlooked :=
  warns_bind hs fun a _ => (hn a).warns _ _

theorem warns_get {next : Machine σ → Step σ α} (h : (next m).Warns m overlooked) :
    (get >>= next).Warns m overlooked := h

theorem warns_done {answer : Except Fault α} (h : overlooked = true ∨ Ample answer) :
    (done answer : Step σ α).Warns m overlooked := by
  rcases h with rfl | h
  · rfl
  · exact (plain_done h).warns m overlooked

theorem log_heard (hv : m.verbosity ≠ none) (h : notice.level = .warn) :
    log notice m = ⟨.ok (), m, [.logged notice]⟩ := by
  obtain ⟨level, hlevel⟩ := Option.ne_none_iff_exists'.mp hv
  have hheard : notice.level.heardBy m.verbosity = true := by
    rw [h, hlevel]
    cases level <;> rfl
  rw [log, hheard, if_pos rfl]

/-- A shortage is told of where it is found. -/
theorem log_bind_warns (hv : m.verbosity ≠ none) (h : notice.level = .warn) {fault : Fault}
    (hn : notice.reports = some fault) (hf : fault.isShortage = true) {s : Step σ α}
    (hs : s m = ⟨.error fault, m, []⟩) : (log notice >>= fun _ => s).Warns m false := by
  have hrun : (log notice >>= fun _ => s) m = (s m).after [.logged notice] := by
    rw [log_bind, log_heard hv h]
  rw [Warns, hrun, Outcome.after_events, Outcome.after_answer, hs, List.append_nil]
  simp [reported, Event.reports, hn, shortage, hf]

end Step

namespace Machine

open Step

variable {m : Machine σ}

/-- What goes on from the warning about the bytes that are left. -/
theorem warnUnlessRoom_warns (hv : m.verbosity ≠ none) {size : Nat} {overlooked : Bool} {s : Step σ α}
    (hroom : m.bytes.hasRoom size = true → s.Warns m overlooked)
    (hfull : m.bytes.hasRoom size = false → overlooked = false ∧
      s m = ⟨.error (m.bytes.full size), m, []⟩) :
    (warnUnlessRoom size >>= fun _ => s).Warns m overlooked := by
  have hrun : (warnUnlessRoom size >>= fun _ => s) m = if m.bytes.hasRoom size then s m
      else (log (.arenaFull (m.bytes.full size)) >>= fun _ => s) m := by
    simp only [warnUnlessRoom, bind_apply, get_apply, Outcome.bind_ok, Outcome.after_nil]
    split <;> rfl
  cases h : m.bytes.hasRoom size with
  | true =>
    rw [h, if_pos rfl] at hrun
    rw [Warns, hrun]
    exact hroom h
  | false =>
    obtain ⟨rfl, hs⟩ := hfull h
    rw [h, if_neg (by decide)] at hrun
    rw [Warns, hrun]
    exact log_bind_warns hv rfl rfl rfl hs

end Machine

namespace ByteArena

variable (a : ByteArena)

theorem allocate_of_full {size : Nat} (h : a.hasRoom size = false) :
    a.allocate size = .error (a.full size) := by
  rw [allocate, h, if_neg (by simp)]

theorem allocate_of_room {size : Nat} (h : a.hasRoom size = true) :
    a.outnumbered size = true ∨ Ample (a.allocate size) := by
  by_cases hnumber : a.used + 1 < wordLimit
  · right
    rw [allocate, if_pos ⟨h, hnumber⟩]
    exact ample_ok _
  · left
    rw [outnumbered, h, Bool.true_and]
    exact decide_eq_true (Nat.le_of_not_lt hnumber)

theorem outnumbered_of_full {size : Nat} (h : a.hasRoom size = false) : a.outnumbered size = false := by
  rw [outnumbered, h, Bool.false_and]

theorem allocateCopy_of_full {bytes : List UInt8} (h : a.hasRoom bytes.length = false) :
    a.allocateCopy bytes = (.error (a.full bytes.length), a) := by
  rw [allocateCopy, a.allocate_of_full h]

theorem allocateCopy_of_room {bytes : List UInt8} (h : a.hasRoom bytes.length = true) :
    a.outnumbered bytes.length = true ∨ Ample (a.allocateCopy bytes).1 := by
  refine (a.allocate_of_room h).imp_right fun hample => ?_
  unfold allocateCopy
  split
  · rename_i fault hfault
    exact ample_error (hample fault hfault)
  · rename_i address grown _
    split
    · rename_i fault hfault
      exact ample_error (grown.write_ample _ _ fault hfault)
    · exact ample_ok _

end ByteArena

namespace Stack

variable {s : Stack}

theorem top?_of_empty (h : s.isEmpty = true) : s.top? = none := by
  rw [top?, nth?, eq_of_beq h]
  rfl

theorem top?_of_depth (h : s.depth ≤ capacity) (hsome : s.isEmpty = false) :
    ∃ top, s.top? = some top := by
  have hpos : 0 < s.depth := Nat.pos_of_ne_zero fun hzero => by simp [isEmpty, hzero] at hsome
  have hlt : s.depth - 1 < capacity := by omega
  refine ⟨s.slots[s.depth - 1], ?_⟩
  rw [top?, nth?, if_pos hpos, Nat.sub_zero, Vector.getElem?_eq_getElem hlt]

end Stack

namespace Machine

open Step

variable {m : Machine σ}

theorem allocate_warns (hv : m.verbosity ≠ none) (size : Nat) :
    (allocate size).Warns m (m.bytes.outnumbered size) := by
  refine warnUnlessRoom_warns hv (fun h => warns_get ?_)
    fun h => ⟨m.bytes.outnumbered_of_full h, ?_⟩
  · exact warns_bind_plain (warns_done (m.bytes.allocate_of_room h)) fun _ =>
      plain_bind (plain_modify _) fun _ => plain_pure _
  · simp [bind_apply, m.bytes.allocate_of_full h]

theorem boxFloat_warns (hv : m.verbosity ≠ none) (x : Single) :
    (boxFloat x).Warns m (m.bytes.outnumbered Word.size) := by
  refine warns_bind_plain ?_ fun _ => plain_pure _
  refine warnUnlessRoom_warns hv (fun h => warns_get ?_)
    fun h => ⟨m.bytes.outnumbered_of_full h, ?_⟩
  · refine warns_bind (plain_modify _ |>.warns _ _) fun _ _ => warns_done ?_
    exact m.bytes.allocateCopy_of_room h
  · simp [bind_apply, m.bytes.allocateCopy_of_full h]

theorem boxText_warns (hv : m.verbosity ≠ none) (text : String) :
    (boxText text).Warns m ((Request.boxText text).overlooked m) := by
  simp only [boxText, Request.overlooked]
  split
  · rename_i hlt
    rw [decide_eq_false (Nat.not_le.mpr hlt), Bool.false_or]
    refine warns_bind_plain (allocate_warns hv _) fun _ => ?_
    exact plain_bind (write_plain _ _) fun _ => plain_pure _
  · rename_i hge
    rw [decide_eq_true (Nat.le_of_not_lt hge), Bool.true_or]
    rfl

theorem createEntry_warns (hv : m.verbosity ≠ none) (cell : CellId) :
    (createEntry cell).Warns m (m.bytes.outnumbered Entry.size) := by
  refine warns_get (warns_bind (warns_done (.inr (m.cells.get_ample cell))) fun _ _ => ?_)
  refine warns_bind_plain (allocate_warns hv _) fun _ => ?_
  exact plain_bind (writeField_plain _ _ _) fun _ =>
    plain_bind (writeField_plain _ _ _) fun _ => plain_pure _

theorem define_warns (hv : m.verbosity ≠ none) (name : String) (id : EntryId) :
    (define name id).Warns m ((Request.boxText name).overlooked m) := by
  refine warns_bind ((entry_plain id).warns _ _) fun record _ => ?_
  have hsame : (entry id m).machine = m := rfl
  rw [hsame]
  split
  · refine warns_get (warns_bind_plain (boxText_warns hv name) fun boxed => ?_)
    have hlast : ∀ index : Fin Dictionary.bucketCount, (do
        modify fun m => { m with dictionary := m.dictionary.append index id }
        log (.defined name index) : Step σ Unit).Plain :=
      fun _ => plain_bind (plain_modify _) fun _ => plain_log rfl
    refine plain_bind (plain_done boxed.asString_ample) fun _ => ?_
    refine plain_bind (writeField_plain _ _ _) fun _ => ?_
    refine plain_bind (writeField_plain _ _ _) fun _ => plain_get fun n => ?_
    split
    · exact plain_bind (writeField_plain _ _ _) fun _ => hlast _
    · exact hlast _
  · exact warns_done (.inr (ample_error rfl))

theorem newCell_warns (hv : m.verbosity ≠ none) :
    newCell.Warns m ((Request.newCell (σ := σ)).overlooked m) := by
  refine warns_get ?_
  have hplain : ∀ granted : CellId × CellArena σ, (do
      set { m with cells := granted.2 }
      m.openWords.heads.reverse.forM grow
      return granted.1 : Step σ CellId).Plain :=
    fun _ => plain_bind (plain_set _) fun _ => plain_bind (grow_all_plain _) fun _ => plain_pure _
  split
  · rename_i hroom
    refine warns_bind_plain (warns_done ?_) hplain
    by_cases hnumber : m.cells.used + 1 < wordLimit
    · right
      rw [CellArena.allocate, if_pos ⟨hroom, hnumber⟩]
      exact ample_ok _
    · left
      rw [Request.overlooked, hroom, Bool.true_and]
      exact decide_eq_true (Nat.le_of_not_lt hnumber)
  · rename_i hfull
    have hallocate : m.cells.allocate = .error (.cellArenaFull m.cells.capacity) :=
      if_neg fun h => hfull h.1
    have hnot : (Request.newCell (σ := σ)).overlooked m = false := by
      rw [Request.overlooked, Bool.eq_false_iff.mpr hfull, Bool.false_and]
    rw [hnot]
    exact log_bind_warns hv rfl rfl rfl (by simp [bind_apply, hallocate])

theorem push_warns (hv : m.verbosity ≠ none) (slot : Slot) : (push slot).Warns m false := by
  refine warns_get ?_
  have hpush := Stack.pushSlot_eq m.stack slot
  split
  · rename_i hlt
    rw [if_pos hlt] at hpush
    refine warns_bind_plain (warns_done (.inr ?_)) fun _ => plain_set _
    rw [hpush]
    exact ample_ok _
  · rename_i hfull
    rw [if_neg hfull] at hpush
    exact log_bind_warns hv rfl rfl rfl (by simp [bind_apply, hpush])

theorem pop_warns (hv : m.verbosity ≠ none) (hdepth : m.stack.depth ≤ Stack.capacity) :
    pop.Warns m false := by
  refine warns_get ?_
  cases hempty : m.stack.isEmpty with
  | true =>
    have hpop : m.stack.pop = .error .stackUnderflow := by
      rw [Stack.pop, Stack.top?_of_empty hempty]
    rw [if_pos rfl]
    exact log_bind_warns hv rfl rfl rfl (by simp [bind_apply, hpop])
  | false =>
    obtain ⟨top, htop⟩ := Stack.top?_of_depth hdepth hempty
    rw [if_neg (by decide)]
    refine warns_bind_plain (warns_done (.inr ?_)) fun _ => plain_bind (plain_set _) fun _ =>
      plain_pure _
    rw [Stack.pop, htop]
    exact ample_ok _

theorem popFloat_warns (hv : m.verbosity ≠ none) (hdepth : m.stack.depth ≤ Stack.capacity) :
    popFloat.Warns m m.stack.isEmpty := by
  refine warns_get ?_
  cases hempty : m.stack.isEmpty with
  | true =>
    rw [Stack.top?_of_empty hempty]
    exact warns_done (.inl rfl)
  | false =>
    obtain ⟨top, htop⟩ := Stack.top?_of_depth hdepth hempty
    rw [htop]
    change (if top.kind = .float then _ else _ : Step σ Single).Warns m false
    split
    · refine warns_bind ((floatOf_plain top).warns _ _) fun x _ => ?_
      rw [floatOf_machine]
      exact warns_bind_plain (pop_warns hv hdepth) fun _ => plain_pure _
    · exact warns_done (.inr (ample_error rfl))

theorem pushLiteral_warns (hv : m.verbosity ≠ none) (v : Value) : (pushLiteral v).Warns m false := by
  unfold pushLiteral
  split
  · rename_i a
    refine warns_bind ((readFloat_plain (.float a)).warns _ _) fun x _ => ?_
    exact push_warns hv _
  · exact warns_bind ((plain_pure Single.zero).warns _ _) fun x _ => push_warns hv _

end Machine

open Machine in
/-- A request tells of the shortage that it ends with, unless it overlooks that one, and of nothing
else. -/
theorem perform_warns {m : Machine σ} (hv : m.verbosity ≠ none)
    (hdepth : m.stack.depth ≤ Stack.capacity) (r : Request σ) : (perform r).Warns m (r.overlooked m) := by
  cases r with
  | newCell => exact newCell_warns hv
  | createEntry cell => exact createEntry_warns hv cell
  | define name id => exact define_warns hv name id
  | boxFloat x => exact boxFloat_warns hv x
  | boxText text => exact boxText_warns hv text
  | push slot => exact push_warns hv slot
  | pop => exact pop_warns hv hdepth
  | popFloat => exact popFloat_warns hv hdepth
  | _ => exact (perform_plain rfl).warns _ _

theorem serve_warns {m : Machine σ} (hv : m.verbosity ≠ none)
    (hdepth : m.stack.depth ≤ Stack.capacity) (r : Request σ) : (serve r).Warns m (r.overlooked m) := by
  have hserved : reported (serve r m).events = reported (perform r m).events := by
    change reported ((perform r m).events ++ ([.served r (perform r m).answer] ++ [])) = _
    rw [reported_append]
    exact List.append_nil _
  rw [Step.Warns, hserved, serve_answer]
  exact perform_warns hv hdepth r

/-- The shortage that a task has come to. -/
def Task.shortage : Task σ → List Fault
  | .give answer => ThreadedCode.shortage answer
  | _ => []

/-- To fail for something else is no shortage. -/
theorem Task.shortage_of_other {fault : Fault} (h : fault.isShortage = false) :
    (Task.give (.error fault) : Task σ).shortage = [] :=
  (ample_error h : Ample (.error fault : Except Fault Unit)).shortage

namespace Config

open Step Machine

/-- The shortage that the next step comes to. What a frame is told is only passed on, and what native
code finishes with is its own. -/
def shortages (host : Host σ) (c : Config σ) : List Fault :=
  match c.task with
  | .give _ | .run (.finish _) => []
  | .run (.ask r _) => shortage (serve r c.machine).answer
  | _ => (c.step host).task.shortage

/-- The next step meets a shortage and does not warn of it. -/
def overlooks (c : Config σ) : Bool :=
  match c.task with
  | .run (.ask r _) => r.overlooked c.machine
  | _ => false

/-- The shortage that the next step comes to and does not overlook. -/
def warned (host : Host σ) (c : Config σ) : List Fault := if c.overlooks then [] else c.shortages host

/-- What one step can do to the machine and to the record, and what it has to warn of then. -/
inductive Acts (c d : Config σ) : List Fault → Prop where
  | quiet (callDepth : Nat) (machine : d.machine = { c.machine with callDepth })
    (events : d.events = c.events) : Acts c d []
  | told (notice : Notice) (machine : d.machine = c.machine)
    (events : d.events = c.events ++ (log notice c.machine).events) :
    Acts c d notice.reports.toList
  | served (r : Request σ) (machine : d.machine = (serve r c.machine).machine)
    (events : d.events = c.events ++ (serve r c.machine).events) :
    Acts c d (if r.overlooked c.machine then [] else shortage (serve r c.machine).answer)
  | pushed (v : Value) (machine : d.machine = (pushLiteral v c.machine).machine)
    (events : d.events = c.events ++ (pushLiteral v c.machine).events) :
    Acts c d (shortage (pushLiteral v c.machine).answer)

/-- The machine does this by itself and passes nothing on, so a shortage that it comes to is new. -/
def ActsAlone (c d : Config σ) : Prop := c.Acts d d.task.shortage

section
variable (c : Config σ)

/-- To turn to something else is to come to nothing. -/
theorem alone_turn {task : Task σ} {frames : List (Frame σ)} (h : task.shortage = []) :
    c.ActsAlone { c with task, frames } := by
  change c.Acts _ task.shortage
  rw [h]
  exact .quiet c.machine.callDepth rfl rfl

theorem alone_fail {fault : Fault} (h : fault.isShortage = false) : c.ActsAlone (c.fail fault) :=
  c.alone_turn (Task.shortage_of_other h)

theorem alone_log {notice : Notice} {task : Task σ} (h : task.shortage = notice.reports.toList) :
    c.ActsAlone (c.go (log notice) fun _ => task) := by
  change c.Acts _ task.shortage
  rw [h]
  exact .told notice rfl rfl

theorem alone_execute (cell : CellId) : c.ActsAlone (c.execute cell) := by
  unfold Config.execute
  simp only
  split
  · exact .quiet _ rfl rfl
  · exact c.alone_log rfl

theorem alone_enter (head : CellId) : c.ActsAlone (c.enter head) := by
  unfold Config.enter
  split
  · rename_i fault hg
    exact c.alone_fail (c.machine.cells.get_ample head fault hg)
  · split
    · exact c.alone_turn rfl
    · exact c.alone_log rfl

theorem alone_walk (w : Walk) : c.ActsAlone (c.walk w) := by
  unfold Config.walk
  split
  · split
    · exact c.alone_fail rfl
    · rename_i id _
      split
      · rename_i fault hg
        exact c.alone_fail (c.machine.cells.get_ample id fault hg)
      · split
        · exact c.alone_turn rfl
        · exact c.alone_turn rfl
  · exact c.alone_turn rfl

theorem alone_call (cell : CellId) : c.ActsAlone (c.call cell) := by
  unfold Config.call
  split
  · rename_i fault hg
    exact c.alone_fail (c.machine.cells.get_ample cell fault hg)
  · exact c.alone_log rfl

/-- Whoever is refused a slot is refused for that reason, and a slot without a cell is no shortage. -/
theorem callSlot_shortage (answer : Except Fault Slot) :
    (callSlot answer : Task σ).shortage = shortage answer := by
  cases answer with
  | error fault => rfl
  | ok slot =>
    unfold callSlot
    simp only
    split
    · rename_i fault hcell
      exact Task.shortage_of_other (slot.value.asCell_ample fault hcell)
    · rfl

theorem alone_callTop : c.ActsAlone (c.go (serve .pop) callSlot) := by
  change c.Acts _ (callSlot (serve .pop c.machine).answer).shortage
  rw [callSlot_shortage]
  exact .served .pop rfl rfl

theorem alone_invoke (host : Host σ) (procedure : Procedure σ) (v : Value) :
    c.ActsAlone (c.invoke host procedure v) := by
  cases procedure with
  | zero => exact c.alone_turn rfl
  | link =>
    simp only [Config.invoke]
    split
    · rename_i fault hv
      exact c.alone_fail (v.asCell_ample fault hv)
    · exact c.alone_turn rfl
  | literal => exact .pushed v rfl rfl
  | native name =>
    simp only [Config.invoke]
    split
    · exact c.alone_turn rfl
    · exact c.alone_turn rfl

end

theorem acts_resume (c : Config σ) (answer : Except Fault Unit) : c.Acts (c.resume answer) [] := by
  unfold Config.resume
  split
  · exact .quiet c.machine.callDepth rfl rfl
  · exact .quiet (c.machine.callDepth - 1) rfl rfl
  · split
    · exact .quiet c.machine.callDepth rfl rfl
    · exact .quiet c.machine.callDepth rfl rfl
  · exact .quiet c.machine.callDepth rfl rfl

theorem acts (host : Host σ) (c : Config σ) : c.Acts (c.step host) (c.warned host) := by
  obtain ⟨task, frames, m, events⟩ := c
  cases task with
  | execute cell => exact alone_execute _ cell
  | enter head => exact alone_enter _ head
  | walk w => exact alone_walk _ w
  | call cell => exact alone_call _ cell
  | callTop => exact alone_callTop _
  | invoke procedure v => exact alone_invoke _ host procedure v
  | give answer => exact acts_resume _ answer
  | run p =>
    cases p with
    | finish answer => exact .quiet m.callDepth rfl rfl
    | ask r next => exact .served r rfl rfl
    | execute cell next => exact .quiet m.callDepth rfl rfl

end Config

/-- Somebody listens to the log, and the stack is within its bounds. -/
structure Machine.Heard (m : Machine σ) : Prop where
  heard : m.verbosity ≠ none
  shallow : m.stack.depth ≤ Stack.capacity

namespace Machine

open Step

variable {m : Machine σ}

theorem log_reported (hv : m.verbosity ≠ none) (notice : Notice) :
    reported (log notice m).events = notice.reports.toList := by
  by_cases hlevel : notice.level = .warn
  · rw [log_heard hv hlevel]
    cases notice <;> rfl
  · have hnone : notice.reports = none := by
      cases notice <;> first | rfl | exact absurd rfl hlevel
    rw [(plain_log hnone).silent, hnone]
    rfl

theorem Heard.serve (h : m.Heard) (r : Request σ) : (serve r m).machine.Heard where
  heard := by
    rw [serve_machine, (perform_kept r m).settled.2.2]
    exact h.heard
  shallow := perform_shallow h.shallow r

theorem Heard.pushLiteral (h : m.Heard) (v : Value) : (pushLiteral v m).machine.Heard where
  heard := by
    rw [(pushLiteral_kept v m).settled.2.2]
    exact h.heard
  shallow := pushLiteral_shallow h.shallow v

end Machine

namespace Config

open Step Machine

variable {host : Host σ} {c : Config σ}

/-- A step that is heard warns of the shortage that it comes to, and of nothing else. -/
theorem step_warns (host : Host σ) (h : c.machine.Heard) :
    ∃ added, (c.step host).events = c.events ++ added ∧ reported added = c.warned host ∧
      (c.step host).machine.Heard := by
  generalize hw : c.warned host = told
  have hacts := c.acts host
  rw [hw] at hacts
  cases hacts with
  | quiet callDepth hm he =>
    refine ⟨[], by rw [he, List.append_nil], rfl, ?_⟩
    rw [hm]
    exact ⟨h.heard, h.shallow⟩
  | told notice hm he =>
    refine ⟨_, he, log_reported h.heard notice, ?_⟩
    rw [hm]
    exact h
  | served r hm he =>
    refine ⟨_, he, serve_warns h.heard h.shallow r, ?_⟩
    rw [hm]
    exact h.serve r
  | pushed v hm he =>
    refine ⟨_, he, pushLiteral_warns h.heard v, ?_⟩
    rw [hm]
    exact h.pushLiteral v

/-- Many steps warn of what each of them warns of. -/
theorem steps_warn (host : Host σ) (k : Nat) (h : c.machine.Heard) :
    ∃ added, ((step host)^[k] c).events = c.events ++ added ∧
      reported added = (List.iterate (step host) c k).flatMap (warned host) ∧
      ((step host)^[k] c).machine.Heard := by
  induction k generalizing c with
  | zero => exact ⟨[], (List.append_nil _).symm, rfl, h⟩
  | succ k ih =>
    obtain ⟨first, hfirst, hwarned, hheard⟩ := step_warns host h
    obtain ⟨rest, hrest, hlater, hlast⟩ := ih hheard
    refine ⟨first ++ rest, ?_, ?_, hlast⟩
    · rw [Function.iterate_succ_apply, hrest, hfirst, List.append_assoc]
    · rw [reported_append, hwarned, hlater, List.iterate, List.flatMap_cons]

theorem length_warned_le (host : Host σ) (cs : List (Config σ)) :
    (cs.flatMap (warned host)).length ≤ (cs.flatMap (shortages host)).length := by
  induction cs with
  | nil => exact Nat.le_refl 0
  | cons c rest ih =>
    rw [List.flatMap_cons, List.flatMap_cons, List.length_append, List.length_append, warned]
    split
    · rw [List.length_nil, Nat.zero_add]
      exact Nat.le_add_left_of_le ih
    · exact Nat.add_le_add_left ih _

/-- Nothing is overlooked if there are as many warnings as shortages. -/
theorem length_warned_eq_iff (cs : List (Config σ)) :
    (cs.flatMap (warned host)).length = (cs.flatMap (shortages host)).length ↔
      ∀ c ∈ cs, c.overlooks = true → c.shortages host = [] := by
  induction cs with
  | nil => simp
  | cons c rest ih =>
    have hle := length_warned_le host rest
    rw [List.flatMap_cons, List.flatMap_cons, List.length_append, List.length_append,
      List.forall_mem_cons, ← ih, warned]
    cases c.overlooks with
    | true =>
      -- The rest cannot make up for it, since it warns of no more than it comes to.
      simp only [if_true, List.length_nil, forall_const, ← List.length_eq_zero_iff]
      omega
    | false => simp

end Config

theorem warnings_of_plain {s : Step σ α} (h : s.Plain) (m : Machine σ) :
    warnings (s m).events = [] := by
  have hnone := warnings_reports (s m).events
  rw [h.silent] at hnone
  exact List.map_eq_nil_iff.mp hnone

theorem Machine.announce_plain : (announce : Step σ Unit).Plain :=
  Step.plain_get fun _ => Step.plain_bind (Step.plain_log rfl) fun _ =>
    Step.plain_bind (Step.plain_log rfl) fun _ => Step.plain_log rfl

theorem Machine.reset_plain : (reset : Step σ Unit).Plain :=
  Step.plain_bind (Step.plain_modify _) fun _ => Step.plain_get fun _ =>
    Step.plain_bind (Step.plain_log rfl) fun _ => Step.plain_log rfl

open Config in
/-- Whatever is executed on a machine that is heard, each step warns once of the shortage that it comes
to by itself, unless it overlooks it, and of nothing else; the whole operation warns of these and of no
others. So it warns as often as it comes to a shortage if and only if none is overlooked. A machine
does not warn when it is new or starts over. -/
theorem Run.warns_of_shortages {host : Host σ} {past : List (Event σ)} {m : Machine σ}
    (h : Run host past m) (hv : m.verbosity ≠ none) (op : Operation σ) :
    (∀ k, ∃ added, (((step host)^[k] (op.config m)).step host).events =
        ((step host)^[k] (op.config m)).events ++ added ∧
      (warnings added).map Notice.reports = (((step host)^[k] (op.config m)).warned host).map some) ∧
    (∃ k, (step host)^[k] (op.config m) =
        ⟨.give (op.step host m).answer, [], (op.step host m).machine, (op.step host m).events⟩ ∧
      (warnings (op.step host m).events).map Notice.reports =
        ((List.iterate (step host) (op.config m) k).flatMap (warned host)).map some ∧
      ((warnings (op.step host m).events).length =
          ((List.iterate (step host) (op.config m) k).flatMap (shortages host)).length ↔
        ∀ c ∈ List.iterate (step host) (op.config m) k, c.overlooks = true → c.shortages host = [])) ∧
    ∀ n : Machine σ, warnings (Machine.announce n).events = [] ∧
      warnings (Machine.reset n).events = [] := by
  have hnothing : Moves (fun _ => False) m [] m := .refl m
  have hheard : (op.config m).machine.Heard := ⟨hv, h.shallow_amid hnothing⟩
  refine ⟨fun k => ?_, ?_, fun n => ?_⟩
  · obtain ⟨-, -, -, hk⟩ := steps_warn host k hheard
    obtain ⟨added, hadded, hwarned, -⟩ := step_warns host hk
    exact ⟨added, hadded, by rw [warnings_reports, hwarned]⟩
  · obtain ⟨k, hend⟩ : Reaches host (op.config m) (giving [] [] (op.step host m)) :=
      operation_computes op m h.built.1 [] []
    rw [giving, List.nil_append] at hend
    obtain ⟨added, hadded, hwarned, -⟩ := steps_warn host k hheard
    rw [hend] at hadded
    change (op.step host m).events = [] ++ added at hadded
    rw [List.nil_append] at hadded
    have htotal : (warnings (op.step host m).events).map Notice.reports =
        ((List.iterate (step host) (op.config m) k).flatMap (warned host)).map some := by
      rw [warnings_reports, hadded, hwarned]
    refine ⟨k, hend, htotal, ?_⟩
    have hlength := congrArg List.length htotal
    rw [List.length_map, List.length_map] at hlength
    rw [hlength]
    exact length_warned_eq_iff _
  · exact ⟨warnings_of_plain Machine.announce_plain n, warnings_of_plain Machine.reset_plain n⟩

/-- The text takes five bytes of four, and the word finds nothing to drop. -/
def Stock.runShort : Program Stock.signature Unit := do
  let _ ← (request (.boxText "long")).attempt
  let cell ← request .newCell
  request (.bind cell (.native Word.drop))
  execute cell

open Config in
theorem Run.warns_of_runShort :
    let m : Machine Stock.signature := .create (.replicate 4 7) #[.empty] ⟨1, .strict⟩ (some .trace)
    let op := Operation.program Stock.runShort
    let o := op.step Stock.host m
    Run Stock.host [] m ∧ m.verbosity ≠ none ∧
    warnings o.events = [.arenaFull (.byteArenaFull 5 0 4), .stackUnderflow] ∧
    ∃ k, ((List.iterate (step Stock.host) (op.config m) k).flatMap (warned Stock.host)).map some =
      [some (.byteArenaFull 5 0 4), some .stackUnderflow] := by
  intro m op o
  have hrun : Run Stock.host [] m := .created (.replicate 4 7) #[.empty] ⟨1, .strict⟩ (some .trace)
  have hheard : m.verbosity ≠ none := nofun
  have hwarnings : warnings o.events = [.arenaFull (.byteArenaFull 5 0 4), .stackUnderflow] := by
    decide +kernel
  obtain ⟨-, ⟨k, -, htotal, -⟩, -⟩ := hrun.warns_of_shortages hheard op
  refine ⟨hrun, hheard, hwarnings, k, ?_⟩
  rw [← htotal, hwarnings]
  rfl

/-- A machine warns as often as it comes to a shortage, except where it pops a float that is not there:
then it comes to one and says nothing. -/
theorem Run.popFloat_unwarned :
    let m : Machine Stock.signature :=
      .create (.replicate 64 0) (.replicate 8 .empty) ⟨256, .compatible⟩ (some .warn)
    let op : Operation Stock.signature := .program do
      let _ ← request .popFloat
    let o := op.step Stock.host m
    Run Stock.host [] m ∧ m.verbosity ≠ none ∧ o.answer = .error .stackUnderflow ∧
    (op.config m).shortages Stock.host = [.stackUnderflow] ∧ (op.config m).overlooks = true ∧
    warnings o.events = [] := by
  intro m op o
  refine ⟨.created (.replicate 64 0) (.replicate 8 .empty) ⟨256, .compatible⟩ (some .warn), nofun, ?_⟩
  decide +kernel

end ThreadedCode
