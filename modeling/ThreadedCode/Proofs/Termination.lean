import ThreadedCode.Proofs.Order
import ThreadedCode.Proofs.Stepping
import ThreadedCode.Stock

/-!
Every operation ends. Taken step by step, without any bound but the limit on nesting in the settings,
it comes to its end after finitely many steps, and its outcome is the one that it is defined to have.
What decreases is the number of levels left, then the number of slots on the stack, then what is left
of a walk or of a program.
-/
namespace ThreadedCode

variable {σ : Signature} {α : Type}

/-- Going on after a step means to look at how it ended. -/
theorem Step.bind_eq_attempt {β : Type} (s : Step σ α) (next : α → Step σ β) :
    s >>= next = s.attempt >>= fun answer =>
      match answer with
      | .ok a => next a
      | .error fault => done (.error fault) := by
  funext m
  rw [bind_apply, bind_apply, attempt_apply, Outcome.bind_ok]
  rcases s m with ⟨answer, n, events⟩
  cases answer with
  | ok a => rfl
  | error fault => simp [Outcome.after]

namespace Config

variable {host : Host σ} {c d e : Config σ}

/-- Finitely many steps lead from one config to the other. -/
def Reaches (host : Host σ) (c d : Config σ) : Prop := ∃ k, (step host)^[k] c = d

theorem Reaches.refl (host : Host σ) (c : Config σ) : Reaches host c c := ⟨0, rfl⟩

theorem Reaches.head (h : Reaches host (c.step host) d) : Reaches host c d := by
  obtain ⟨k, hk⟩ := h
  exact ⟨k + 1, hk⟩

theorem Reaches.trans (h : Reaches host c d) (h' : Reaches host d e) : Reaches host c e := by
  obtain ⟨k, rfl⟩ := h
  obtain ⟨l, rfl⟩ := h'
  exact ⟨l + k, Function.iterate_add_apply ..⟩

/-- The frames are told an outcome. -/
def giving (frames : List (Frame σ)) (events : List (Event σ)) (o : Outcome σ Unit) : Config σ :=
  ⟨.give o.answer, frames, o.machine, events ++ o.events⟩

/-- On this machine the task comes to the outcome of the step, whatever waits for it. -/
def Computes (host : Host σ) (task : Task σ) (s : Step σ Unit) (m : Machine σ) : Prop :=
  ∀ frames events, Reaches host ⟨task, frames, m, events⟩ (giving frames events (s m))

namespace Computes

variable {task next : Task σ} {s t : Step σ Unit} {m : Machine σ}

theorem congr (h : Computes host task s m) (he : s m = t m) : Computes host task t m := by
  intro frames events
  rw [← he]
  exact h frames events

/-- Telling how something has ended leaves the machine alone. -/
theorem give {answer : Except Fault Unit} : Computes host (.give answer) (Step.done answer) m := by
  intro frames events
  rw [giving, Step.done_apply, List.append_nil]
  exact .refl ..

/-- The task is over at once. -/
theorem of_give {answer : Except Fault Unit}
    (h : ∀ frames events, step host ⟨task, frames, m, events⟩ = ⟨.give answer, frames, m, events⟩) :
    Computes host task (Step.done answer) m := by
  intro frames events
  apply Reaches.head
  rw [h, giving, Step.done_apply, List.append_nil]
  exact .refl ..

theorem of_turn
    (h : ∀ frames events, step host ⟨task, frames, m, events⟩ = ⟨next, frames, m, events⟩)
    (hn : Computes host next s m) : Computes host task s m := by
  intro frames events
  apply Reaches.head
  rw [h]
  exact hn frames events

/-- The task does a step and goes on from how it ended. -/
theorem of_go (first : Step σ α) (rest : Except Fault α → Task σ) (last : Except Fault α → Step σ Unit)
    (h : ∀ frames events, step host ⟨task, frames, m, events⟩ =
      (⟨task, frames, m, events⟩ : Config σ).go first rest)
    (hn : Computes host (rest (first m).answer) (last (first m).answer) (first m).machine) :
    Computes host task (first.attempt >>= last) m := by
  intro frames events
  apply Reaches.head
  rw [h]
  have hrest := hn frames (events ++ (first m).events)
  rw [giving, List.append_assoc] at hrest
  exact hrest

/-- The task waits for another one in a frame and goes on from how that ended. -/
theorem of_inside (frame : Frame σ) (last : Except Fault Unit → Step σ Unit)
    (h : ∀ frames events, step host ⟨task, frames, m, events⟩ = ⟨next, frame :: frames, m, events⟩)
    (hn : Computes host next s m)
    (hlast : ∀ frames events, Reaches host ⟨.give (s m).answer, frame :: frames, (s m).machine, events⟩
      (giving frames events (last (s m).answer (s m).machine))) :
    Computes host task (s.attempt >>= last) m := by
  intro frames events
  apply Reaches.head
  rw [h]
  refine (hn (frame :: frames) events).trans ?_
  have hrest := hlast frames (events ++ (s m).events)
  rw [giving, List.append_assoc] at hrest
  exact hrest

/-- A walk waits for the visit of one cell. -/
theorem of_round (w : Walk) (rest : Step σ Unit)
    (h : ∀ frames events, step host ⟨task, frames, m, events⟩ = ⟨next, .walk w :: frames, m, events⟩)
    (hn : Computes host next s m) (hrest : Computes host (.walk w) rest (s m).machine) :
    Computes host task (s >>= fun _ => rest) m := by
  rw [Step.bind_eq_attempt]
  refine of_inside (.walk w) _ h hn fun frames events => .head ?_
  cases (s m).answer with
  | ok _ => exact hrest frames events
  | error fault => exact give frames events

end Computes
end Config

namespace Machine

open Step

variable {host : Host σ} {m : Machine σ}

theorem pop_of_empty (h : m.stack.depth = 0) :
    (pop m).answer = .error .stackUnderflow ∧ (pop m).machine = m := by
  have hpop : m.stack.pop = .error .stackUnderflow := by simp [Stack.pop, Stack.top?, Stack.nth?, h]
  simp only [pop, bind_apply, get_apply, Outcome.bind_ok, Outcome.after_nil, hpop]
  split
  · exact ⟨rfl, rfl⟩
  · exact ⟨rfl, rfl⟩

theorem pop_depth {slot : Slot} (h : (pop m).answer = .ok slot) :
    (pop m).machine.stack.depth + 1 = m.stack.depth := by
  have hdepth : ∀ {s : Stack}, m.stack.pop = .ok (slot, s) → s.depth + 1 = m.stack.depth := by
    intro s hs
    unfold Stack.pop Stack.top? Stack.nth? at hs
    split at hs
    · rename_i htop
      split at htop
      · cases hs
        exact Nat.sub_add_cancel (by assumption)
      · cases htop
    · cases hs
  simp only [pop, bind_apply, get_apply, Outcome.bind_ok, Outcome.after_nil] at h ⊢
  cases hp : m.stack.pop with
  | error fault =>
    rw [hp] at h
    split at h
    · cases h
    · cases h
  | ok popped =>
    rw [hp] at h
    obtain ⟨top, s⟩ := popped
    obtain rfl : top = slot := by
      split at h
      · exact Except.ok.inj h
      · exact Except.ok.inj h
    split
    · exact hdepth hp
    · exact hdepth hp

theorem callWith_of_depth {exec : CellId → Step σ Unit} {slots : Nat} (h : m.stack.depth = slots)
    (cell : CellId) : callWith (invokeWithin host exec slots) cell m =
      callWith (invokeUsing host exec) cell m := by
  subst h
  cases hg : m.cells.get cell with
  | error fault => simp [callWith, bind_apply, hg]
  | ok target =>
    rw [callWith_of_get hg, callWith_of_get hg]
    rfl

/-- What a native procedure does that takes its cell off the stack: every call of this kind finds one
slot less. -/
theorem invokeUsing_callTop {name : σ.Native} {next : Except Fault Unit → Program σ Unit}
    (h : host.procedure name = .callTop next) (exec : CellId → Step σ Unit) (v : Value)
    (m : Machine σ) :
    invokeUsing host exec (.native name) v m =
      ((serve .pop >>= fun slot => liftM slot.value.asCell >>= fun cell =>
        callWith (invokeUsing host exec) cell).attempt >>= fun answer => (next answer).run exec) m := by
  have hattempt : ∀ {s t : Step σ Unit}, s m = t m →
      (s.attempt >>= fun answer => (next answer).run exec) m =
        (t.attempt >>= fun answer => (next answer).run exec) m := by
    intro s t hst
    simp only [bind_apply, attempt_apply, hst]
  change invokeWithin host exec m.stack.depth (.native name) v m = _
  cases hd : m.stack.depth with
  | zero =>
    simp only [invokeWithin, invokeWith, h]
    refine hattempt (bind_congr rfl fun slot hslot => ?_)
    rw [serve_answer] at hslot
    cases hslot.symm.trans (pop_of_empty hd).1
  | succ slots =>
    simp only [invokeWithin, invokeWith, h]
    refine hattempt (bind_congr rfl fun slot hslot => bind_congr rfl fun cell _ => ?_)
    exact callWith_of_depth (Nat.succ.inj ((pop_depth hslot).trans hd)) cell

/-- The layout is in order, the settings and the depth are given. -/
structure Kept (settings : Settings) (depth : Nat) (m : Machine σ) : Prop where
  built : m.Built
  settings : m.settings = settings
  depth : m.callDepth = depth

theorem Kept.after {settings : Settings} {depth : Nat} (h : m.Kept settings depth) {s : Step σ α}
    (hs : m.Steadied s) : (s m).machine.Kept settings depth :=
  ⟨hs.built, hs.settings.trans h.settings, hs.depth.trans h.depth⟩

theorem Steadied.bind {β : Type} {s : Step σ α} {next : α → Step σ β} (hs : m.Steadied s)
    (hn : ∀ a, (s m).machine.Built → (s m).machine.Steadied (next a)) : m.Steadied (s >>= next) := by
  cases ha : (s m).answer with
  | error fault => exact ⟨by rw [bind_of_error ha]; exact hs.built,
      by rw [bind_of_error ha]; exact hs.settings, by rw [bind_of_error ha]; exact hs.depth⟩
  | ok a =>
    have hnext := hn a hs.built
    refine ⟨?_, ?_, ?_⟩
    · rw [bind_of_ok ha]
      exact hnext.built
    · rw [bind_of_ok ha]
      exact hnext.settings.trans hs.settings
    · rw [bind_of_ok ha]
      exact hnext.depth.trans hs.depth

theorem Built.steadied_lift (hb : m.Built) (answer : Except Fault α) :
    m.Steadied (liftM answer : Step σ α) := ⟨hb, rfl, rfl⟩

theorem Built.steadied_exec (hb : m.Built) (host : Host σ) (cell : CellId) :
    m.Steadied (exec host cell) := by
  have hmoves : Moves (fun _ => False) m _ _ := exec_moving host cell m
  obtain ⟨-, hs, hd⟩ := (exec_steady host m.settings m.callDepth cell).eq rfl rfl
  exact ⟨(hb.moves hmoves).1, hs, hd⟩

theorem Built.steadied_call (hb : m.Built) (host : Host σ) (cell : CellId) :
    m.Steadied (call host cell) := by
  have hmoves : Moves (fun _ => False) m _ _ := call_moving host cell m
  obtain ⟨-, hs, hd⟩ := (call_steady host m.settings m.callDepth cell).eq rfl rfl
  exact ⟨(hb.moves hmoves).1, hs, hd⟩

end Machine

namespace Config

open Step Machine

variable {host : Host σ} {settings : Settings} {depth : Nat} {m : Machine σ}

/-- At this depth every execution comes to its outcome. -/
def Executes (host : Host σ) (settings : Settings) (depth : Nat) : Prop :=
  ∀ cell (m : Machine σ), m.Kept settings depth →
    Computes host (.execute cell) (Machine.exec host cell) m

theorem run_computes (he : Executes host settings depth) (p : Program σ Unit)
    (hm : m.Kept settings depth) : Computes host (.run p) (p.start host) m := by
  induction p generalizing m with
  | finish answer => exact .of_give fun _ _ => rfl
  | ask request rest ih =>
    exact .of_go (serve request) (fun answer => .run (rest answer))
      (fun answer => (rest answer).start host) (fun _ _ => rfl)
      (ih _ (hm.after (hm.built.steadied_serve request)))
  | execute cell rest ih =>
    refine .of_inside (.code rest) (fun answer => (rest answer).start host)
      (fun _ _ => rfl) (he cell m hm) fun frames events => ?_
    apply Reaches.head
    exact ih _ (hm.after (hm.built.steadied_exec host cell)) frames events

/-- A cell is called as its procedure is invoked. -/
theorem call_computes {f : Procedure σ → Value → Step σ Unit}
    (h : ∀ procedure v, Computes host (.invoke procedure v) (f procedure v) m) (cell : CellId) :
    Computes host (.call cell) (callWith f cell) m := by
  cases hg : m.cells.get cell with
  | error fault =>
    have hstep : ∀ frames events, step host ⟨.call cell, frames, m, events⟩ =
        ⟨.give (.error fault), frames, m, events⟩ := by
      intro frames events
      simp only [step, call, hg]
      rfl
    exact (Computes.of_give hstep).congr (by simp [callWith, bind_apply, hg])
  | ok target =>
    refine (Computes.of_go (log (.called cell)) (fun _ => .invoke target.procedure target.payload)
      (fun _ => f target.procedure target.payload) (fun frames events => ?_)
      (h target.procedure target.payload)).congr (callWith_of_get hg).symm
    simp only [step, call, hg]

/-- The cell in the slot on top is called as its procedure is invoked. -/
theorem callTop_computes {f : Procedure σ → Value → Step σ Unit}
    (h : ∀ slot, (serve .pop m).answer = .ok slot →
      ∀ procedure v, Computes host (.invoke procedure v) (f procedure v) (serve .pop m).machine) :
    Computes host .callTop
      (serve .pop >>= fun slot => liftM slot.value.asCell >>= fun cell => callWith f cell) m := by
  rw [bind_eq_attempt]
  refine .of_go (serve .pop) callSlot _ (fun _ _ => rfl) ?_
  cases hslot : (serve .pop m).answer with
  | error fault => exact .give
  | ok slot =>
    cases hcell : slot.value.asCell with
    | error fault =>
      have htask : callSlot (σ := σ) (.ok slot) = .give (.error fault) := by
        simp only [callSlot, hcell]
      rw [htask]
      exact Computes.give.congr (by simp [bind_apply, hcell])
    | ok cell =>
      have htask : callSlot (σ := σ) (.ok slot) = .call cell := by
        simp only [callSlot, hcell]
      rw [htask]
      exact (call_computes (h slot hslot) cell).congr (by simp [bind_apply, hcell])

theorem link_computes (he : Executes host settings depth) (hm : m.Kept settings depth) (v : Value) :
    Computes host (.invoke .link v) (invokeUsing host (exec host) .link v) m := by
  cases hv : v.asCell with
  | error fault =>
    have hstep : ∀ frames events, step host ⟨.invoke .link v, frames, m, events⟩ =
        ⟨.give (.error fault), frames, m, events⟩ := by
      intro frames events
      simp only [step, invoke, hv]
      rfl
    exact (Computes.of_give hstep).congr (invokeUsing_link_of_error host (exec host) hv m).symm
  | ok cell =>
    cases v with
    | cell id =>
      obtain rfl : id = cell := Except.ok.inj hv
      refine (Computes.of_turn (fun _ _ => rfl) (he id m hm)).congr ?_
      exact (invokeUsing_link host (exec host) id m).symm
    | _ => cases hv

/-- A native procedure comes to its outcome: it runs its program, or it calls the cell on top first. -/
theorem native_computes (he : Executes host settings depth) (hm : m.Kept settings depth)
    (name : σ.Native) (v : Value)
    (hcalled : ∀ slot, (serve .pop m).answer = .ok slot → ∀ procedure v,
      Computes host (.invoke procedure v) (invokeUsing host (exec host) procedure v)
        (serve .pop m).machine) :
    Computes host (.invoke (.native name) v) (invokeUsing host (exec host) (.native name) v) m := by
  cases hb : host.procedure name with
  | program body =>
    have hstep : ∀ frames events, step host ⟨.invoke (.native name) v, frames, m, events⟩ =
        ⟨.run (body v), frames, m, events⟩ := by
      intro frames events
      simp only [step, invoke, hb]
    refine (Computes.of_turn hstep (run_computes he (body v) hm)).congr ?_
    exact (invokeUsing_program hb (exec host) v m).symm
  | callTop next =>
    have hstep : ∀ frames events, step host ⟨.invoke (.native name) v, frames, m, events⟩ =
        ⟨.callTop, .code next :: frames, m, events⟩ := by
      intro frames events
      simp only [step, invoke, hb]
      rfl
    refine Computes.congr ?_ (invokeUsing_callTop hb (exec host) v m).symm
    refine .of_inside (.code next) (fun answer => (next answer).start host) hstep
      (callTop_computes hcalled) fun frames events => ?_
    have hsteadied : m.Steadied (serve .pop >>= fun slot => liftM slot.value.asCell >>= fun cell =>
        callWith (invokeUsing host (exec host)) cell) :=
      (hm.built.steadied_serve .pop).bind fun slot hpopped =>
        (hpopped.steadied_lift _).bind fun cell hlifted => hlifted.steadied_call host cell
    exact .head (run_computes he (next _) (hm.after hsteadied) frames events)

/-- A procedure comes to the outcome of its invocation: whenever a cell has been taken off the stack
to be called, there is one slot less. -/
theorem invoke_computes (he : Executes host settings depth) (hm : m.Kept settings depth)
    (procedure : Procedure σ) (v : Value) :
    Computes host (.invoke procedure v) (Machine.invoke host procedure v) m := by
  -- On the number of slots: whoever calls the cell on top comes back here with one slot less.
  induction hslots : m.stack.depth using Nat.strongRecOn generalizing m procedure v with
  | ind slots ih =>
    subst hslots
    change Computes host _ (invokeUsing host (exec host) procedure v) m
    cases procedure with
    | zero =>
      exact (Computes.of_give fun _ _ => rfl).congr (invokeUsing_zero host (exec host) v m).symm
    | link => exact link_computes he hm v
    | literal =>
      have hgive : Computes host (.invoke .literal v) (pushLiteral v) m :=
        fun _ _ => .head (.refl ..)
      exact hgive.congr (invokeUsing_literal host (exec host) v m).symm
    | native name =>
      refine native_computes he hm name v fun slot hslot procedure v => ?_
      have hpopped := hm.after (hm.built.steadied_serve .pop)
      rw [serve_answer] at hslot
      exact ih _ (pop_depth hslot ▸ Nat.lt_succ_self _) hpopped procedure v rfl

/-- A round visits the cell that it comes to and goes on behind it. -/
theorem round_computes (he : Executes host settings depth) (hm : m.Kept settings depth) {w : Walk}
    (hi : w.index < w.extent) {id : CellId} (hs : w.head.shift? w.index = some id) {cell : Cell σ}
    (hg : m.cells.get id = .ok cell) {rest : Step σ Unit}
    (hrest : Computes host (.walk (w.past cell.extent)) rest
      (visit (Machine.exec host) (Machine.call host) cell id m).machine) :
    Computes host (.walk w)
      (visit (Machine.exec host) (Machine.call host) cell id >>= fun _ => rest) m := by
  by_cases hleaf : cell.extent = 1
  · refine .of_round (w.past cell.extent) _ (fun frames events => ?_)
      ((call_computes (invoke_computes he hm) id).congr ?_) hrest
    · simp only [step, walk, hi, hs, hg, hleaf, if_true]
      rfl
    · rw [visit, if_pos hleaf]
      rfl
  · refine .of_round (w.past cell.extent) _ (fun frames events => ?_)
      ((he id m hm).congr ?_) hrest
    · simp only [step, walk, hi, hs, hg, hleaf, if_true, if_false]
      rfl
    · rw [visit, if_neg hleaf]

/-- A walk comes to the outcome of what is left of it. -/
theorem walk_computes (he : Executes host settings depth) (w : Walk) (hm : m.Kept settings depth) :
    Computes host (.walk w) (Machine.walk (Machine.exec host) (Machine.call host) w.head
      (w.extent - w.index) 0 w.index) m := by
  -- On the cells that are left and not on the rounds: one round can pass over a whole word.
  induction hleft : w.extent - w.index using Nat.strongRecOn generalizing w m with
  | ind left ih =>
    subst hleft
    by_cases hi : w.index < w.extent
    · obtain ⟨left, hleft⟩ : ∃ left, w.extent - w.index = left + 1 := ⟨w.extent - w.index - 1, by omega⟩
      rw [hleft]
      cases hs : w.head.shift? w.index with
      | none =>
        have hstep : ∀ frames events, step host ⟨.walk w, frames, m, events⟩ =
            ⟨.give (.error (.invalidCell w.head)), frames, m, events⟩ := by
          intro frames events
          simp only [step, walk, hi, hs, if_true]
          rfl
        exact (Computes.of_give hstep).congr (walk_of_none hs).symm
      | some id =>
        cases hg : m.cells.get id with
        | error fault =>
          have hstep : ∀ frames events, step host ⟨.walk w, frames, m, events⟩ =
              ⟨.give (.error fault), frames, m, events⟩ := by
            intro frames events
            simp only [step, walk, hi, hs, hg, if_true]
            rfl
          exact (Computes.of_give hstep).congr (walk_of_error hs hg).symm
        | ok cell =>
          have hpos : 1 ≤ cell.extent := by
            rw [← CellArena.extentAt_of_get hg]
            exact hm.built.sound.positive _
          refine Computes.congr ?_ (walk_of_cell hs hg).symm
          have hvisited : m.Steadied (visit (Machine.exec host) (Machine.call host) cell id) := by
            unfold visit
            split
            · exact hm.built.steadied_call host id
            · exact hm.built.steadied_exec host id
          have hrest := ih _ (by change w.extent - (w.index + cell.extent) < _; omega)
            (w.past cell.extent) (hm.after hvisited) rfl
          change Computes host _ (Machine.walk _ _ w.head (w.extent - (w.index + cell.extent)) 0
            (w.index + cell.extent)) _ at hrest
          rw [walk_skip, show left - (cell.extent - 1) = w.extent - (w.index + cell.extent) by omega,
            show w.index + 1 + (cell.extent - 1) = w.index + cell.extent by omega]
          exact round_computes he hm hi hs hg hrest
    · have hstep : ∀ frames events, step host ⟨.walk w, frames, m, events⟩ =
          ⟨.give (.ok ()), frames, m, events⟩ := by
        intro frames events
        simp only [step, walk, hi, if_false]
      rw [show w.extent - w.index = 0 by omega]
      exact Computes.of_give hstep

/-- What an execution does once it is one level deeper. -/
theorem enter_computes (he : Executes host settings depth) (head : CellId)
    (hm : m.Kept settings depth) :
    Computes host (.enter head) (execRun host (Machine.exec host) head) m := by
  cases hg : m.cells.get head with
  | error fault =>
    have hstep : ∀ frames events, step host ⟨.enter head, frames, m, events⟩ =
        ⟨.give (.error fault), frames, m, events⟩ := by
      intro frames events
      simp only [step, enter, hg]
      rfl
    exact (Computes.of_give hstep).congr (execRun_of_error host hg).symm
  | ok cell =>
    by_cases hleaf : cell.extent = 1
    · have hstep : ∀ frames events, step host ⟨.enter head, frames, m, events⟩ =
          ⟨.call head, frames, m, events⟩ := by
        intro frames events
        simp only [step, enter, hg, hleaf, if_true]
      refine Computes.congr ?_ (execRun_of_leaf host hg hleaf).symm
      exact .of_turn hstep (call_computes (invoke_computes he hm) head)
    · have hstep : ∀ frames events, step host ⟨.enter head, frames, m, events⟩ =
          (⟨.enter head, frames, m, events⟩ : Config σ).go (log (.walked head cell.extent))
            fun _ => .walk (.start head cell.extent) := by
        intro frames events
        simp only [step, enter, hg, hleaf, if_false]
      refine Computes.congr ?_ (execRun_of_word host hg hleaf).symm
      rw [bind_eq_attempt]
      exact .of_go _ _ _ hstep (walk_computes he (.start head cell.extent) hm)

/-- At every depth an execution comes to its outcome, since at the limit it is refused. -/
theorem executes (host : Host σ) (settings : Settings) (depth : Nat) :
    Executes host settings depth := by
  -- On the levels that are left. What happens one level deeper is known to end before this one does.
  induction hlevels : settings.maxCallDepth - depth generalizing depth with
  | zero =>
    intro cell m hm frames events
    obtain ⟨-, rfl, rfl⟩ := hm
    have hge : m.settings.maxCallDepth ≤ m.callDepth := by omega
    rw [exec_of_ge host hge]
    have hstep : step host ⟨.execute cell, frames, m, events⟩ =
        (⟨.execute cell, frames, m, events⟩ : Config σ).go
          (log (.callDepthExceeded m.callDepth cell))
          fun _ => .give (.error (.callDepthExceeded m.callDepth)) := by
      have hnot : ¬ m.callDepth < m.settings.maxCallDepth := Nat.not_lt.mpr hge
      simp only [step, execute, hnot, if_false]
    apply Reaches.head
    rw [hstep]
    exact .refl ..
  | succ levels ih =>
    intro cell m hm frames events
    obtain ⟨hb, rfl, rfl⟩ := hm
    have hlt : m.callDepth < m.settings.maxCallDepth := by omega
    rw [exec_of_lt host hlt, nested_apply]
    have hstep : step host ⟨.execute cell, frames, m, events⟩ =
        ⟨.enter cell, .execution :: frames, { m with callDepth := m.callDepth + 1 }, events⟩ := by
      simp only [step, execute, hlt, if_true]
    have hin : Kept m.settings (m.callDepth + 1) { m with callDepth := m.callDepth + 1 } :=
      ⟨hb.atDepth _, rfl, rfl⟩
    have hrun := enter_computes (ih (m.callDepth + 1) (by omega)) cell hin (.execution :: frames) events
    apply Reaches.head
    rw [hstep]
    exact hrun.trans (.head (.refl ..))

theorem operation_computes (op : Operation σ) (m : Machine σ) (hb : m.Built) :
    Computes host (op.config m).task (op.step host) m := by
  have he := executes host m.settings m.callDepth
  have hm : m.Kept m.settings m.callDepth := ⟨hb, rfl, rfl⟩
  cases op with
  | program p => exact run_computes he p hm
  | call cell => exact call_computes (invoke_computes he hm) cell
  | invoke procedure payload => exact invoke_computes he hm procedure payload

end Config

end ThreadedCode
