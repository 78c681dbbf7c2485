import ThreadedCode.Proofs.Histories
import ThreadedCode.Proofs.Slots

/-!
The readers of floats. A float on the stack can lie in a box, with a copy of it in the slot that was
made when the slot was pushed. Whoever takes the slot for a float reads the box.
-/
namespace ThreadedCode

variable {σ : Signature} {α : Type}

/-- The float that a slot stands for: the one last written to its box, or its scratch if it has no
box. -/
def Slot.standsFor (past : List (Event σ)) (slot : Slot) : Option Single :=
  match slot.value with
  | .float address => lastWritten past (.float address)
  | _ => some slot.scratch

theorem Machine.Boxes.reads {m : Machine σ} {past : List (Event σ)} (h : m.Boxes past) {slot : Slot}
    (hknown : slot.value.handles ⊆ given past) (hkind : slot.kind = .float) :
    ∃ x, slot.standsFor past = some x ∧ slot.readFloat m.bytes = .ok x := by
  rw [Slot.readFloat, if_pos hkind, Slot.standsFor]
  cases hv : slot.value with
  | float a =>
    rw [hv] at hknown
    obtain ⟨x, hx⟩ := h.written a (hknown (List.mem_singleton_self _))
    exact ⟨x, hx, (h.floats _ x hx).2⟩
  | _ => exact ⟨slot.scratch, rfl, rfl⟩

/-- The step takes one slot off the stack and changes nothing else. If it fails it changes nothing at
all and puts out nothing. -/
structure Step.Drops (s : Step σ α) (m : Machine σ) : Prop where
  done : ∀ a, (s m).answer = .ok a → ∃ top stack, (s m).machine = { m with stack } ∧
    m.stack.active = stack.active ++ [top]
  failed : ∀ fault, (s m).answer = .error fault → (s m).machine = m ∧ (s m).lines = []

theorem Step.drops_of_cases {s : Step σ α} {m : Machine σ}
    (h : (∃ fault, s.Ends m [] (.error fault) m) ∨
      ∃ rest top lines a stack, m.stack.active = rest ++ [top] ∧
        s.Ends m lines (.ok a) { m with stack } ∧ stack.Lists rest) : s.Drops m where
  done a ha := by
    rcases h with ⟨fault, hends⟩ | ⟨rest, top, lines, b, stack, hactive, hends, hlists⟩
    · cases ha.symm.trans hends.answer
    · exact ⟨top, stack, hends.machine, by rw [hactive, hlists.active]⟩
  failed fault hf := by
    rcases h with ⟨fault, hends⟩ | ⟨rest, top, lines, b, stack, hactive, hends, hlists⟩
    · exact ⟨hends.machine, hends.lines⟩
    · cases hf.symm.trans hends.answer

namespace Machine

open Step

variable {m : Machine σ} {slots : List Slot}

theorem popFloat_drops (h : m.stack.depth ≤ Stack.capacity) : (serve .popFloat).Drops m := by
  refine drops_of_cases ?_
  rcases popFloat_cases (.of_depth h) with ⟨fault, hpop⟩ | ⟨rest, top, x, stack, hslots, hpop, hlists⟩
  · exact .inl ⟨fault, .serve (r := .popFloat) hpop.answer hpop.machine⟩
  · exact .inr ⟨rest, top, [], x, stack, hslots, .serve (r := .popFloat) hpop.answer hpop.machine, hlists⟩

/-- A boxed float is pushed with a copy of what its box holds. -/
theorem pushLiteral_lists (h : m.stack.Lists slots) {a : Address} {x : Single}
    (hx : m.bytes.readFloat (.float a) = .ok x) (hlt : slots.length < Stack.capacity) :
    ∃ stack, (pushLiteral (.float a)).Ends m [] (.ok ()) { m with stack } ∧
      stack.Lists (slots ++ [⟨.float, .float a, x⟩]) := by
  obtain ⟨stack, hpush, hlists⟩ := push_lists h ⟨.float, .float a, x⟩ hlt
  have hread : (readFloat (.float a)).Ends m [] (.ok x) m := ⟨hx, rfl, rfl⟩
  exact ⟨stack, hread.silent hpush, hlists⟩

theorem storeFloat_ends {v : Value} {x : Single} {bytes : ByteArena}
    (h : m.bytes.storeFloat v x = .ok bytes) :
    (serve (.storeFloat v x)).Ends m [] (.ok ()) { m with bytes } := by
  have hrun : storeFloat v x m = ⟨.ok (), { m with bytes }, []⟩ := by
    simp only [storeFloat, bind_apply, get_apply, Outcome.bind_ok, Outcome.after_nil, lift_apply, h,
      modify_apply]
  exact .serve (r := .storeFloat v x) (congrArg Outcome.answer hrun) (congrArg Outcome.machine hrun)

/-- A literal cell pushes its payload. -/
theorem call_literal (host : Host σ) {cell : CellId} {v : Value} {extent : Nat} {n : Machine σ}
    {answer : Except Fault Unit} (hget : m.cells.get cell = .ok ⟨.literal, v, extent⟩)
    (h : (pushLiteral v).Ends m [] answer n) : (call host cell).Ends m [] answer n := by
  refine .congr (t := log (.called cell) >>= fun _ => pushLiteral v) ((Ends.log _ m).silent h) ?_
  rw [call, callWith_of_get hget, log_bind, invoke, invokeUsing_literal]

end Machine

namespace Calculator

open Machine Step

variable {host : Host σ} {m : Machine σ} {rest slots : List Slot} {slot lower upper top : Slot}
  {line : String} {x y : Single}

/-- A slot of the kind of a float is shown as the float in it. -/
theorem describe_ends (host : Host σ) (hkind : slot.kind = .float) (m : Machine σ) :
    ((describe slot).start host).Ends m [] ((slot.readFloat m.bytes).map Single.text) m := by
  obtain ⟨kind, value, scratch⟩ := slot
  cases hkind
  cases value with
  | float a =>
    have hread : (serve (.readFloat (.float a))).Ends m [] (m.bytes.readFloat (.float a)) m :=
      .serve (r := .readFloat (.float a)) rfl rfl
    rw [Program.start, run_describe_boxed]
    change Ends _ m [] ((m.bytes.readFloat (.float a)).map Single.text) m
    cases hx : m.bytes.readFloat (.float a) with
    | ok x =>
      rw [hx] at hread
      exact hread.silent (.pure x.text m)
    | error fault =>
      rw [hx] at hread
      exact hread.fail
  | _ => exact .pure scratch.text m

/-- Whatever a slot holds, to show it changes nothing and puts out nothing. -/
theorem describe_still (host : Host σ) (slot : Slot) (m : Machine σ) :
    ∃ answer, ((describe slot).start host).Ends m [] answer m := by
  by_cases hkind : slot.kind = .float
  · exact ⟨_, describe_ends host hkind m⟩
  · unfold describe
    split
    · exact absurd ‹_› hkind
    · exact absurd ‹_› hkind
    · rw [Program.start, Program.run_request]
      exact ⟨_, .serve rfl rfl⟩
    · exact ⟨_, .pure _ m⟩
    · exact ⟨_, .pure _ m⟩

/-- Two slots are replaced by one for what their floats come to, which always has a place. -/
theorem combine_lists (host : Host σ) (operation : Single → Single → Single)
    (h : m.stack.Lists (rest ++ [lower] ++ [upper])) (hx : lower.readFloat m.bytes = .ok x)
    (hy : upper.readFloat m.bytes = .ok y) :
    ∃ stack, ((combine operation).start host).Ends m [] (.ok ()) { m with stack } ∧
      stack.Lists (rest ++ [.ofFloat (operation x y)]) := by
  have hfew := h.few
  simp only [List.length_append, List.length_singleton] at hfew
  obtain ⟨stack, hb, hs⟩ := popFloat_lists h hy
  obtain ⟨stack', ha, hs'⟩ := popFloat_lists (m := { m with stack }) hs hx
  obtain ⟨last, hpush, hlast⟩ := push_lists (m := { m with stack := stack' }) hs'
    (.ofFloat (operation x y)) (by omega)
  have hupper : (serve .popFloat).Ends m [] (.ok y) { m with stack } :=
    .serve (r := .popFloat) hb.answer hb.machine
  have hlower : (serve .popFloat).Ends { m with stack } [] (.ok x) { m with stack := stack' } :=
    .serve (r := .popFloat) ha.answer ha.machine
  rw [Program.start, run_combine]
  exact ⟨last, hupper.silent (hlower.silent (.serve (r := .push _) hpush.answer hpush.machine)), hlast⟩

namespace Speaker

variable (speaker : Speaker host) (payload : Value)

theorem print_apply (m : Machine σ) : speaker.say .print payload m = (do
    let slot ← (Calculator.top : Program σ Slot).start host
    let line ← (describe slot).start host
    serve (.print line)
    let _ ← serve .pop
    return () : Step σ Unit) m := by
  refine (speaker.say_apply rfl payload m).trans (congrFun ?_ m)
  refine (Program.run_bind _ _ _).trans (congrArg _ (funext fun slot => ?_))
  refine (Program.run_bind _ _ _).trans (congrArg _ (funext fun line => ?_))
  refine (Program.run_bind _ _ _).trans ?_
  rw [Program.run_request]
  refine congrArg _ (funext fun _ => ?_)
  refine (Program.run_bind _ _ _).trans ?_
  rw [Program.run_request]
  rfl

theorem print_lists (h : m.stack.Lists (rest ++ [top]))
    (hline : ((describe top).start host).Ends m [] (.ok line) m) :
    ∃ stack, (speaker.say .print payload).Ends m [line] (.ok ()) { m with stack } ∧
      stack.Lists rest := by
  obtain ⟨stack, hpop, hlists⟩ := pop_lists h
  have hprint : (serve (.print line)).Ends m [line] (.ok ()) m := .serve (r := .print line) rfl rfl
  have hdrop : (serve .pop).Ends m [] (.ok top) { m with stack } :=
    .serve (r := .pop) hpop.answer hpop.machine
  refine ⟨stack, .congr ((top_lists host h).silent (hline.silent ?_)) (speaker.print_apply payload m),
    hlists⟩
  exact hprint.bind (hdrop.silent (.pure () _))

/-- What cannot be shown is neither printed nor dropped. -/
theorem print_unshown (h : m.stack.Lists (rest ++ [top])) {fault : Fault}
    (hline : ((describe top).start host).Ends m [] (.error fault) m) :
    (speaker.say .print payload).Ends m [] (.error fault) m :=
  .congr ((top_lists host h).silent hline.fail) (speaker.print_apply payload m)

theorem print_refused (h : m.stack.Lists []) :
    (speaker.say .print payload).Ends m [] (.error .stackUnderflow) m :=
  .congr (top_refused host h).fail (speaker.print_apply payload m)

/-- A slot is printed and dropped, or nothing happens. -/
theorem print_cases (h : m.stack.Lists slots) :
    (∃ fault, (speaker.say .print payload).Ends m [] (.error fault) m) ∨
    ∃ rest top line stack, slots = rest ++ [top] ∧
      (speaker.say .print payload).Ends m [line] (.ok ()) { m with stack } ∧ stack.Lists rest := by
  rcases List.eq_nil_or_concat slots with rfl | ⟨rest, top, hslots⟩
  · exact .inl ⟨_, speaker.print_refused payload h⟩
  · rw [List.concat_eq_append] at hslots
    subst hslots
    obtain ⟨answer, hline⟩ := describe_still host top m
    cases answer with
    | error fault => exact .inl ⟨fault, speaker.print_unshown payload h hline⟩
    | ok line =>
      obtain ⟨stack, hprint, hlists⟩ := speaker.print_lists payload h hline
      exact .inr ⟨rest, top, line, stack, rfl, hprint, hlists⟩

theorem print_drops (h : m.stack.depth ≤ Stack.capacity) : (speaker.say .print payload).Drops m := by
  refine drops_of_cases ?_
  rcases speaker.print_cases payload (.of_depth h) with
    hfailed | ⟨rest, top, line, stack, hslots, hprint, hlists⟩
  · exact .inl hfailed
  · exact .inr ⟨rest, top, [line], (), stack, hslots, hprint, hlists⟩

theorem combine_said {word : Word} {operation : Single → Single → Single}
    (hword : (Calculator.procedure word : Body σ) = .program fun _ => combine operation)
    (h : m.stack.Lists (rest ++ [lower] ++ [upper])) (hx : lower.readFloat m.bytes = .ok x)
    (hy : upper.readFloat m.bytes = .ok y) :
    ∃ stack, (speaker.say word payload).Ends m [] (.ok ()) { m with stack } ∧
      stack.Lists (rest ++ [.ofFloat (operation x y)]) := by
  obtain ⟨stack, hcombine, hlists⟩ := combine_lists host operation h hx hy
  exact ⟨stack, .congr hcombine (speaker.say_apply hword payload m), hlists⟩

/-- Whoever reads the slot on top takes it for this float. -/
structure Reads (m : Machine σ) (rest : List Slot) (top : Slot) (x : Single) : Prop where
  pops : ∃ stack, (serve .popFloat).Ends m [] (.ok x) { m with stack } ∧ stack.Lists rest
  shows : ((describe top).start host).Ends m [] (.ok x.text) m
  prints : ∀ payload, ∃ stack, (speaker.say .print payload).Ends m [x.text] (.ok ())
    { m with stack } ∧ stack.Lists rest

theorem reads (h : m.stack.Lists (rest ++ [top])) (hx : top.readFloat m.bytes = .ok x) :
    speaker.Reads m rest top x := by
  have hshows := describe_ends host (Slot.kind_of_readFloat hx) m
  rw [hx] at hshows
  obtain ⟨stack, hpop, hlists⟩ := popFloat_lists h hx
  exact ⟨⟨stack, .serve (r := .popFloat) hpop.answer hpop.machine, hlists⟩, hshows,
    fun payload => speaker.print_lists payload h hshows⟩

/-- The step pushes the boxed float, with whatever copy, and it is read as this one. -/
def Pushes (s : Step σ Unit) (m : Machine σ) (a : Address) (x : Single) : Prop :=
  ∃ scratch stack, s.Ends m [] (.ok ()) { m with stack } ∧
    stack.Lists (m.stack.active ++ [⟨.float, .float a, scratch⟩]) ∧
    speaker.Reads { m with stack } m.stack.active ⟨.float, .float a, scratch⟩ x

theorem pushes {s : Step σ Unit} {a : Address} {scratch : Single}
    (h : ∃ stack, s.Ends m [] (.ok ()) { m with stack } ∧
      stack.Lists (m.stack.active ++ [⟨.float, .float a, scratch⟩]))
    (hx : m.bytes.readFloat (.float a) = .ok x) : speaker.Pushes s m a x := by
  obtain ⟨stack, hends, hlists⟩ := h
  exact ⟨scratch, stack, hends, hlists, speaker.reads (m := { m with stack }) hlists hx⟩

end Speaker
end Calculator

/-- The boxes at every moment of a fresh run, in the middle of an operation as well. -/
theorem FreshRun.boxes_amid {host : Host σ} {past events : List (Event σ)} {m n : Machine σ}
    {allowed : Value → Prop} (h : FreshRun host past m)
    (hallowed : ∀ v, allowed v → v.handles ⊆ given past) (hev : Fresh (given past) events)
    (hm : Moves allowed m events n) : n.Boxes (past ++ events) :=
  h.amid (I := fun past m => m.Boxes past) .empty
    (fun _ m notices stack callDepth hb => hb.logged (n := { m with stack, callDepth }) rfl notices)
    (fun _ _ _ hl hb hr => hb.served hl hr rfl) hallowed hev hm

open Calculator in
/-- At every moment of a fresh run all readers agree. A boxed float is read as it was last written,
and so is every slot that holds it, whenever the slot has been pushed, however, and whatever its
scratch; any other slot of the kind of a float is read as its scratch. What pops a float or prints a
slot takes it off the stack, or fails and does nothing. -/
theorem FreshRun.readers_agree {host : Host σ} (speaker : Speaker host) {past events : List (Event σ)}
    {m n : Machine σ} {allowed : Value → Prop} (h : FreshRun host past m)
    (hallowed : ∀ v, allowed v → v.handles ⊆ given past) (hev : Fresh (given past) events)
    (hm : Moves allowed m events n) (payload : Value) :
    (∀ a, .float a ∈ given (past ++ events) → ∃ x, lastWritten (past ++ events) (.float a) = some x ∧
      (serve (.readFloat (.float a))).Ends n [] (.ok x) n ∧
      (n.stack.active.length < Stack.capacity →
        speaker.Pushes (serve (.pushValue (.float a))) n a x ∧
        (∀ cell extent, n.cells.get cell = .ok ⟨.literal, .float a, extent⟩ →
          speaker.Pushes (Machine.call host cell) n a x) ∧
        ∀ rest scratch, n.stack.active = rest ++ [⟨.float, .float a, scratch⟩] →
          speaker.Pushes (speaker.say .dup payload) n a x) ∧
      ∀ y, ∃ bytes, (serve (.storeFloat (.float a) y)).Ends n [] (.ok ()) { n with bytes } ∧
        ∀ rest scratch, n.stack.active = rest ++ [⟨.float, .float a, scratch⟩] →
          speaker.Reads { n with bytes } rest ⟨.float, .float a, scratch⟩ y) ∧
    (∀ slot ∈ n.stack.active, slot.kind = .float →
      ∃ x, slot.standsFor (past ++ events) = some x ∧
        ((describe slot).start host).Ends n [] (.ok x.text) n ∧
        (∀ rest, n.stack.active = rest ++ [slot] → speaker.Reads n rest slot x) ∧
        ∀ rest upper, n.stack.active = rest ++ [slot] ++ [upper] → upper.kind = .float →
          ∃ y, upper.standsFor (past ++ events) = some y ∧
            (∃ stack, (speaker.say .add payload).Ends n [] (.ok ()) { n with stack } ∧
              stack.Lists (rest ++ [.ofFloat (x.add y)])) ∧
            ∃ stack, (speaker.say .mul payload).Ends n [] (.ok ()) { n with stack } ∧
              stack.Lists (rest ++ [.ofFloat (x.mul y)])) ∧
    (serve .popFloat).Drops n ∧ (speaker.say .print payload).Drops n := by
  have hl := h.ledger_amid hallowed hev hm
  have hb := h.boxes_amid hallowed hev hm
  have hdepth := h.run.shallow_amid hm
  have hlists := Stack.Lists.of_depth hdepth
  have hreads : ∀ slot ∈ n.stack.active, slot.kind = .float →
      ∃ x, slot.standsFor (past ++ events) = some x ∧ slot.readFloat n.bytes = .ok x :=
    fun slot hslot => hb.reads (hl.slots slot hslot)
  refine ⟨fun a ha => ?_, fun slot hslot hkind => ?_, Machine.popFloat_drops hdepth,
    speaker.print_drops payload hdepth⟩
  · obtain ⟨x, hx⟩ := hb.written a ha
    have hread := (hb.floats _ x hx).2
    refine ⟨x, hx, .serve (r := .readFloat (.float a)) hread rfl,
      fun hlt => ⟨?_, fun cell extent hget => ?_, fun rest scratch hactive => ?_⟩, fun y => ?_⟩
    · obtain ⟨stack, hpush, hnext⟩ := Machine.push_lists hlists (.ofValue (.float a)) hlt
      exact speaker.pushes ⟨stack, .serve (r := .pushValue (.float a)) hpush.answer hpush.machine, hnext⟩
        hread
    · obtain ⟨stack, hpush, hnext⟩ := Machine.pushLiteral_lists hlists hread hlt
      exact speaker.pushes ⟨stack, Machine.call_literal host hget hpush, hnext⟩ hread
    · have hroom : rest.length + 1 < Stack.capacity := by
        rw [hactive, List.length_append] at hlt
        exact hlt
      obtain ⟨stack, hdup, hnext⟩ := speaker.dup_lists payload (hactive ▸ hlists) hroom
      rw [← hactive] at hnext
      exact speaker.pushes ⟨stack, hdup, hnext⟩ hread
    · obtain ⟨heap, ho⟩ := hl.accounts
      obtain ⟨z, hz⟩ := ho.refers (.float a) ha
      obtain ⟨bytes, heap', hstore, hs', hr, -⟩ := ho.stores.storeFloat hz y
      refine ⟨bytes, Machine.storeFloat_ends hstore, fun rest scratch hactive => ?_⟩
      exact speaker.reads (m := { n with bytes }) (hactive ▸ hlists) (hs'.readFloat hr.self)
  · obtain ⟨x, hstands, hx⟩ := hreads slot hslot hkind
    have hshows := describe_ends host hkind n
    rw [hx] at hshows
    refine ⟨x, hstands, hshows, fun rest hactive => speaker.reads (hactive ▸ hlists) hx,
      fun rest upper hactive hupper => ?_⟩
    obtain ⟨y, hy, hread⟩ := hreads upper (by simp [hactive]) hupper
    have htwo : n.stack.Lists (rest ++ [slot] ++ [upper]) := hactive ▸ hlists
    exact ⟨y, hy, speaker.combine_said payload rfl htwo hx hread,
      speaker.combine_said payload rfl htwo hx hread⟩

/-- A boxed float is pushed by itself and by a literal cell, and then written over. -/
def Calculator.overwriteBoxed : Program signature Unit := do
  let value ← request (.boxFloat .one)
  let cell ← request .newCell
  request (.bindLiteral cell value)
  request (.pushValue value)
  execute cell
  request (.storeFloat value .infinity)

open Calculator in
theorem FreshRun.readers_agree_of_overwriteBoxed :
    let speaker : Speaker host := ⟨id, fun _ => rfl⟩
    let m : Machine signature := .create (.replicate 4 7) #[.empty] ⟨1, .strict⟩ none
    let o := overwriteBoxed.start host m
    let plain : Slot := ⟨.float, .float ⟨0⟩, .zero⟩
    let copied : Slot := ⟨.float, .float ⟨0⟩, .one⟩
    FreshRun host [] m ∧ Fresh (given ([] : List (Event signature))) o.events ∧
    Moves (Operation.program overwriteBoxed).Gives m o.events o.machine ∧
    o.machine.stack.active = [plain, copied] ∧ speaker.Reads o.machine [plain] copied .infinity ∧
    (∃ stack, (speaker.say .mul .nil).Ends o.machine [] (.ok ()) { o.machine with stack } ∧
      stack.Lists [.ofFloat (Single.mul .infinity .infinity)]) ∧
    (serve .popFloat).Drops o.machine := by
  intro speaker m o plain copied
  have hrun : FreshRun host [] m := .created (.replicate 4 7) #[.empty] ⟨1, .strict⟩ none
  have hfresh : Fresh (given ([] : List (Event signature))) o.events := by decide +kernel
  have hmoves := (Operation.program overwriteBoxed).moves host m
  have hactive : o.machine.stack.active = [plain, copied] := by decide +kernel
  have hstands : ∀ slot ∈ [plain, copied], slot.standsFor ([] ++ o.events) = some .infinity := by
    decide +kernel
  have hin : ∀ slot ∈ [plain, copied], slot ∈ o.machine.stack.active := fun _ h => hactive ▸ h
  obtain ⟨-, hslots, hdrops, -⟩ := FreshRun.readers_agree speaker hrun nofun hfresh hmoves .nil
  obtain ⟨x, hx, -, hreads, -⟩ := hslots copied (hin _ (by decide)) rfl
  obtain ⟨y, hy, -, -, hboth⟩ := hslots plain (hin _ (by decide)) rfl
  obtain ⟨z, hz, -, hmul⟩ := hboth [] copied hactive rfl
  obtain rfl : x = .infinity := Option.some.inj (hx.symm.trans (hstands _ (by decide)))
  obtain rfl : y = .infinity := Option.some.inj (hy.symm.trans (hstands _ (by decide)))
  obtain rfl : z = .infinity := Option.some.inj (hz.symm.trans (hstands _ (by decide)))
  exact ⟨hrun, hfresh, hmoves, hactive, hreads [plain] hactive, hmul, hdrops⟩

end ThreadedCode
