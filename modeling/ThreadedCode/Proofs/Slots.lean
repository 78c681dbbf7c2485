import ThreadedCode.Calculator.Session
import ThreadedCode.Machine.Lifetime
import ThreadedCode.Proofs.Operands
import ThreadedCode.Proofs.Primitives
import ThreadedCode.Proofs.Stacks
import ThreadedCode.Proofs.Termination
import ThreadedCode.Proofs.Transcripts

/-!
The value stack, asked for anything in any order. It answers as a list of at most thirty-two slots
does, and whatever earlier slots have left behind above its depth is never seen.
-/
namespace ThreadedCode

variable {σ : Signature} {α : Type}

/-- A step that only tells the log puts out nothing. -/
theorem Step.Within.lines {part : Part} {s : Step σ α} {m : Machine σ} (h : s.Within part m) :
    (s m).lines = [] := by
  obtain ⟨notices, he⟩ := h.records
  rw [Outcome.lines, he, lines_logged]

namespace Step.Ends

variable {s t : Step σ α} {m n : Machine σ} {lines : List String} {answer : Except Fault α}

theorem congr (h : t.Ends m lines answer n) (he : s m = t m) : s.Ends m lines answer n :=
  ⟨he ▸ h.answer, he ▸ h.machine, he ▸ h.lines⟩

theorem of_eq (h : s m = ⟨answer, n, []⟩) : s.Ends m [] answer n :=
  ⟨congrArg Outcome.answer h, congrArg Outcome.machine h, congrArg Outcome.lines h⟩

end Step.Ends

/-- The float in a slot: the boxed one if it has a box, else its scratch. -/
def Slot.readFloat (bytes : ByteArena) (slot : Slot) : Except Fault Single :=
  if slot.kind = .float then
    match slot.value with
    | .float address => bytes.readFloat (.float address)
    | _ => .ok slot.scratch
  else .error (.typeMismatch .float slot.kind)

theorem Slot.kind_of_readFloat {bytes : ByteArena} {slot : Slot} {x : Single}
    (h : slot.readFloat bytes = .ok x) : slot.kind = .float := by
  by_contra hne
  rw [readFloat, if_neg hne] at h
  cases h

namespace Stack

variable {s : Stack} {slot top : Slot} {slots rest : List Slot}

/-- Writes to the top slot what comes of the one that is there. -/
def writeTop (s : Stack) (fill : Slot → Slot) : Stack :=
  match s.top? with
  | some slot => s.setTop (fill slot)
  | none => s

/-- The slots in use, the bottom first. -/
structure Lists (s : Stack) (slots : List Slot) : Prop where
  depth : s.depth = slots.length
  active : s.active = slots

namespace Lists

theorem of_depth (h : s.depth ≤ capacity) : s.Lists s.active where
  depth := by
    simp only [Stack.active, List.length_take, Vector.length_toList]
    omega
  active := rfl

theorem of_clear (s : Stack) : s.clear.Lists [] := ⟨rfl, rfl⟩

theorem few (h : s.Lists slots) : slots.length ≤ capacity := by
  rw [← h.active, Stack.active, List.length_take, Vector.length_toList]
  exact Nat.min_le_right ..

theorem getElem? (h : s.Lists slots) {i : Nat} (hi : i < slots.length) : s.slots[i]? = slots[i]? := by
  rw [← h.depth] at hi
  rw [← h.active, Stack.active, List.getElem?_take_of_lt hi, Vector.getElem?_toList]

theorem nth? (h : s.Lists slots) (n : Nat) : s.nth? n = slots.reverse[n]? := by
  unfold Stack.nth?
  rw [h.depth]
  split
  · rename_i hlt
    rw [List.getElem?_reverse hlt]
    exact h.getElem? (by omega)
  · rename_i hge
    rw [List.getElem?_eq_none]
    rw [List.length_reverse]
    omega

theorem top? (h : s.Lists slots) : s.top? = slots.getLast? := by
  rw [Stack.top?, h.nth?, ← List.head?_eq_getElem?, List.head?_reverse]

theorem pushSlot (h : s.Lists slots) (hlt : slots.length < capacity) (slot : Slot) :
    ∃ s', s.pushSlot slot = .ok s' ∧ s'.Lists (slots ++ [slot]) := by
  have hpush := pushSlot_eq s slot
  rw [if_pos (h.depth.symm ▸ hlt)] at hpush
  refine ⟨_, hpush, ?_, by rw [active_pushSlot hpush, h.active]⟩
  rw [List.length_append, ← h.depth]
  rfl

theorem pushSlot_full (h : s.Lists slots) (hfull : ¬ slots.length < capacity) (slot : Slot) :
    s.pushSlot slot = .error .stackOverflow := by
  rw [pushSlot_eq, if_neg (h.depth.symm ▸ hfull)]

theorem pop (h : s.Lists (rest ++ [top])) :
    ∃ s', s.pop = .ok (top, s') ∧ s'.Lists rest := by
  have hpop : s.pop = .ok (top, { s with depth := s.depth - 1 }) := by
    rw [Stack.pop, h.top?, List.getLast?_concat]
  have hdepth := h.depth
  rw [List.length_append, List.length_singleton] at hdepth
  refine ⟨_, hpop, by rw [hdepth]; rfl, ?_⟩
  have hactive := active_pop hpop
  rw [h.active] at hactive
  exact (List.append_inj_left' hactive rfl).symm

end Lists

/-- A new top slot is blank when it is written to. -/
theorem writeTop_push (h : s.push = .ok t) (fill : Slot → Slot) :
    t.writeTop fill = t.setTop (fill .blank) := by
  unfold push at h
  split at h
  · rename_i hlt
    cases h
    have htop : (⟨s.slots.setIfInBounds s.depth .blank, s.depth + 1⟩ : Stack).top? = some .blank := by
      simp [Stack.top?, Stack.nth?, hlt]
    rw [writeTop, htop]
  · cases h

end Stack

namespace Machine

open Step

variable {m : Machine σ} {top : Slot} {slots rest : List Slot} {x : Single}

/-- Claims a new top slot and writes to it. -/
def pushWith (fill : Slot → Slot) : Step σ Unit := do
  let m ← get
  unless m.stack.depth < Stack.capacity do
    Step.log (.stackOverflow Stack.capacity)
  let stack ← m.stack.push
  set { m with stack := stack.writeTop fill }

/-- To write to the new top slot is to push what that makes of a blank one. -/
theorem pushWith_eq (fill : Slot → Slot) : pushWith fill = (push (fill .blank) : Step σ Unit) := by
  have hset : ∀ m : Machine σ,
      (liftM m.stack.push >>= fun stack => set { m with stack := stack.writeTop fill } : Step σ PUnit) =
        liftM (m.stack.pushSlot (fill .blank)) >>= fun stack => set { m with stack } := by
    intro m
    unfold Stack.pushSlot
    cases hp : m.stack.push with
    | error fault => rfl
    | ok stack =>
      exact congrArg (fun top : Stack => (set { m with stack := top } : Step σ PUnit))
        (Stack.writeTop_push hp fill)
  simp only [pushWith, push, hset]

theorem push_lists (h : m.stack.Lists slots) (slot : Slot) (hlt : slots.length < Stack.capacity) :
    ∃ stack, (push slot).Ends m [] (.ok ()) { m with stack } ∧ stack.Lists (slots ++ [slot]) := by
  obtain ⟨stack, hpush, hlists⟩ := h.pushSlot hlt slot
  refine ⟨stack, .of_eq ?_, hlists⟩
  simp only [push, bind_apply, get_apply, Outcome.bind_ok, Outcome.after_nil, h.depth, hlt, if_true,
    hpush]
  rfl

theorem push_refused (h : m.stack.Lists slots) (slot : Slot) (hfull : ¬ slots.length < Stack.capacity) :
    (push slot).Ends m [] (.error .stackOverflow) m := by
  refine ⟨?_, ?_, (push_within slot).lines⟩
  · simp only [push, bind_apply, get_apply, Outcome.bind_ok, Outcome.after_nil, h.depth, hfull, if_false,
      h.pushSlot_full hfull slot]
    rfl
  · simp only [push, bind_apply, get_apply, Outcome.bind_ok, Outcome.after_nil, h.depth, hfull, if_false,
      h.pushSlot_full hfull slot]
    rfl

theorem pop_lists (h : m.stack.Lists (rest ++ [top])) :
    ∃ stack, pop.Ends m [] (.ok top) { m with stack } ∧ stack.Lists rest := by
  obtain ⟨stack, hpop, hlists⟩ := h.pop
  have hsome : m.stack.isEmpty = false := by
    rw [Stack.isEmpty, h.depth, List.length_append]
    rfl
  refine ⟨stack, .of_eq ?_, hlists⟩
  simp only [pop, bind_apply, get_apply, Outcome.bind_ok, Outcome.after_nil, hsome, hpop]
  rfl

theorem pop_refused (h : m.stack.Lists []) : pop.Ends m [] (.error .stackUnderflow) m :=
  ⟨(pop_of_empty h.depth).1, (pop_of_empty h.depth).2, pop_within.lines⟩

theorem floatOf_ends (hkind : top.kind = .float) (m : Machine σ) :
    (floatOf top).Ends m [] (top.readFloat m.bytes) m := by
  unfold floatOf Slot.readFloat
  rw [if_pos hkind]
  cases top.value <;> exact .of_eq rfl

theorem popFloat_apply (h : m.stack.Lists (rest ++ [top])) (hkind : top.kind = .float) :
    popFloat m = (floatOf top >>= fun x => pop >>= fun _ => pure x) m := by
  simp only [popFloat, bind_apply, get_apply, Outcome.bind_ok, Outcome.after_nil, h.top?,
    List.getLast?_concat, hkind, if_true]

theorem popFloat_lists (h : m.stack.Lists (rest ++ [top])) (hx : top.readFloat m.bytes = .ok x) :
    ∃ stack, popFloat.Ends m [] (.ok x) { m with stack } ∧ stack.Lists rest := by
  obtain ⟨stack, hpop, hlists⟩ := pop_lists h
  have hkind := Slot.kind_of_readFloat hx
  have hfloat := floatOf_ends hkind m
  rw [hx] at hfloat
  exact ⟨stack, .congr (hfloat.silent (hpop.silent (.pure x _))) (popFloat_apply h hkind), hlists⟩

/-- A slot without a float stays where it is. -/
theorem popFloat_refused (h : m.stack.Lists (rest ++ [top])) {fault : Fault}
    (hx : top.readFloat m.bytes = .error fault) : popFloat.Ends m [] (.error fault) m := by
  by_cases hkind : top.kind = .float
  · have hfloat := floatOf_ends hkind m
    rw [hx] at hfloat
    exact .congr hfloat.fail (popFloat_apply h hkind)
  · rw [Slot.readFloat, if_neg hkind] at hx
    cases hx
    apply Ends.of_eq
    simp only [popFloat, bind_apply, get_apply, Outcome.bind_ok, Outcome.after_nil, h.top?,
      List.getLast?_concat, hkind, if_false]
    rfl

theorem popFloat_none (h : m.stack.Lists []) : popFloat.Ends m [] (.error .stackUnderflow) m := by
  apply Ends.of_eq
  simp only [popFloat, bind_apply, get_apply, Outcome.bind_ok, Outcome.after_nil, h.top?]
  rfl

/-- A float is popped with its slot, or nothing changes. -/
theorem popFloat_cases (h : m.stack.Lists slots) :
    (∃ fault, popFloat.Ends m [] (.error fault) m) ∨
    ∃ rest top x stack, slots = rest ++ [top] ∧ popFloat.Ends m [] (.ok x) { m with stack } ∧
      stack.Lists rest := by
  rcases List.eq_nil_or_concat slots with rfl | ⟨rest, top, hslots⟩
  · exact .inl ⟨_, popFloat_none h⟩
  · rw [List.concat_eq_append] at hslots
    subst hslots
    cases hx : top.readFloat m.bytes with
    | error fault => exact .inl ⟨fault, popFloat_refused h hx⟩
    | ok x =>
      obtain ⟨stack, hpop, hlists⟩ := popFloat_lists h hx
      exact .inr ⟨rest, top, x, stack, rfl, hpop, hlists⟩

theorem push_shallow (h : m.stack.depth ≤ Stack.capacity) (slot : Slot) :
    (push slot m).machine.stack.depth ≤ Stack.capacity := by
  have hlists := Stack.Lists.of_depth h
  by_cases hlt : m.stack.active.length < Stack.capacity
  · obtain ⟨stack, hpush, hnext⟩ := push_lists hlists slot hlt
    rw [hpush.machine, hnext.depth]
    exact hnext.few
  · rw [(push_refused hlists slot hlt).machine]
    exact h

theorem pushLiteral_shallow (h : m.stack.depth ≤ Stack.capacity) (v : Value) :
    (pushLiteral v m).machine.stack.depth ≤ Stack.capacity := by
  unfold pushLiteral
  split
  · rename_i a
    cases ha : (readFloat (.float a) m).answer with
    | error fault =>
      rw [bind_of_error ha]
      exact h
    | ok x =>
      rw [bind_of_ok ha]
      exact push_shallow h _
  · rw [pure_bind]
    exact push_shallow h _

theorem pop_shallow (h : m.stack.depth ≤ Stack.capacity) :
    (pop m).machine.stack.depth ≤ Stack.capacity := by
  rcases pop_cases m with ⟨_, -, hm⟩ | ⟨top, stack, hok, hm, -⟩
  · rw [hm]
    exact h
  · have := pop_depth hok
    omega

theorem popFloat_shallow (h : m.stack.depth ≤ Stack.capacity) :
    (popFloat m).machine.stack.depth ≤ Stack.capacity := by
  rcases popFloat_cases (.of_depth h) with ⟨_, hpop⟩ | ⟨rest, top, x, stack, -, hpop, hlists⟩
  · rw [hpop.machine]
    exact h
  · rw [hpop.machine, hlists.depth]
    exact hlists.few

theorem perform_shallow (h : m.stack.depth ≤ Stack.capacity) (r : Request σ) :
    (perform r m).machine.stack.depth ≤ Stack.capacity := by
  cases r with
  | push slot => exact push_shallow h slot
  | pop => exact pop_shallow h
  | popFloat => exact popFloat_shallow h
  | clear => exact Nat.zero_le _
  | _ =>
    rw [(perform_kept _ m).stack]
    · exact h
    · nofun

end Machine

/-- At every moment of a run, in the middle of an operation as well, no more slots are in use than
there are. -/
theorem Run.shallow_amid {host : Host σ} {past events : List (Event σ)} {m n : Machine σ}
    {allowed : Value → Prop} (h : Run host past m) (hm : Moves allowed m events n) :
    n.stack.depth ≤ Stack.capacity := by
  have hmove : ∀ given (past : List (Event σ)) (m : Machine σ) events n,
      m.stack.depth ≤ Stack.capacity → Move given m events n → n.stack.depth ≤ Stack.capacity := by
    intro given past m events n h hm
    cases hm with
    | served r => exact Machine.perform_shallow h r
    | literal v _ => exact Machine.pushLiteral_shallow h v
    | noted notice => exact h
    | deeper => exact h
    | back => exact h
  have hstart : m.stack.depth ≤ Stack.capacity :=
    h.invariant (I := fun _ m => m.stack.depth ≤ Stack.capacity) (fun _ _ _ _ => Nat.zero_le _)
      (fun _ _ _ => Nat.zero_le _) hmove
  exact hm.preserve (I := fun _ m => m.stack.depth ≤ Stack.capacity) (hmove allowed) past hstart

namespace Calculator

open Machine Step

/-- A host that has the words of the calculator, under names of its own. -/
structure Speaker (host : Host σ) where
  name : Word → σ.Native
  procedure : ∀ word, host.procedure (name word) = Calculator.procedure word

variable {host : Host σ} {m : Machine σ} {top : Slot} {rest : List Slot}

/-- Invokes a word of the calculator. -/
def Speaker.say (speaker : Speaker host) (word : Word) (payload : Value) : Step σ Unit :=
  invoke host (.native (speaker.name word)) payload

theorem Speaker.say_apply (speaker : Speaker host) {word : Word} {body : Value → Program σ Unit}
    (h : Calculator.procedure word = .program body) (payload : Value) (m : Machine σ) :
    speaker.say word payload m = (body payload).start host m :=
  invokeUsing_program ((speaker.procedure word).trans h) _ _ _

theorem top_lists (host : Host σ) (h : m.stack.Lists (rest ++ [top])) :
    ((Calculator.top : Program σ Slot).start host).Ends m [] (.ok top) m := by
  have hnth : (serve (.nth 0)).Ends m [] (.ok (some top)) m := by
    refine .serve (r := .nth 0) (congrArg Except.ok ?_) rfl
    rw [← List.getLast?_concat (a := top) (l := rest), ← h.top?]
    rfl
  rw [Program.start, run_top]
  exact hnth.silent (.pure top m)

theorem top_refused (host : Host σ) (h : m.stack.Lists []) :
    ((Calculator.top : Program σ Slot).start host).Ends m [] (.error .stackUnderflow) m := by
  have hnth : (serve (.nth 0)).Ends m [] (.ok none) m :=
    .serve (r := .nth 0) (congrArg Except.ok h.top?) rfl
  rw [Program.start, run_top]
  exact hnth.silent ⟨rfl, rfl, rfl⟩

namespace Speaker

variable (speaker : Speaker host) (payload : Value)

theorem dup_apply (m : Machine σ) : speaker.say .dup payload m = (do
    let slot ← (Calculator.top : Program σ Slot).start host
    serve (.push slot) : Step σ Unit) m := by
  refine (speaker.say_apply rfl payload m).trans (congrFun ?_ m)
  refine (Program.run_bind _ _ _).trans (congrArg _ (funext fun slot => ?_))
  exact Program.run_request _ _

theorem dup_lists (h : m.stack.Lists (rest ++ [top])) (hlt : rest.length + 1 < Stack.capacity) :
    ∃ stack, (speaker.say .dup payload).Ends m [] (.ok ()) { m with stack } ∧
      stack.Lists (rest ++ [top] ++ [top]) := by
  obtain ⟨stack, hpush, hlists⟩ := push_lists h top (by simpa using hlt)
  refine ⟨stack, .congr ((top_lists host h).silent ?_) (speaker.dup_apply payload m), hlists⟩
  exact .serve (r := .push top) hpush.answer hpush.machine

theorem dup_full (h : m.stack.Lists (rest ++ [top])) (hfull : ¬ rest.length + 1 < Stack.capacity) :
    (speaker.say .dup payload).Ends m [] (.error .stackOverflow) m := by
  have hpush := push_refused h top (by simpa using hfull)
  refine .congr ((top_lists host h).silent ?_) (speaker.dup_apply payload m)
  exact .serve (r := .push top) hpush.answer hpush.machine

theorem dup_refused (h : m.stack.Lists []) :
    (speaker.say .dup payload).Ends m [] (.error .stackUnderflow) m :=
  .congr (top_refused host h).fail (speaker.dup_apply payload m)

end Speaker
end Calculator

namespace Stack

/-- What can be asked of the value stack. -/
inductive Command where
  /-- Claim a new top slot and write to it. -/
  | push (fill : Slot → Slot)
  | pushValue (value : Value)
  | pushFloat (x : Single)
  | pop
  | popFloat
  | peek
  | nth (n : Nat)
  | slots
  | clear
  /-- Empty the whole machine. -/
  | reset
  /-- Say the calculator's word that pushes the top slot once more. -/
  | dup (payload : Value)

/-- What a command is answered with. -/
inductive Reply where
  | done
  | slot (slot : Slot)
  | float (x : Single)
  | found (slot : Option Slot)
  | slots (slots : List Slot)
deriving DecidableEq

variable {host : Host σ}

def Command.step (speaker : Calculator.Speaker host) : Command → Step σ Reply
  | .push fill => do
    Machine.pushWith fill
    return .done
  | .pushValue value => do
    Machine.push (.ofValue value)
    return .done
  | .pushFloat x => do
    Machine.push (.ofFloat x)
    return .done
  | .pop => do return .slot (← Machine.pop)
  | .popFloat => do return .float (← Machine.popFloat)
  | .peek => do return .found (← get).stack.top?
  | .nth n => do return .found ((← get).stack.nth? n)
  | .slots => do return .slots (← get).stack.active
  | .clear => do
    modify fun m => { m with stack := m.stack.clear }
    return .done
  | .reset => do
    Machine.reset
    return .done
  | .dup payload => do
    speaker.say .dup payload
    return .done

def obey (speaker : Calculator.Speaker host) (m : Machine σ) (command : Command) :
    Except Fault Reply × Machine σ :=
  ((command.step speaker m).answer, (command.step speaker m).machine)

end Stack

/-- A list of slots, the top last, beside the bytes that their floats are boxed in. -/
structure SlotList where
  slots : List Slot
  bytes : ByteArena

namespace SlotList

open Stack (Command Reply)

/-- Appends a slot to at most thirty-one others. -/
def append (l : SlotList) (slot : Slot) : Except Fault Reply × SlotList :=
  if l.slots.length < 32 then (.ok .done, { l with slots := l.slots ++ [slot] })
  else (.error .stackOverflow, l)

/-- Takes the last slot away, unless it is refused. -/
def take (l : SlotList) (reply : Slot → Except Fault Reply) : Except Fault Reply × SlotList :=
  match l.slots.getLast? with
  | none => (.error .stackUnderflow, l)
  | some slot =>
    match reply slot with
    | .ok answer => (.ok answer, { l with slots := l.slots.dropLast })
    | .error fault => (.error fault, l)

def obey (l : SlotList) : Command → Except Fault Reply × SlotList
  | .push fill => l.append (fill ⟨.nil, .nil, .zero⟩)
  | .pushValue value => l.append ⟨value.kind, value, .zero⟩
  | .pushFloat x => l.append ⟨.float, .nil, x⟩
  | .pop => l.take fun slot => .ok (.slot slot)
  | .popFloat => l.take fun slot => (slot.readFloat l.bytes).map .float
  | .peek => (.ok (.found l.slots.getLast?), l)
  | .nth n => (.ok (.found l.slots.reverse[n]?), l)
  | .slots => (.ok (.slots l.slots), l)
  | .clear => (.ok .done, { l with slots := [] })
  | .reset => (.ok .done, ⟨[], l.bytes.reset⟩)
  | .dup _ =>
    match l.slots.getLast? with
    | none => (.error .stackUnderflow, l)
    | some slot => l.append slot

end SlotList

namespace Machine

open Step Stack

variable {host : Host σ} {m : Machine σ} {l : SlotList}

/-- The stack holds the slots of the list, and the machine its bytes. -/
structure Shows (m : Machine σ) (l : SlotList) : Prop where
  stack : m.stack.Lists l.slots
  bytes : m.bytes = l.bytes

/-- The machine answers as the list does and shows what it comes to. What fails leaves the machine
as it is. -/
structure Follows (speaker : Calculator.Speaker host) (m : Machine σ) (l : SlotList)
    (command : Command) : Prop where
  answer : (obey speaker m command).1 = (l.obey command).1
  shows : (obey speaker m command).2.Shows (l.obey command).2
  still : ∀ fault, (obey speaker m command).1 = .error fault → (obey speaker m command).2 = m

variable (speaker : Calculator.Speaker host)

theorem follows_of_ends {command : Command} {lines : List String} {answer : Except Fault Reply}
    {n : Machine σ} {next : SlotList} (h : (command.step speaker).Ends m lines answer n)
    (hl : l.obey command = (answer, next)) (hs : n.Shows next)
    (hstill : ∀ fault, answer = .error fault → n = m) : Follows speaker m l command where
  answer := by
    rw [hl]
    exact h.answer
  shows := by
    rw [hl]
    change (command.step speaker m).machine.Shows next
    rw [h.machine]
    exact hs
  still fault hf := by
    change (command.step speaker m).machine = m
    rw [h.machine]
    exact hstill fault (h.answer.symm.trans hf)

namespace Shows

theorem push (h : m.Shows l) (slot : Slot) {command : Command}
    (hstep : command.step speaker = (do push slot; return .done : Step σ Reply))
    (hl : l.obey command = l.append slot) : Follows speaker m l command := by
  by_cases hlt : l.slots.length < 32
  · obtain ⟨stack, hpush, hlists⟩ := push_lists h.stack slot hlt
    have hends : (command.step speaker).Ends m [] (.ok .done) { m with stack } := by
      rw [hstep]
      exact hpush.silent (.pure Reply.done _)
    exact follows_of_ends speaker hends (hl.trans (if_pos hlt)) ⟨hlists, h.bytes⟩ nofun
  · have hends : (command.step speaker).Ends m [] (.error .stackOverflow) m := by
      rw [hstep]
      exact (push_refused h.stack slot hlt).fail
    exact follows_of_ends speaker hends (hl.trans (if_neg hlt)) h fun _ _ => rfl

/-- What only looks at the stack. -/
theorem look (h : m.Shows l) {command : Command} {reply : Reply}
    (hstep : (command.step speaker).Ends m [] (.ok reply) m) (hl : l.obey command = (.ok reply, l)) :
    Follows speaker m l command :=
  follows_of_ends speaker hstep hl h nofun

theorem pop (h : m.Shows l) : Follows speaker m l .pop := by
  rcases List.eq_nil_or_concat l.slots with hnil | ⟨rest, top, hslots⟩
  · have hpop := pop_refused (hnil ▸ h.stack)
    have hl : l.obey .pop = (.error .stackUnderflow, l) := by simp [SlotList.obey, SlotList.take, hnil]
    exact follows_of_ends speaker hpop.fail hl h fun _ _ => rfl
  · obtain ⟨stack, hpop, hlists⟩ := pop_lists (List.concat_eq_append ▸ hslots ▸ h.stack)
    have hl : l.obey .pop = (.ok (.slot top), { l with slots := rest }) := by
      simp [SlotList.obey, SlotList.take, hslots]
    exact follows_of_ends speaker (hpop.silent (.pure (Reply.slot top) _)) hl ⟨hlists, h.bytes⟩ nofun

theorem popFloat (h : m.Shows l) : Follows speaker m l .popFloat := by
  rcases List.eq_nil_or_concat l.slots with hnil | ⟨rest, top, hslots⟩
  · have hpop := popFloat_none (hnil ▸ h.stack)
    have hl : l.obey .popFloat = (.error .stackUnderflow, l) := by
      simp [SlotList.obey, SlotList.take, hnil]
    exact follows_of_ends speaker hpop.fail hl h fun _ _ => rfl
  · have hstack : m.stack.Lists (rest ++ [top]) := List.concat_eq_append ▸ hslots ▸ h.stack
    have hl : ∀ answer, top.readFloat l.bytes = answer → l.obey .popFloat =
        match answer with
        | .ok x => (.ok (.float x), { l with slots := rest })
        | .error fault => (.error fault, l) := by
      intro answer ha
      simp only [SlotList.obey, SlotList.take, hslots, List.concat_eq_append, List.getLast?_concat, ha]
      cases answer <;> simp [Except.map]
    cases hx : top.readFloat l.bytes with
    | ok x =>
      obtain ⟨stack, hpop, hlists⟩ := popFloat_lists hstack (h.bytes ▸ hx)
      exact follows_of_ends speaker (hpop.silent (.pure (Reply.float x) _)) (hl _ hx)
        ⟨hlists, h.bytes⟩ nofun
    | error fault =>
      have hpop := popFloat_refused hstack (h.bytes ▸ hx)
      exact follows_of_ends speaker hpop.fail (hl _ hx) h fun _ _ => rfl

theorem dup (h : m.Shows l) (payload : Value) : Follows speaker m l (.dup payload) := by
  rcases List.eq_nil_or_concat l.slots with hnil | ⟨rest, top, hslots⟩
  · have hdup := speaker.dup_refused payload (hnil ▸ h.stack)
    have hl : l.obey (.dup payload) = (.error .stackUnderflow, l) := by simp [SlotList.obey, hnil]
    exact follows_of_ends speaker hdup.fail hl h fun _ _ => rfl
  · rw [List.concat_eq_append] at hslots
    have hstack : m.stack.Lists (rest ++ [top]) := hslots ▸ h.stack
    have hl : l.obey (.dup payload) = l.append top := by simp [SlotList.obey, hslots]
    by_cases hlt : rest.length + 1 < 32
    · obtain ⟨stack, hdup, hlists⟩ := speaker.dup_lists payload hstack hlt
      have happend : l.append top = (.ok .done, { l with slots := rest ++ [top] ++ [top] }) := by
        rw [← hslots]
        exact if_pos (by simpa [hslots] using hlt)
      exact follows_of_ends speaker (hdup.silent (.pure Reply.done _)) (hl.trans happend)
        ⟨hlists, h.bytes⟩ nofun
    · have happend : l.append top = (.error .stackOverflow, l) :=
        if_neg (by simpa [hslots] using hlt)
      exact follows_of_ends speaker (speaker.dup_full payload hstack hlt).fail (hl.trans happend) h
        fun _ _ => rfl

theorem follows (h : m.Shows l) (command : Command) : Follows speaker m l command := by
  cases command with
  | push fill =>
    refine h.push speaker (fill .blank) ?_ rfl
    rw [← pushWith_eq]
    rfl
  | pushValue value => exact h.push speaker (.ofValue value) rfl rfl
  | pushFloat x => exact h.push speaker (.ofFloat x) rfl rfl
  | pop => exact h.pop speaker
  | popFloat => exact h.popFloat speaker
  | peek => exact h.look speaker (.of_eq rfl) (by rw [h.stack.top?]; rfl)
  | nth n => exact h.look speaker (.of_eq rfl) (by rw [h.stack.nth? n]; rfl)
  | slots => exact h.look speaker (.of_eq rfl) (by rw [h.stack.active]; rfl)
  | clear =>
    refine ⟨rfl, ⟨.of_clear _, h.bytes⟩, nofun⟩
  | reset => exact ⟨rfl, ⟨.of_clear _, congrArg ByteArena.reset h.bytes⟩, nofun⟩
  | dup payload => exact h.dup speaker payload

end Shows

/-- Asked for anything in any order, the value stack answers as a list of slots does that has room for
thirty-two of them; where the list refuses, nothing has changed. Stacks with the same slots in use give
the same answers ever after, whatever is left above their depths. -/
theorem stack_answers_as_list (speaker : Calculator.Speaker host) (m : Machine σ)
    (h : m.stack.depth ≤ Stack.capacity) (commands : List Command) :
    let said := transcript (obey speaker) m commands
    let meant := transcript SlotList.obey ⟨m.stack.active, m.bytes⟩ commands
    said.1 = meant.1 ∧ said.2.stack.active = meant.2.slots ∧ meant.2.slots.length ≤ 32 ∧
    (∀ command fault, (obey speaker said.2 command).1 = .error fault →
      (obey speaker said.2 command).2 = said.2) ∧
    ∀ other : Stack, other.depth ≤ Stack.capacity → other.active = m.stack.active →
      (transcript (obey speaker) { m with stack := other } commands).1 = said.1 := by
  intro said meant
  have hstep : ∀ (m : Machine σ) (l : SlotList) command, m.Shows l →
      (obey speaker m command).1 = (l.obey command).1 ∧
        (obey speaker m command).2.Shows (l.obey command).2 :=
    fun _ _ command h => ⟨(h.follows speaker command).answer, (h.follows speaker command).shows⟩
  have hshows : m.Shows ⟨m.stack.active, m.bytes⟩ := ⟨.of_depth h, rfl⟩
  obtain ⟨hsaid, hlast⟩ := transcript_eq hstep commands hshows
  refine ⟨hsaid, hlast.stack.active, hlast.stack.few, fun command => (hlast.follows speaker command).still,
    fun other hother hactive => ?_⟩
  have hlike : Shows { m with stack := other } ⟨m.stack.active, m.bytes⟩ :=
    ⟨hactive ▸ .of_depth hother, rfl⟩
  exact (transcript_eq hstep commands hlike).1.trans hsaid.symm

/-- The calculator's host, on a stack that has been full of floats before. -/
theorem stack_answers_as_list_of_leftFull :
    let speaker : Calculator.Speaker Calculator.host := ⟨id, fun _ => rfl⟩
    let m : Machine Calculator.signature := .create #[] #[] ⟨1, .strict⟩ none
    let used : Stack := ⟨.replicate 32 (.ofFloat .one), 0⟩
    let commands : List Command := [.push fun slot => { slot with kind := .float }, .popFloat,
      .pushValue (.cell ⟨6⟩), .dup .nil, .slots, .nth 2, .popFloat, .clear, .pop]
    let answers := (transcript (obey speaker) m commands).1.map Prod.snd
    m.stack.depth ≤ Stack.capacity ∧ used.depth ≤ Stack.capacity ∧ used.active = m.stack.active ∧
    answers = [.ok .done, .ok (.float .zero), .ok .done, .ok .done,
      .ok (.slots [⟨.cell, .cell ⟨6⟩, .zero⟩, ⟨.cell, .cell ⟨6⟩, .zero⟩]), .ok (.found none),
      .error (.typeMismatch .float .cell), .ok .done, .error .stackUnderflow] ∧
    (transcript (obey speaker) { m with stack := used } commands).1.map Prod.snd = answers := by
  intro speaker m used commands answers
  have hm : m.stack.depth ≤ Stack.capacity := by decide
  have hused : used.depth ≤ Stack.capacity := by decide
  obtain ⟨-, -, -, -, hothers⟩ := stack_answers_as_list speaker m hm commands
  have hsame := hothers used hused rfl
  exact ⟨hm, hused, rfl, by decide +kernel, congrArg (List.map Prod.snd) hsame⟩

end Machine
end ThreadedCode
