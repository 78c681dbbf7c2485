import ThreadedCode.Proofs.Meanings
import ThreadedCode.Proofs.Primitives
import ThreadedCode.Proofs.Stacks

/-!
Operands. A stack on which every slot holds a float is a list of floats, boxed or not, and the words of
the calculator do to it what they mean.
-/
namespace ThreadedCode

/-- The slot holds this float, in the byte arena or in itself. -/
inductive Slot.Holds (b : ByteArena) : Slot → Single → Prop
  | boxed {a : Address} {x : Single} (scratch : Single) (h : b.readFloat (.float a) = .ok x) :
    Holds b ⟨.float, .float a, scratch⟩ x
  | unboxed (x : Single) : Holds b (.ofFloat x) x

/-- The stack holds these floats, the top first. -/
structure Stack.Holds (b : ByteArena) (s : Stack) (floats : List Single) : Prop where
  depth : s.depth = floats.length
  slots : List.Forall₂ (Slot.Holds b) s.active.reverse floats

namespace Stack.Holds

variable {b : ByteArena} {s : Stack} {slot : Slot} {x : Single} {floats : List Single}

theorem empty (b : ByteArena) : Stack.empty.Holds b [] := ⟨rfl, .nil⟩

theorem few (h : s.Holds b floats) : floats.length ≤ capacity := by
  have hlength := h.slots.length_eq
  simp only [active, List.length_reverse, List.length_take, Vector.length_toList] at hlength
  omega

theorem pushSlot (h : s.Holds b floats) (hx : slot.Holds b x) (hlt : floats.length < capacity) :
    ∃ s', s.pushSlot slot = .ok s' ∧ s'.Holds b (x :: floats) := by
  have hpush := pushSlot_eq s slot
  rw [if_pos (h.depth.symm ▸ hlt)] at hpush
  refine ⟨_, hpush, congrArg (· + 1) h.depth, ?_⟩
  rw [active_pushSlot hpush, List.reverse_append]
  exact .cons hx h.slots

theorem pushSlot_full (h : s.Holds b floats) (hfull : ¬ floats.length < capacity) (slot : Slot) :
    s.pushSlot slot = .error .stackOverflow := by
  rw [pushSlot_eq, if_neg (h.depth.symm ▸ hfull)]

theorem pop_empty (h : s.Holds b []) : s.top? = none ∧ s.pop = .error .stackUnderflow := by
  have htop : s.top? = none := if_neg (by rw [h.depth]; exact Nat.lt_irrefl 0)
  refine ⟨htop, ?_⟩
  rw [pop, htop]

theorem pop (h : s.Holds b (x :: floats)) :
    ∃ slot s', s.top? = some slot ∧ s.pop = .ok (slot, s') ∧ slot.Holds b x ∧ s'.Holds b floats := by
  have hfew := h.few
  have hdepth := h.depth
  rw [List.length_cons] at hfew hdepth
  have hlt : s.depth - 1 < capacity := by omega
  have htop : s.top? = some s.slots[s.depth - 1] := by
    rw [top?, nth?, if_pos (by omega), Nat.sub_zero, Vector.getElem?_eq_getElem hlt]
  have hpop : s.pop = .ok (s.slots[s.depth - 1], { s with depth := s.depth - 1 }) := by
    rw [Stack.pop, htop]
  have hslots := h.slots
  rw [active_pop hpop, List.reverse_append] at hslots
  cases hslots with
  | cons hx hrest => exact ⟨_, _, htop, hpop, hx, by simp only [hdepth]; rfl, hrest⟩

end Stack.Holds

namespace Machine

open Step

variable {σ : Signature} {m : Machine σ} {slot : Slot} {x : Single} {floats : List Single}

theorem push_holds (h : m.stack.Holds m.bytes floats) (hx : slot.Holds m.bytes x)
    (hlt : floats.length < Stack.capacity) :
    ∃ stack, (push slot m).answer = .ok () ∧ (push slot m).machine = { m with stack } ∧
      stack.Holds m.bytes (x :: floats) := by
  obtain ⟨stack, hpush, hholds⟩ := h.pushSlot hx hlt
  refine ⟨stack, ?_, ?_, hholds⟩
  · simp only [push, bind_apply, get_apply, Outcome.bind_ok, Outcome.after_nil, h.depth, hlt, if_true, hpush]
    rfl
  · simp only [push, bind_apply, get_apply, Outcome.bind_ok, Outcome.after_nil, h.depth, hlt, if_true, hpush]
    rfl

theorem push_full (h : m.stack.Holds m.bytes floats) (hfull : ¬ floats.length < Stack.capacity)
    (slot : Slot) : (push slot m).answer = .error .stackOverflow := by
  simp only [push, bind_apply, get_apply, Outcome.bind_ok, Outcome.after_nil, h.depth, hfull, if_false,
    h.pushSlot_full hfull slot]
  rfl

theorem pop_holds (h : m.stack.Holds m.bytes (x :: floats)) :
    ∃ slot stack, m.stack.top? = some slot ∧ slot.Holds m.bytes x ∧
      pop m = ⟨.ok slot, { m with stack }, []⟩ ∧ stack.Holds m.bytes floats := by
  obtain ⟨slot, stack, htop, hpop, hx, hholds⟩ := h.pop
  refine ⟨slot, stack, htop, hx, ?_, hholds⟩
  have hsome : m.stack.isEmpty = false := by
    rw [Stack.isEmpty, h.depth]
    rfl
  simp only [pop, bind_apply, get_apply, Outcome.bind_ok, Outcome.after_nil, hsome, hpop]
  rfl

theorem floatOf_holds (hx : slot.Holds m.bytes x) : floatOf slot m = ⟨.ok x, m, []⟩ := by
  cases hx with
  | boxed scratch h =>
    simp only [floatOf, readFloat, bind_apply, get_apply, Outcome.bind_ok, Outcome.after_nil, lift_apply, h]
  | unboxed x => rfl

theorem popFloat_holds (h : m.stack.Holds m.bytes (x :: floats)) :
    ∃ stack, (serve .popFloat).Ends m [] (.ok x) { m with stack } ∧ stack.Holds m.bytes floats := by
  obtain ⟨slot, stack, htop, hx, hpop, hholds⟩ := pop_holds h
  have hkind : slot.kind = .float := by cases hx <;> rfl
  have hrun : popFloat m = ⟨.ok x, { m with stack }, []⟩ := by
    simp only [popFloat, bind_apply, get_apply, Outcome.bind_ok, Outcome.after_nil, htop, hkind, if_true,
      floatOf_holds hx, hpop]
    rfl
  exact ⟨stack, .serve (r := .popFloat) (congrArg Outcome.answer hrun) (congrArg Outcome.machine hrun),
    hholds⟩

theorem popFloat_empty (h : m.stack.Holds m.bytes []) :
    (serve .popFloat).Ends m [] (.error .stackUnderflow) m := by
  have hrun : popFloat m = ⟨.error .stackUnderflow, m, []⟩ := by
    simp only [popFloat, bind_apply, get_apply, Outcome.bind_ok, Outcome.after_nil, h.pop_empty.1]
    rfl
  exact .serve (r := .popFloat) (congrArg Outcome.answer hrun) (congrArg Outcome.machine hrun)

end Machine

namespace Calculator

open Machine Step

section
variable {σ : Signature} (exec : CellId → Step σ Unit)

theorem run_combine (operation : Single → Single → Single) : (combine operation).run exec = (do
    let b ← serve .popFloat
    let a ← serve .popFloat
    serve (.push (.ofFloat (operation a b)))) := by
  refine (Program.run_bind exec _ _).trans ?_
  rw [Program.run_request]
  refine congrArg _ (funext fun b => (Program.run_bind exec _ _).trans ?_)
  rw [Program.run_request]
  exact congrArg _ (funext fun a => Program.run_request exec _)

theorem run_top : (top : Program σ Slot).run exec = (do
    match ← serve (.nth 0) with
    | some slot => return slot
    | none => throw .stackUnderflow) := by
  refine (Program.run_bind exec _ _).trans ?_
  rw [Program.run_request]
  refine congrArg _ (funext fun answer => ?_)
  cases answer <;> rfl

theorem run_describe_boxed (a : Address) (scratch : Single) :
    (describe ⟨.float, .float a, scratch⟩).run exec = (do
      return (← serve (.readFloat (.float a))).text) := by
  refine (Program.run_bind exec _ _).trans ?_
  rw [Program.run_request]
  rfl

end

variable {m n : Machine signature} {slot : Slot} {x : Single} {floats : List Single}
  {exec : CellId → Step signature Unit}

def Mishap.fault : Mishap → Fault
  | underflow => .stackUnderflow
  | overflow => .stackOverflow

/-- The step does to the stack what a reckoning does to the list of floats that it holds. -/
def Reckons (s : Step signature Unit) (m : Machine signature) :
    List String × Except Mishap (List Single) → Prop
  | (lines, .ok floats) =>
    ∃ stack, s.Ends m lines (.ok ()) { m with stack } ∧ stack.Holds m.bytes floats
  | (lines, .error mishap) => ∃ n, s.Ends m lines (.error mishap.fault) n

namespace Reckons

variable {α : Type} {s : Step signature α} {next : α → Step signature Unit} {stack : Stack}
  {result : List String × Except Mishap (List Single)}

/-- What goes on from a step that has no output and changes the stack at most. -/
theorem silent {a : α} (h : s.Ends m [] (.ok a) { m with stack })
    (h' : Reckons (next a) { m with stack } result) : Reckons (s >>= next) m result := by
  obtain ⟨lines, answer⟩ := result
  cases answer with
  | ok floats =>
    obtain ⟨last, hends, hholds⟩ := h'
    exact ⟨last, h.silent hends, hholds⟩
  | error mishap =>
    obtain ⟨n, hends⟩ := h'
    exact ⟨n, h.silent hends⟩

/-- A step that fails for lack of floats. -/
theorem starved (h : s.Ends m [] (.error .stackUnderflow) n) :
    Reckons (s >>= next) m ([], .error .underflow) := ⟨n, h.fail⟩

theorem congr {s t : Step signature Unit} (h : Reckons t m result) (ha : (s m).answer = (t m).answer)
    (hm : (s m).machine = (t m).machine) (hl : (s m).lines = (t m).lines) : Reckons s m result := by
  obtain ⟨lines, _ | floats⟩ := result
  · obtain ⟨n, hends⟩ := h
    exact ⟨n, ha.trans hends.answer, hm.trans hends.machine, hl.trans hends.lines⟩
  · obtain ⟨stack, hends, hholds⟩ := h
    exact ⟨stack, ⟨ha.trans hends.answer, hm.trans hends.machine, hl.trans hends.lines⟩, hholds⟩

end Reckons

theorem push_lines (slot : Slot) (m : Machine signature) : (push slot m).lines = [] := by
  obtain ⟨-, notices, he⟩ := push_within (m := m) slot
  rw [Outcome.lines, he, lines_logged]

theorem push_reckons (h : m.stack.Holds m.bytes floats) (hx : slot.Holds m.bytes x) :
    Reckons (push slot) m ([], pushed x floats) := by
  unfold pushed
  split
  · rename_i hlt
    obtain ⟨stack, hok, hmachine, hholds⟩ := push_holds h hx hlt
    exact ⟨stack, ⟨hok, hmachine, push_lines slot m⟩, hholds⟩
  · rename_i hfull
    exact ⟨_, push_full h hfull slot, rfl, push_lines slot m⟩

/-- A float has been printed and is dropped. -/
theorem drop_reckons (h : m.stack.Holds m.bytes (x :: floats)) (line : String) :
    Reckons ((do request (.print line); let _ ← request .pop : Program signature Unit).run exec) m
      ([line], .ok floats) := by
  obtain ⟨slot, stack, -, -, hpop, hholds⟩ := pop_holds h
  have hprint : (serve (.print line)).Ends m [line] (.ok ()) m := .serve (r := .print line) rfl rfl
  have hdrop : (serve .pop).Ends m [] (.ok slot) { m with stack } :=
    .serve (r := .pop) (congrArg Outcome.answer hpop) (congrArg Outcome.machine hpop)
  rw [Program.run_bind, Program.run_request]
  refine ⟨stack, hprint.bind ?_, hholds⟩
  rw [Program.run_bind, Program.run_request]
  exact hdrop.silent (.pure () _)

/-- Two floats are replaced by one, which always has a place. -/
theorem combine_reckons (operation : Single → Single → Single) {a b : Single}
    (h : m.stack.Holds m.bytes (b :: a :: floats)) :
    Reckons ((combine operation).run exec) m ([], .ok (operation a b :: floats)) := by
  have hfew := h.few
  obtain ⟨stack, hb, hs⟩ := popFloat_holds h
  obtain ⟨stack', ha, hs'⟩ := popFloat_holds (m := { m with stack }) hs
  obtain ⟨last, hanswer, hmachine, hlast⟩ := push_holds (m := { m with stack := stack' }) hs'
    (.unboxed (operation a b)) (by simp only [List.length_cons] at hfew; omega)
  rw [run_combine]
  exact ⟨last, hb.silent (ha.silent (.serve (r := .push _) hanswer hmachine)), hlast⟩

/-- With one float or none there is nothing to combine. -/
theorem combine_starves (operation : Single → Single → Single) (h : m.stack.Holds m.bytes floats)
    (hfew : floats.length < 2) : Reckons ((combine operation).run exec) m ([], .error .underflow) := by
  rw [run_combine]
  cases floats with
  | nil => exact .starved (popFloat_empty h)
  | cons b rest =>
    obtain ⟨stack, hb, hs⟩ := popFloat_holds h
    cases rest with
    | nil => exact .silent hb (.starved (popFloat_empty (m := { m with stack }) hs))
    | cons a rest =>
      simp only [List.length_cons] at hfew
      omega

theorem top_holds (exec : CellId → Step signature Unit)
    (h : m.stack.Holds m.bytes (x :: floats)) :
    ∃ slot, (top.run exec).Ends m [] (.ok slot) m ∧ slot.Holds m.bytes x := by
  obtain ⟨slot, -, htop, hx, -⟩ := pop_holds h
  have hnth : (serve (.nth 0)).Ends m [] (.ok (some slot)) m :=
    .serve (r := .nth 0) (congrArg Except.ok htop) rfl
  rw [run_top]
  exact ⟨slot, hnth.silent (.pure slot m), hx⟩

theorem top_empty (h : m.stack.Holds m.bytes []) :
    (top.run exec).Ends m [] (.error .stackUnderflow) m := by
  have hnth : (serve (.nth 0)).Ends m [] (.ok none) m :=
    .serve (r := .nth 0) (congrArg Except.ok h.pop_empty.1) rfl
  rw [run_top]
  exact hnth.silent ⟨rfl, rfl, rfl⟩

/-- A float prints as its text, wherever it lies. -/
theorem describe_holds (hx : slot.Holds m.bytes x) :
    ((describe slot).run exec).Ends m [] (.ok x.text) m := by
  cases hx with
  | @boxed a _ scratch h =>
    rw [run_describe_boxed]
    exact Ends.silent (.serve (r := .readFloat (.float a)) h rfl) (.pure x.text m)
  | unboxed x => exact .pure x.text m

/-- A word of the calculator does to the stack what it means. -/
theorem word_reckons (h : m.stack.Holds m.bytes floats) (word : Word) :
    ∃ body, procedure word = .program body ∧
      ∀ exec payload, Reckons ((body payload).run exec) m ((Meaning.primitive word).act floats) := by
  cases word with
  | greet =>
    refine ⟨_, rfl, fun _ _ => ⟨m.stack, ?_, h⟩⟩
    rw [Program.run_request]
    exact .serve (r := .print greeting) rfl rfl
  | add =>
    refine ⟨_, rfl, fun exec _ => ?_⟩
    match floats with
    | [] | [_] => exact combine_starves _ h (by simp)
    | b :: a :: rest => exact combine_reckons _ h
  | mul =>
    refine ⟨_, rfl, fun exec _ => ?_⟩
    match floats with
    | [] | [_] => exact combine_starves _ h (by simp)
    | b :: a :: rest => exact combine_reckons _ h
  | dup =>
    refine ⟨_, rfl, fun exec _ => ?_⟩
    rw [Program.run_bind]
    match floats with
    | [] => exact .starved (top_empty h)
    | x :: rest =>
      obtain ⟨slot, htop, hx⟩ := top_holds exec h
      refine .silent htop ?_
      rw [Program.run_request]
      exact (push_reckons h hx).congr rfl rfl
        ((serve_lines (.push slot) m).trans (push_lines slot m).symm)
  | print =>
    refine ⟨_, rfl, fun exec _ => ?_⟩
    rw [Program.run_bind]
    match floats with
    | [] => exact .starved (top_empty h)
    | x :: rest =>
      obtain ⟨slot, htop, hx⟩ := top_holds exec h
      refine .silent htop ?_
      rw [Program.run_bind]
      exact .silent (describe_holds hx) (drop_reckons h x.text)

end Calculator
end ThreadedCode
