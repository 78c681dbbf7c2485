import Mathlib.Data.List.Forall2
import ThreadedCode.Calculator.Session
import ThreadedCode.Proofs.Chains

/-!
What a line means. A word is a number or stands for a primitive, and a line of such words is reckoned
on a list of floats. No machine comes into it.
-/
namespace ThreadedCode

namespace Definitions

variable {α β : Type}

/-- What a query stands for in a table of names, oldest first. In compatible mode it is the first name
in the bucket of the query that begins with it, in strict mode the last one equal to it. -/
def named (mode : Mode) (table : List (String × α)) (query : String) : Option α :=
  match mode with
  | .compatible => (table.find? fun t => bucket .compatible t.1 = bucket .compatible query ∧
      query.toUTF8.toList <+: t.1.toUTF8.toList).map Prod.snd
  | .strict => (table.reverse.find? fun t => t.1 = query).map Prod.snd

theorem lookup_eq_named (mode : Mode) (defs : Definitions) (query : String) :
    lookup mode defs query = named mode defs query := by
  cases mode <;> rfl

theorem rel_find? {R : α → β → Prop} {p : String → Bool} {table : List (String × α)}
    {defs : List (String × β)} (h : List.Forall₂ (fun t d => d.1 = t.1 ∧ R t.2 d.2) table defs) :
    Option.Rel R ((table.find? fun t => p t.1).map Prod.snd) ((defs.find? fun d => p d.1).map Prod.snd) := by
  induction h with
  | nil => exact .none
  | @cons t d _ _ hhead _ ih =>
    obtain ⟨hname, hr⟩ := hhead
    rw [List.find?_cons, List.find?_cons, hname]
    cases p t.1 with
    | true => exact .some hr
    | false => exact ih

/-- Tables with the same names in the same order have related answers. -/
theorem rel_named {R : α → β → Prop} {table : List (String × α)} {defs : List (String × β)}
    (h : List.Forall₂ (fun t d => d.1 = t.1 ∧ R t.2 d.2) table defs) (mode : Mode) (query : String) :
    Option.Rel R (named mode table query) (named mode defs query) := by
  cases mode with
  | compatible =>
    exact rel_find? (p := fun n => bucket .compatible n = bucket .compatible query ∧
      query.toUTF8.toList <+: n.toUTF8.toList) h
  | strict => exact rel_find? (p := fun n => n = query) (List.rel_reverse h)

end Definitions

namespace Calculator

/-- What a word of a line means. -/
inductive Meaning where
  | number (x : Single)
  | primitive (word : Word)
deriving DecidableEq

/-- The meaning of a word, if it has any. Numbers go before names. -/
def meaning? (mode : Mode) (word : String) : Option Meaning :=
  match Single.ofText? word with
  | some x => some (.number x)
  | none => (Definitions.named mode vocabulary word).map .primitive

/-- What can go wrong with a list of floats. -/
inductive Mishap where
  | underflow
  | overflow
deriving DecidableEq

def Mishap.message : Mishap → String
  | underflow => "stack underflow"
  | overflow => "stack overflow"

/-- A list of floats, the top first, takes up to thirty-two of them. -/
def pushed (x : Single) (floats : List Single) : Except Mishap (List Single) :=
  if floats.length < 32 then .ok (x :: floats) else .error .overflow

/-- What a word prints, and the floats that it leaves. -/
def Meaning.act : Meaning → List Single → List String × Except Mishap (List Single)
  | number x, floats => ([], pushed x floats)
  | primitive .greet, floats => ([greeting], .ok floats)
  | primitive .add, b :: a :: floats => ([], .ok (a.add b :: floats))
  | primitive .mul, b :: a :: floats => ([], .ok (a.mul b :: floats))
  | primitive .dup, x :: floats => ([], pushed x (x :: floats))
  | primitive .print, x :: floats => ([x.text], .ok floats)
  | primitive _, _ => ([], .error .underflow)

/-- What a line prints up to its first mishap, and the floats that it leaves if there is none. -/
def reckon : List Meaning → List Single → List String × Except Mishap (List Single)
  | [], floats => ([], .ok floats)
  | meaning :: rest, floats =>
    match meaning.act floats with
    | (lines, .error mishap) => (lines, .error mishap)
    | (lines, .ok floats) => (lines ++ (reckon rest floats).1, (reckon rest floats).2)

/-- What is to be reported of a line. If a word of it means nothing, that is all that is said; else it
is reckoned from an empty list, and the floats that are left are printed, the top first. -/
def expected (o : Options) : Report :=
  match o.words.find? fun word => (meaning? o.mode word).isNone with
  | some word => ⟨[], ["Error compiling: " ++ word ++ ": word not found"], 1⟩
  | none =>
    match reckon (o.words.filterMap (meaning? o.mode)) [] with
    | (lines, .error mishap) => ⟨lines, ["Error executing: " ++ mishap.message], 1⟩
    | (lines, .ok floats) => ⟨lines ++ floats.map Single.text, [], 0⟩

/-- What has been printed before a mishap stays printed. -/
example : expected ⟨0, 0, .strict, ["test", "2", "+", "."]⟩ =
    ⟨[greeting], ["Error executing: stack underflow"], 1⟩ := by decide +kernel

/-- The words of a line that are numbers. -/
def numbers (words : List String) : Nat := words.countP fun word => (Single.ofText? word).isSome

/-- The arenas have room for the primitives and for a line, and every handle that is given out for them
is a word. -/
structure Options.Suffices (o : Options) : Prop where
  bytes : 115 + 4 * numbers o.words ≤ o.bytes
  cells : 6 + o.words.length ≤ o.cells
  addresses : 115 + 4 * numbers o.words < wordLimit
  ids : 6 + o.words.length < wordLimit

end Calculator
end ThreadedCode
