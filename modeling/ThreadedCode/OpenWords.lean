import ThreadedCode.Fault

/-!
The words under construction. Every cell allocated while a word is open becomes part of it.
-/
namespace ThreadedCode

/-- The heads of the open words, innermost first. -/
structure OpenWords where
  heads : List CellId
deriving DecidableEq, Repr

namespace OpenWords

def capacity : Nat := 8

def none : OpenWords := ⟨[]⟩

def depth (w : OpenWords) : Nat := w.heads.length

def current? (w : OpenWords) : Option CellId := w.heads.head?

/-- Opens a word inside the others. -/
def push (w : OpenWords) (head : CellId) : Except Fault OpenWords :=
  if w.depth < capacity then .ok ⟨head :: w.heads⟩ else .error .compileNestingExceeded

/-- Closes the innermost word. -/
def pop (w : OpenWords) : Except Fault (CellId × OpenWords) :=
  match w.heads with
  | [] => .error .notCompiling
  | head :: outer => .ok (head, ⟨outer⟩)

end OpenWords
end ThreadedCode
