import Mathlib.Data.List.Nodup
import ThreadedCode.Proofs.Conduct

/-!
The balance of the call depth. Whatever a machine does for its caller, and however that ends, all
levels of nesting that it took are given back. It never has more of them than there are, and refuses
an execution only when it has all.
-/
namespace ThreadedCode

variable {σ : Signature}

/-- What can be done for a caller, also in the middle of executions. -/
inductive Errand (σ : Signature) where
  | execute (cell : CellId)
  | call (cell : CellId)
  /-- Execute the cell of an entry. -/
  | executeEntry (entry : EntryId)
  /-- Wire the cell of an entry into another one. -/
  | copyEntry (entry : EntryId) (dest : CellId)
  /-- Compile a line. A rejection ends this with its fault. -/
  | compile (words : List String)

namespace Errand

def step (host : Host σ) : Errand σ → Step σ Unit
  | .execute cell => Machine.exec host cell
  | .call cell => Machine.call host cell
  | .executeEntry entry => (Words.execute entry).start host
  | .copyEntry entry dest => (Words.copy host entry dest).start host
  | .compile words => do
    match ← (Calculator.compile host words).start host with
    | .ok _ => return ()
    | .error rejection => throw rejection.fault

def task (host : Host σ) : Errand σ → Task σ
  | .execute cell => .execute cell
  | .call cell => .call cell
  | .executeEntry entry => .run (Words.execute entry)
  | .copyEntry entry dest => .run (Words.copy host entry dest)
  | .compile words => .run do
    match ← Calculator.compile host words with
    | .ok _ => return ()
    | .error rejection => throw rejection.fault

variable {host : Host σ} {m : Machine σ} (e : Errand σ)

theorem keeps {c : Conduct σ} {limit : Nat} (hf : c.Fair limit) (hh : host.Keeps c)
    (hw : ∀ r : Request σ, r.part = .words → c.asks r) : (e.task host).Keeps c := by
  cases e with
  | execute | call => trivial
  | executeEntry entry => exact Words.execute_keeps hf entry
  | copyEntry entry dest => exact Words.copy_keeps hf hh entry dest
  | compile words =>
    have hcompile := Calculator.compile_keeps hf hh (fun head => hw (.beginWord head) rfl)
      (hw .endWord rfl) words
    apply hcompile.bind
    intro result hr
    cases result with
    | ok head => trivial
    | error rejection => exact hr rejection rfl

end Errand

namespace Stock

/-- The stock words and strategies may be told whatever a machine tells, and they ask for words. -/
theorem host_keeps {c : Conduct signature} {limit : Nat} (hf : c.Fair limit)
    (hw : ∀ r : Request signature, r.part = .words → c.asks r) : host.Keeps c where
  procedure word := by
    have hask : ∀ r : Request signature, (request r).Keeps c := by
      intro r
      by_cases h : r.part = .words
      · exact Program.keeps_request (hw r h)
      · exact hf.request r h
    cases word with
    | push1 | push2 | push3 | record => exact fun _ => hask _
    | fail => exact fun _ => hf.tells _ nofun
    | drop => exact fun _ => (hask .pop).bind fun _ _ => trivial
    | newcell => exact fun _ => (hask .newCell).bind fun _ _ => hask _
    | colon => exact fun _ => (hask .newCell).bind fun _ _ => hask _
    | semi => exact fun _ => (hask .endWord).bind fun _ _ => hask _
    | incr => exact fun _ => (hask _).bind fun _ _ => hask _
    | execute =>
      intro _
      apply (hask .pop).bind
      intro slot _
      apply (Program.keeps_finish slot.value.asCell (hf.admits slot.value.asCell_ample.unrefused)).bind
      exact fun cell _ => Program.keeps_execute cell
    | callnow => exact Program.keeps_finish
    | boxf => exact fun _ => (hask .popFloat).bind fun _ _ => (hask _).bind fun _ _ => hask _
  strategy wiring source dest := by
    cases wiring with
    | quote => exact hf.request (.bindLiteral dest (.cell source)) nofun
    | refuse => exact hf.tells _ nofun
    | both =>
      exact (Program.keeps_execute source).bind fun _ _ => hf.request (.link source dest) nofun
    | twice =>
      apply (hf.request (.link source dest) nofun).bind
      intro _ _
      exact (hf.request .newCell nofun).bind fun cell _ => hf.request (.link source cell) nofun

/-- Defines a word that executes itself, also when it is compiled. -/
def loop : Program signature Unit := do
  let entry ← Words.define "loop" .link
  let cell := (← request (.entry entry)).cell
  request (.link cell cell)
  request (.setEntryCopy entry CopyTable.immediate)

end Stock

end ThreadedCode
