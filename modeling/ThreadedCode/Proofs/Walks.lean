import ThreadedCode.Proofs.Cells

/-!
One step of a walk, and the execution and the invocation of one cell, piece by piece.
-/
namespace ThreadedCode

variable {σ : Signature}

theorem CellId.shift?_eq_some {head id : CellId} {n : Nat} (h : head.shift? n = some id) :
    id.index = head.index + n := by
  unfold CellId.shift? at h
  split at h
  · cases h
    rfl
  · cases h

namespace Machine

open Step

variable {host : Host σ} {m : Machine σ} {exec call : CellId → Step σ Unit} {head id : CellId}
  {cell : Cell σ}

/-- What a walk does on a cell: it calls a leaf and executes the head of a compound word. -/
def visit (exec call : CellId → Step σ Unit) (cell : Cell σ) (id : CellId) : Step σ Unit :=
  if cell.extent = 1 then call id else exec id

theorem walk_of_cell {left offset : Nat} (hs : head.shift? offset = some id)
    (hg : m.cells.get id = .ok cell) :
    walk exec call head (left + 1) 0 offset m =
      (visit exec call cell id >>= fun _ =>
        walk exec call head left (cell.extent - 1) (offset + 1)) m := by
  simp only [walk, hs, bind_apply, get_apply, Outcome.bind_ok, Outcome.after_nil, lift_apply, hg]
  simp only [visit]
  split <;> rfl

theorem walk_of_error {left offset : Nat} {fault : Fault} (hs : head.shift? offset = some id)
    (hg : m.cells.get id = .error fault) :
    walk exec call head (left + 1) 0 offset m = ⟨.error fault, m, []⟩ := by
  simp [walk, hs, bind_apply, hg]

theorem walk_of_none {left offset : Nat} (hs : head.shift? offset = none) :
    walk exec call head (left + 1) 0 offset m = ⟨.error (.invalidCell head), m, []⟩ := by
  simp [walk, hs]

theorem nested_apply (s : Step σ Unit) (m : Machine σ) :
    nested s m = ⟨(s { m with callDepth := m.callDepth + 1 }).answer,
      { (s { m with callDepth := m.callDepth + 1 }).machine with
        callDepth := (s { m with callDepth := m.callDepth + 1 }).machine.callDepth - 1 },
      (s { m with callDepth := m.callDepth + 1 }).events⟩ := by
  simp only [nested, bind_apply, modify_apply, attempt_apply, Outcome.bind_ok, Outcome.after_nil]
  simp [Outcome.after]

theorem execRun_of_leaf (host : Host σ) (hg : m.cells.get head = .ok cell)
    (hleaf : cell.extent = 1) :
    execRun host exec head m = callWith (invokeUsing host exec) head m := by
  simp [execRun, bind_apply, hg, hleaf]

theorem execRun_of_word (host : Host σ) (hg : m.cells.get head = .ok cell)
    (hword : cell.extent ≠ 1) :
    execRun host exec head m =
      (log (.walked head cell.extent) >>= fun _ =>
        walk exec (callWith (invokeUsing host exec)) head (cell.extent - 1) 0 1) m := by
  simp [execRun, bind_apply, hg, hword]

theorem execRun_of_error (host : Host σ) {fault : Fault} (hg : m.cells.get head = .error fault) :
    execRun host exec head m = ⟨.error fault, m, []⟩ := by
  simp [execRun, bind_apply, hg]

theorem callWith_of_get {invoke : Procedure σ → Value → Step σ Unit} {id : CellId} {c : Cell σ}
    (hg : m.cells.get id = .ok c) : callWith invoke id m =
      (invoke c.procedure c.payload m).after (log (.called id) m).events := by
  simp only [callWith, bind_apply, get_apply, lift_apply, Outcome.bind_ok, Outcome.after_nil, hg]
  rfl

theorem invokeUsing_link (host : Host σ) (exec : CellId → Step σ Unit) (source : CellId)
    (m : Machine σ) : invokeUsing host exec .link (.cell source) m = exec source m := by
  simp only [invokeUsing, bind_apply, get_apply, Outcome.bind_ok, Outcome.after_nil]
  cases m.stack.depth <;> rfl

theorem invokeUsing_link_of_error (host : Host σ) (exec : CellId → Step σ Unit) {payload : Value}
    {fault : Fault} (hp : payload.asCell = .error fault) (m : Machine σ) :
    invokeUsing host exec .link payload m = ⟨.error fault, m, []⟩ := by
  simp only [invokeUsing, bind_apply, get_apply, Outcome.bind_ok, Outcome.after_nil]
  cases m.stack.depth <;> simp [invokeWithin, invokeWith, bind_apply, hp]

theorem invokeUsing_literal (host : Host σ) (exec : CellId → Step σ Unit) (v : Value)
    (m : Machine σ) : invokeUsing host exec .literal v m = pushLiteral v m := by
  simp only [invokeUsing, bind_apply, get_apply, Outcome.bind_ok, Outcome.after_nil]
  cases m.stack.depth <;> rfl

theorem invokeUsing_zero (host : Host σ) (exec : CellId → Step σ Unit) (v : Value)
    (m : Machine σ) : invokeUsing host exec .zero v m = ⟨.ok (), m, []⟩ := by
  simp only [invokeUsing, bind_apply, get_apply, Outcome.bind_ok, Outcome.after_nil]
  cases m.stack.depth <;> rfl

/-- A native word with a program for its body runs it. -/
theorem invokeUsing_program {name : σ.Native} {body : Value → Program σ Unit}
    (h : host.procedure name = .program body) (exec : CellId → Step σ Unit) (v : Value)
    (m : Machine σ) :
    invokeUsing host exec (.native name) v m = (body v).run exec m := by
  simp only [invokeUsing, bind_apply, get_apply, Outcome.bind_ok, Outcome.after_nil]
  cases m.stack.depth with
  | zero => simp only [invokeWithin, invokeWith, h]
  | succ slots => simp only [invokeWithin, invokeWith, h]

end Machine
end ThreadedCode
