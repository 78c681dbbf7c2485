import ThreadedCode.Proofs.Lockstep
import ThreadedCode.Proofs.Moves

/-!
The depth of calls. Whatever a machine executes, it comes back to the depth that it started from.
That is why the levels of nesting left can be read off the machine again at every execution.
-/
namespace ThreadedCode

variable {σ : Signature} {α β : Type}

/-- Compares a machine with itself, while it stays at one depth under the same settings. -/
def Lens.steady (settings : Settings) (depth : Nat) : Lens σ where
  related m n := n = m ∧ m.settings = settings ∧ m.callDepth = depth
  counts _ := true
  spares _ := False

namespace Step

variable {settings : Settings} {depth : Nat}

/-- Steps that agree while the machine is steady are equal there, and it stays steady. -/
theorem Agrees.eq {s t : Step σ α} (h : s.Agrees (.steady settings depth) t) {m : Machine σ}
    (hs : m.settings = settings) (hd : m.callDepth = depth) :
    s m = t m ∧ (s m).machine.settings = settings ∧ (s m).machine.callDepth = depth := by
  rcases (h m m ⟨rfl, hs, hd⟩).same fun _ => rfl with ⟨_, hf, _⟩ | ⟨ha, ⟨hm, hs', hd'⟩, he⟩
  · exact hf.elim
  · exact ⟨Outcome.ext ha hm.symm he, hs', hd'⟩

theorem agrees_steady {s : Step σ α} (h : ∀ m, m.settings = settings → m.callDepth = depth →
    (s m).machine.settings = settings ∧ (s m).machine.callDepth = depth) :
    s.Agrees (.steady settings depth) s := by
  rintro _ m ⟨rfl, hs, hd⟩
  exact .inr ⟨rfl, ⟨rfl, h _ hs hd⟩, rfl⟩

end Step

open Step

theorem Lens.steady_lockstep (settings : Settings) (depth : Nat) :
    (Lens.steady (σ := σ) settings depth).Lockstep where
  serve r := agrees_steady fun m hs hd => by
    obtain ⟨hs', hd', -⟩ := (perform_kept r m).settled
    exact ⟨hs'.trans hs, hd'.trans hd⟩
  log notice := agrees_steady fun m hs hd => ⟨hs, hd⟩
  literal v := agrees_steady fun m hs hd => by
    obtain ⟨hs', hd', -⟩ := (Machine.pushLiteral_kept v m).settled
    exact ⟨hs'.trans hs, hd'.trans hd⟩
  cells h := by rw [h.1]
  stack h := by rw [h.1]

theorem Lens.steady_forth {settings : Settings} {depth : Nat} {m n : Machine σ}
    (h : (Lens.steady settings depth).related m n) :
    (Lens.steady settings (depth + 1)).related { m with callDepth := m.callDepth + 1 }
      { n with callDepth := n.callDepth + 1 } := by
  obtain ⟨rfl, hs, hd⟩ := h
  exact ⟨rfl, hs, congrArg (· + 1) hd⟩

theorem Lens.steady_back {settings : Settings} {depth : Nat} {m n : Machine σ}
    (h : (Lens.steady settings (depth + 1)).related m n) :
    (Lens.steady settings depth).related { m with callDepth := m.callDepth - 1 }
      { n with callDepth := n.callDepth - 1 } := by
  obtain ⟨rfl, hs, hd⟩ := h
  exact ⟨rfl, hs, by simp only [hd, Nat.add_sub_cancel]⟩

namespace Machine

variable (host : Host σ) {settings : Settings} {depth : Nat} {m : Machine σ}

/-- Executions agree for one lens at each depth, if they do where no level is left. -/
theorem execWithin_agrees (lens : Nat → Lens σ) (hl : ∀ d, (lens d).Lockstep)
    (hp : ∀ d, host.Passes (lens d).spares) (hs : ∀ d, (lens (d + 1)).spares = (lens d).spares)
    (hc : ∀ d, (lens (d + 1)).counts = (lens d).counts)
    (hin : ∀ d m n, (lens d).related m n →
      (lens (d + 1)).related { m with callDepth := m.callDepth + 1 }
        { n with callDepth := n.callDepth + 1 })
    (hout : ∀ d m n, (lens (d + 1)).related m n →
      (lens d).related { m with callDepth := m.callDepth - 1 }
        { n with callDepth := n.callDepth - 1 })
    (extra : Nat) (hlast : ∀ d cell,
      (execWithin host extra cell).Agrees (lens d) (execWithin host 0 cell))
    (budget d : Nat) (cell : CellId) :
    (execWithin host (extra + budget) cell).Agrees (lens d) (execWithin host budget cell) := by
  induction budget generalizing d cell with
  | zero => exact hlast d cell
  | succ budget ih =>
    exact nested_agrees (lens d) (lens (d + 1)) (hs d) (hc d) (hin d) (hout d)
      (execRun_agrees (hl (d + 1)) (hp (d + 1)) (ih (d + 1)) cell)

/-- Where the relation does not tell depths apart, one lens is the right one at all of them. -/
theorem exec_agrees {lens : Lens σ} (hl : lens.Lockstep) (hs : lens.spares = fun _ => False)
    (hlevels : ∀ {m n}, lens.related m n → n.callDepth = m.callDepth ∧ n.settings = m.settings)
    (hmoved : ∀ (change : Nat → Nat) m n, lens.related m n →
      lens.related { m with callDepth := change m.callDepth }
        { n with callDepth := change n.callDepth })
    (cell : CellId) : (exec host cell).Agrees lens (exec host cell) := by
  have hlast : ∀ (_ : Nat) cell, (execWithin host 0 cell).Agrees lens (execWithin host 0 cell) := by
    intro _ cell m n hr
    simp only [execWithin, bind_apply, get_apply, Outcome.bind_ok, Outcome.after_nil, (hlevels hr).1]
    exact bind_agrees (hl.log _).of_strict (fun _ => done_agrees _) m n hr
  have hwithin := execWithin_agrees host (fun _ => lens) (fun _ => hl)
    (fun _ => hs ▸ host.passes_none) (fun _ => rfl) (fun _ => rfl)
    (fun _ => hmoved (· + 1)) (fun _ => hmoved (· - 1)) 0 hlast
  intro m n hr
  have hbudget : n.callBudget = m.callBudget := by
    rw [callBudget, callBudget, (hlevels hr).1, (hlevels hr).2]
  have hrun := hwithin m.callBudget 0 cell m n hr
  rw [Nat.zero_add] at hrun
  change (execWithin host m.callBudget cell m).Agrees lens (execWithin host n.callBudget cell n)
  rwa [hbudget]

theorem execWithin_steady (settings : Settings) (depth budget : Nat) (cell : CellId) :
    (execWithin host budget cell).Agrees (.steady settings depth) (execWithin host budget cell) := by
  have hall := execWithin_agrees host (.steady settings) (Lens.steady_lockstep settings)
    (fun _ => host.passes_none) (fun _ => rfl) (fun _ => rfl)
    (fun _ _ _ => Lens.steady_forth) (fun _ _ _ => Lens.steady_back)
    0 (fun d cell => agrees_steady fun m hs hd => ⟨hs, hd⟩) budget depth cell
  rwa [Nat.zero_add] at hall

/-- At a steady depth the levels left are a fixed number. -/
theorem execWithin_agrees_exec (settings : Settings) (depth : Nat) (cell : CellId) :
    (execWithin host (settings.maxCallDepth - depth) cell).Agrees (.steady settings depth)
      (exec host cell) := by
  rintro _ m ⟨rfl, rfl, rfl⟩
  exact execWithin_steady host m.settings m.callDepth m.callBudget cell m m ⟨rfl, rfl, rfl⟩

theorem exec_steady (settings : Settings) (depth : Nat) (cell : CellId) :
    (exec host cell).Agrees (.steady settings depth) (exec host cell) := by
  rintro _ m ⟨rfl, rfl, rfl⟩
  exact execWithin_steady host m.settings m.callDepth m.callBudget cell m m ⟨rfl, rfl, rfl⟩

theorem call_steady (settings : Settings) (depth : Nat) (cell : CellId) :
    (call host cell).Agrees (.steady settings depth) (call host cell) :=
  callWith_agrees (Lens.steady_lockstep settings depth)
    (invokeUsing_agrees (Lens.steady_lockstep settings depth) host.passes_none
      (exec_steady host settings depth)) cell

theorem nested_steady {s t : Step σ Unit} (h : s.Agrees (.steady settings (depth + 1)) t) :
    (nested s).Agrees (.steady settings depth) (nested t) :=
  nested_agrees (.steady settings depth) (.steady settings (depth + 1)) rfl rfl
    (fun _ _ => Lens.steady_forth) (fun _ _ => Lens.steady_back) h

/-- Below the limit an execution is one level of nesting around the run of its head. -/
theorem exec_of_lt (h : m.callDepth < m.settings.maxCallDepth) (cell : CellId) :
    exec host cell m = nested (execRun host (exec host) cell) m := by
  have hbudget : m.callBudget = m.settings.maxCallDepth - (m.callDepth + 1) + 1 := by
    unfold callBudget
    omega
  have hrun := nested_steady (execRun_agrees (Lens.steady_lockstep m.settings (m.callDepth + 1))
    host.passes_none (execWithin_agrees_exec host m.settings (m.callDepth + 1)) cell)
  refine Eq.trans ?_ (hrun.eq rfl rfl).1
  change execWithin host m.callBudget cell m = _
  rw [hbudget]
  rfl

/-- At the limit an execution is refused. -/
theorem exec_of_ge (h : m.settings.maxCallDepth ≤ m.callDepth) (cell : CellId) :
    exec host cell m = ⟨.error (.callDepthExceeded m.callDepth), m,
      (log (.callDepthExceeded m.callDepth cell) m).events⟩ := by
  have hbudget : m.callBudget = 0 := Nat.sub_eq_zero_of_le h
  change execWithin host m.callBudget cell m = _
  rw [hbudget]
  simp only [execWithin, bind_apply, get_apply, Outcome.bind_ok, Outcome.after_nil]
  change Outcome.after _ _ = _
  simp [Outcome.after, log]

end Machine

theorem Program.start_steady (host : Host σ) (p : Program σ α) (settings : Settings) (depth : Nat) :
    (p.start host).Agrees (.steady settings depth) (p.start host) :=
  p.run_agrees (Lens.steady_lockstep settings depth) (Machine.exec_steady host settings depth)
    p.passes_none

/-- What can be done with a machine agrees as the executions in it do. -/
theorem Operation.step_agrees {lens : Lens σ} (host : Host σ) (hl : lens.Lockstep)
    (hs : lens.spares = fun _ => False)
    (he : ∀ cell, (Machine.exec host cell).Agrees lens (Machine.exec host cell)) (op : Operation σ) :
    (op.step host).Agrees lens (op.step host) := by
  have hinvoke := Machine.invokeUsing_agrees hl (hs ▸ host.passes_none) he
  cases op with
  | program p => exact p.run_agrees hl he (hs ▸ p.passes_none)
  | call cell => exact Machine.callWith_agrees hl hinvoke cell
  | invoke procedure payload => exact hinvoke procedure payload

/-- Between operations no execution is under way. -/
theorem Run.at_rest {host : Host σ} {past : List (Event σ)} {m : Machine σ} (h : Run host past m) :
    m.callDepth = 0 := by
  induction h with
  | created bytes cells settings verbosity => rfl
  | emptied _ _ => rfl
  | @operated past m _ op ih =>
    have hop := op.step_agrees host (Lens.steady_lockstep m.settings 0) rfl
      (Machine.exec_steady host m.settings 0)
    exact (hop.eq rfl ih).2.2

end ThreadedCode
