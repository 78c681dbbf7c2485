import ThreadedCode.Proofs.Depth
import ThreadedCode.Proofs.Sharing

/-!
Requests do not see how deeply executions are nested nor how deeply they may be, and most of them do
not see the stack. With more levels left an execution does the same, as long as it is refused none.
-/
namespace ThreadedCode

variable {σ : Signature} {α β : Type}

/-- A stack, a depth and a limit on nesting to be seen in the place of a machine's own. -/
structure Veil where
  stack : Stack → Stack
  depth : Nat → Nat
  limit : Nat → Nat

def Veil.onNesting (depth limit : Nat → Nat) : Veil := ⟨id, depth, limit⟩

/-- The machine under a veil. -/
def Machine.veiled (m : Machine σ) (v : Veil) : Machine σ :=
  { m with
    stack := v.stack m.stack
    callDepth := v.depth m.callDepth
    settings := { m.settings with maxCallDepth := v.limit m.settings.maxCallDepth } }

namespace Outcome

variable {v : Veil}

/-- The outcome with its machine under a veil. -/
def veiled (o : Outcome σ α) (v : Veil) : Outcome σ α := { o with machine := o.machine.veiled v }

end Outcome

/-- The step does the same under the veil. -/
def Step.Veiled (v : Veil) (s : Step σ α) : Prop := ∀ m, s (m.veiled v) = (s m).veiled v

/-- Compares a machine with itself under a veil. -/
def Lens.under (v : Veil) : Lens σ where
  related m n := n = m.veiled v
  counts _ := true
  spares _ := False

theorem Lens.under_shares (v : Veil) : (Lens.under (σ := σ) v).Shares where
  parts hr := ⟨_, _, _, _, hr⟩
  changed := by
    rintro m _ rfl bytes cells dictionary openWords copies
    rfl
  log notice := by
    rintro m _ rfl
    exact .inr ⟨rfl, rfl, rfl⟩

theorem Step.Veiled.of_agrees {v : Veil} {s : Step σ α} (h : s.Agrees (.under v) s) : s.Veiled v := by
  intro m
  rcases (h m _ rfl).same fun _ => rfl with ⟨_, hf, _⟩ | ⟨ha, hm, he⟩
  · exact hf.elim
  · exact Outcome.ext ha.symm hm he.symm

/-- A request that is none on the stack does the same whatever lies there. -/
theorem perform_veiled {r : Request σ} (hp : r.part ≠ .stack) (hnth : ∀ n, r ≠ .nth n) (v : Veil) :
    (perform r).Veiled v :=
  .of_agrees (perform_agrees_of_part (Lens.under_shares v) hp hnth fun _ _ _ hr => by rw [hr]; rfl)

/-- No request sees how deeply executions are nested, nor the limit. -/
theorem perform_onNesting (r : Request σ) (depth limit : Nat → Nat) :
    (perform r).Veiled (.onNesting depth limit) := by
  have hshares : (Lens.under (σ := σ) (.onNesting depth limit)).SharesStack Eq :=
    { Lens.under_shares _ with
      congruent := Stack.congruent_eq
      stack := by
        rintro m _ rfl
        rfl
      restacked := by
        rintro m _ rfl s _ rfl
        rfl }
  exact .of_agrees (perform_agrees hshares fun _ _ _ hr => by rw [hr]; rfl)

/-- The refusal of an execution at the limit on nesting. -/
def Fault.IsRefusal (fault : Fault) : Prop := ∃ depth, fault = .callDepthExceeded depth

/-- Compares a machine with the same machine some levels deeper and under another limit. Where the
second one is refused an execution, the comparison ends. -/
def Lens.tighter (settings : Settings) (limit levels depth : Nat) : Lens σ where
  related m n := n = m.veiled (.onNesting (· + levels) fun _ => limit) ∧ m.settings = settings ∧
    m.callDepth = depth
  counts _ := true
  spares := Fault.IsRefusal

/-- Compares a machine at one depth with the same machine some levels deeper, but for the records of
the log. Where the deeper one is refused an execution, the comparison ends. -/
def Lens.raised (settings : Settings) (levels depth : Nat) : Lens σ where
  related m n := n = { m with callDepth := m.callDepth + levels } ∧ m.settings = settings ∧
    m.callDepth = depth
  counts event := event.notice?.isNone
  spares := Fault.IsRefusal

variable {settings : Settings} {limit levels depth : Nat}

theorem Lens.tighter_shares (settings : Settings) (limit levels depth : Nat) :
    (Lens.tighter (σ := σ) settings limit levels depth).strict.SharesStack Eq where
  parts hr := ⟨_, _, _, _, hr.1⟩
  changed := by
    rintro m _ ⟨rfl, hs, hd⟩ bytes cells dictionary openWords copies
    exact ⟨rfl, hs, hd⟩
  log notice := by
    rintro m _ ⟨rfl, hs, hd⟩
    exact .inr ⟨rfl, ⟨rfl, hs, hd⟩, rfl⟩
  congruent := Stack.congruent_eq
  stack := by
    rintro m _ ⟨rfl, -, -⟩
    rfl
  restacked := by
    rintro m _ ⟨rfl, hs, hd⟩ s _ rfl
    exact ⟨rfl, hs, hd⟩

theorem Lens.tighter_lockstep (settings : Settings) (limit levels depth : Nat) :
    (Lens.tighter (σ := σ) settings limit levels depth).Lockstep :=
  (Lens.tighter_shares settings limit levels depth).lockstep fun hr => by rw [hr.1]; rfl

theorem Lens.tighter_forth {m n : Machine σ}
    (h : (Lens.tighter settings limit levels depth).related m n) :
    (Lens.tighter settings limit levels (depth + 1)).related { m with callDepth := m.callDepth + 1 }
      { n with callDepth := n.callDepth + 1 } := by
  obtain ⟨rfl, hs, hd⟩ := h
  refine ⟨?_, hs, congrArg (· + 1) hd⟩
  simp only [Machine.veiled, Veil.onNesting, Nat.add_right_comm]

theorem Lens.tighter_back {m n : Machine σ}
    (h : (Lens.tighter settings limit levels (depth + 1)).related m n) :
    (Lens.tighter settings limit levels depth).related { m with callDepth := m.callDepth - 1 }
      { n with callDepth := n.callDepth - 1 } := by
  obtain ⟨rfl, hs, hd⟩ := h
  have hlevels : m.callDepth + levels - 1 = m.callDepth - 1 + levels := by omega
  refine ⟨?_, hs, ?_⟩
  · simp only [Machine.veiled, Veil.onNesting, hlevels]
  · simp only [hd, Nat.add_sub_cancel]

theorem Lens.raised_zero {m n : Machine σ} (h : (Lens.raised settings 0 depth).related m n) : n = m :=
  h.1

theorem Lens.raised_back {m n : Machine σ}
    (h : (Lens.raised settings levels (depth + 1)).related m n) :
    (Lens.raised settings levels depth).related { m with callDepth := m.callDepth - 1 }
      { n with callDepth := n.callDepth - 1 } := by
  obtain ⟨rfl, hs, hd⟩ := h
  refine ⟨?_, hs, ?_⟩
  · have hlevels : m.callDepth + levels - 1 = m.callDepth - 1 + levels := by omega
    simp only [hlevels]
  · simp only [hd, Nat.add_sub_cancel]

/-- Under one limit, and without the records of the log. -/
theorem Step.Agrees.raised {s t : Step σ α}
    (h : s.Agrees (.tighter settings settings.maxCallDepth levels depth) t) :
    s.Agrees (.raised settings levels depth) t := by
  rintro m _ ⟨rfl, rfl, rfl⟩
  rcases (h m _ ⟨rfl, rfl, rfl⟩).same fun _ => rfl with hspared | ⟨ha, ⟨hm, hs, hd⟩, he⟩
  · exact .inl hspared
  · refine .inr ⟨ha, ⟨hm.trans ?_, hs, hd⟩, congrArg _ he⟩
    rw [← hs]
    rfl

namespace Machine

variable {host : Host σ}

/-- With at least as many levels left an execution does the same, unless the other one is refused. -/
theorem exec_tighter (hp : host.Passes Fault.IsRefusal)
    (hlevels : limit - (depth + levels) ≤ settings.maxCallDepth - depth) (cell : CellId) :
    (exec host cell).Agrees (.tighter settings limit levels depth) (exec host cell) := by
  rintro m _ ⟨rfl, rfl, rfl⟩
  obtain ⟨extra, hextra⟩ := Nat.exists_eq_add_of_le' hlevels
  have hall := execWithin_agrees host (.tighter m.settings limit levels)
    (Lens.tighter_lockstep m.settings limit levels) (fun _ => hp) (fun _ => rfl) (fun _ => rfl)
    (fun _ _ _ => Lens.tighter_forth) (fun _ _ _ => Lens.tighter_back) extra
    (fun _ _ _ _ _ => .inl ⟨_, ⟨_, rfl⟩, rfl⟩) (limit - (m.callDepth + levels)) m.callDepth cell
  rw [← hextra] at hall
  exact hall m _ ⟨rfl, rfl, rfl⟩

/-- One level deeper an invocation does the same, unless it comes to the limit. -/
theorem invokeUsing_raised (hp : host.Passes Fault.IsRefusal) (procedure : Procedure σ) (v : Value) :
    (invokeUsing host (exec host) procedure v).Agrees (.raised settings 1 depth)
      (invokeUsing host (exec host) procedure v) :=
  (invokeUsing_agrees (Lens.tighter_lockstep settings settings.maxCallDepth 1 depth) hp
    (exec_tighter hp (by omega)) procedure v).raised

end Machine
end ThreadedCode
