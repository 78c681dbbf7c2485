import ThreadedCode.Step

/-!
A machine that several callers take turns on. Each access has the whole machine to itself.
-/
namespace ThreadedCode

structure Shared (σ : Signature) where
  machine : Machine σ
  /-- The number of handles to the machine. -/
  handles : Nat

namespace Shared

variable {σ : Signature} {α : Type}

/-- The first handle. -/
def new (m : Machine σ) : Shared σ := ⟨m, 1⟩

/-- One handle more. -/
def clone (s : Shared σ) : Shared σ := { s with handles := s.handles + 1 }

/-- One access, through any of the handles. -/
def access (s : Shared σ) (step : Step σ α) : Outcome σ α := step s.machine

/-- The machine after an access. -/
def after (s : Shared σ) (o : Outcome σ α) : Shared σ := { s with machine := o.machine }

/-- Gives up one handle. The last one gives the machine back. -/
def release (s : Shared σ) : Machine σ ⊕ Shared σ :=
  if s.handles ≤ 1 then .inl s.machine else .inr { s with handles := s.handles - 1 }

end Shared
end ThreadedCode
