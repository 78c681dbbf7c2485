import ThreadedCode.Machine.Operands
import ThreadedCode.Proofs.Steps

/-!
The value stack as a list of slots, and the steps on it.
-/
namespace ThreadedCode

namespace Stack

variable {s s' : Stack} {slot : Slot}

theorem pushSlot_eq (s : Stack) (slot : Slot) : s.pushSlot slot = if s.depth < capacity then
    .ok ⟨s.slots.setIfInBounds s.depth slot, s.depth + 1⟩ else .error .stackOverflow := by
  unfold pushSlot push
  split
  · simp [setTop, bind, Except.bind, Vector.setIfInBounds_setIfInBounds]
    rfl
  · rfl

/-- A push appends the slot to those in use. -/
theorem active_pushSlot (h : s.pushSlot slot = .ok s') : s'.active = s.active ++ [slot] := by
  rw [pushSlot_eq] at h
  split at h
  · rename_i hlt
    cases h
    have hlen : s.depth < s.slots.toList.length := by simpa using hlt
    simp only [active, Vector.toList_setIfInBounds]
    rw [List.take_add_one, List.take_set_of_le (Nat.le_refl _)]
    simp [hlt]
  · cases h

/-- A pop takes the last one of the slots in use. -/
theorem active_pop (h : s.pop = .ok (slot, s')) : s.active = s'.active ++ [slot] := by
  unfold pop top? nth? at h
  split at h
  · rename_i top htop
    cases h
    split at htop
    · rename_i hlt
      obtain ⟨d, hd⟩ : ∃ d, s.depth = d + 1 := ⟨s.depth - 1, by omega⟩
      simp only [active, hd] at htop ⊢
      rw [Nat.add_sub_cancel, List.take_add_one]
      simp only [Nat.add_sub_cancel, Nat.sub_zero] at htop
      rw [Vector.getElem?_toList, htop]
      rfl
    · cases htop
  · cases h

theorem nth?_mem {n : Nat} (h : s.nth? n = some slot) : slot ∈ s.active := by
  unfold nth? at h
  split at h
  · rename_i hlt
    refine List.mem_iff_getElem?.mpr ⟨s.depth - 1 - n, ?_⟩
    rw [active, List.getElem?_take_of_lt (by omega)]
    simpa using h
  · cases h

end Stack

namespace Machine

open Step

variable {σ : Signature}

theorem push_cases (slot : Slot) (m : Machine σ) :
    (∃ fault, (push slot m).answer = .error fault ∧ (push slot m).machine = m) ∨
    ∃ s, (push slot m).answer = .ok () ∧ (push slot m).machine = { m with stack := s } ∧
      s.active = m.stack.active ++ [slot] := by
  simp only [push, bind_apply, get_apply, Outcome.bind_ok, Outcome.after_nil]
  by_cases hlt : m.stack.depth < Stack.capacity
  · obtain ⟨s, hs⟩ : ∃ s, m.stack.pushSlot slot = .ok s := ⟨_, by rw [Stack.pushSlot_eq, if_pos hlt]⟩
    refine .inr ⟨s, ?_⟩
    rw [if_pos hlt, hs]
    exact ⟨rfl, rfl, Stack.active_pushSlot hs⟩
  · refine .inl ⟨.stackOverflow, ?_⟩
    rw [if_neg hlt, Stack.pushSlot_eq, if_neg hlt]
    exact ⟨rfl, rfl⟩

theorem pop_cases (m : Machine σ) :
    (∃ fault, (pop m).answer = .error fault ∧ (pop m).machine = m) ∨
    ∃ slot s, (pop m).answer = .ok slot ∧ (pop m).machine = { m with stack := s } ∧
      m.stack.active = s.active ++ [slot] := by
  simp only [pop, bind_apply, get_apply, Outcome.bind_ok, Outcome.after_nil]
  cases hp : m.stack.pop with
  | error fault =>
    refine .inl ⟨fault, ?_⟩
    split
    · exact ⟨rfl, rfl⟩
    · exact ⟨rfl, rfl⟩
  | ok popped =>
    obtain ⟨slot, s⟩ := popped
    refine .inr ⟨slot, s, ?_⟩
    split
    · exact ⟨rfl, rfl, Stack.active_pop hp⟩
    · exact ⟨rfl, rfl, Stack.active_pop hp⟩

/-- Reading the float of a slot changes nothing. -/
theorem floatOf_machine (slot : Slot) (m : Machine σ) : (floatOf slot m).machine = m := by
  simp only [floatOf]
  cases slot.value <;> rfl

theorem popFloat_machine (m : Machine σ) : (popFloat m).machine = m ∨
    ∃ slot s, (popFloat m).machine = { m with stack := s } ∧
      m.stack.active = s.active ++ [slot] := by
  simp only [popFloat, bind_apply, get_apply, Outcome.bind_ok, Outcome.after_nil]
  cases m.stack.top? with
  | none => exact .inl rfl
  | some top =>
    simp only
    split
    · cases ha : (floatOf top m).answer with
      | error fault =>
        rw [bind_of_error ha]
        exact .inl (floatOf_machine top m)
      | ok x =>
        rw [bind_of_ok ha, floatOf_machine]
        rcases pop_cases m with ⟨fault, hp, hm⟩ | ⟨slot, s, hp, hm, hs⟩
        · rw [bind_of_error hp]
          exact .inl hm
        · rw [bind_of_ok hp]
          exact .inr ⟨slot, s, hm, hs⟩
    · exact .inl rfl

/-- A literal pushes its value or nothing. -/
theorem pushLiteral_machine (v : Value) (m : Machine σ) : (pushLiteral v m).machine = m ∨
    ∃ slot s, slot.value = v ∧ (pushLiteral v m).machine = { m with stack := s } ∧
      s.active = m.stack.active ++ [slot] := by
  have hpush : ∀ top : Slot, top.value = v → (push top m).machine = m ∨
      ∃ slot s, slot.value = v ∧ (push top m).machine = { m with stack := s } ∧
        s.active = m.stack.active ++ [slot] := by
    intro top hv
    rcases push_cases top m with ⟨_, -, hm⟩ | ⟨s, -, hm, hs⟩
    · exact .inl hm
    · exact .inr ⟨top, s, hv, hm, hs⟩
  unfold pushLiteral
  split
  · rename_i a
    cases ha : (readFloat (.float a) m).answer with
    | error fault =>
      rw [bind_of_error ha]
      exact .inl rfl
    | ok x =>
      have hread : (readFloat (.float a) m).machine = m := rfl
      rw [bind_of_ok ha, Outcome.after_machine, hread]
      exact hpush ⟨(Value.float a).kind, .float a, x⟩ rfl
  · rw [pure_bind]
    exact hpush ⟨v.kind, v, .zero⟩ rfl

end Machine
end ThreadedCode
