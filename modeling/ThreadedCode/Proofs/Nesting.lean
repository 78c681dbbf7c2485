import ThreadedCode.Proofs.Layout

/-!
When runs are well nested. A word may be opened on the last cell of a word that has just been closed.
The next cell then lengthens the inner run and not the outer one, and the two cross. They never do
otherwise.
-/
namespace ThreadedCode

variable {σ : Signature} {given : Value → Prop}

/-- Whether the event hands out a cell. -/
def Event.handsOut : Event σ → Bool
  | .served .newCell (.ok _) => true
  | _ => false

namespace Layout

/-- Any two runs are disjoint, or the one that starts later lies inside the other. -/
def WellNested (l : Layout) : Prop :=
  ∀ i j, i < j → j < l.used → i + l.extent i ≤ j ∨ j + l.extent j ≤ i + l.extent i

/-- An open word starts inside the run of a closed one. -/
def Exposed (l : Layout) : Prop :=
  ∃ head ∈ l.heads, ∃ i < head.index, ⟨i⟩ ∉ l.heads ∧ head.index < i + l.extent i

instance (l : Layout) : Decidable l.Exposed :=
  inferInstanceAs (Decidable (∃ head ∈ l.heads, ∃ i < head.index, _))

/-- No cell is handed out while an open word starts inside the run of a closed one. -/
def Tidy (l : Layout) : List (Event σ) → Prop
  | [] => True
  | event :: rest => (event.handsOut → ¬ l.Exposed) ∧ (l.step event).Tidy rest

instance decidableTidy : (l : Layout) → (events : List (Event σ)) → Decidable (l.Tidy events)
  | _, [] => isTrue trivial
  | l, event :: rest =>
    have := decidableTidy (l.step event) rest
    inferInstanceAs (Decidable ((event.handsOut → ¬ l.Exposed) ∧ (l.step event).Tidy rest))

variable {l : Layout}

theorem tidy_append (l : Layout) (first rest : List (Event σ)) :
    l.Tidy (first ++ rest) ↔ l.Tidy first ∧ (l.follow first).Tidy rest := by
  induction first generalizing l with
  | nil => simp [Tidy]
  | cons event first ih =>
    simp only [List.cons_append, Tidy, ih, and_assoc]
    rfl

theorem tidy_logged (l : Layout) (notices : List Notice) :
    l.Tidy (notices.map (Event.logged (σ := σ))) := by
  induction notices with
  | nil => trivial
  | cons notice rest ih => exact ⟨nofun, ih⟩

/-- Only the last event of a request can hand out a cell. -/
theorem tidy_served (l : Layout) (notices : List Notice) (r : Request σ)
    (answer : Except Fault r.Answer) :
    l.Tidy (notices.map .logged ++ [.served r answer]) ↔
      ((Event.served r answer).handsOut → ¬ l.Exposed) := by
  rw [tidy_append, follow_logged]
  simp [tidy_logged, Tidy]

/-- Runs that do not cross with the new cell did not before. -/
theorem Sound.wellNested_of_grow (h : l.Sound) (hw : l.grow.WellNested) : l.WellNested := by
  intro i j hij hj
  have hinside := h.inside j hj
  by_cases hi : ⟨i⟩ ∈ l.heads
  · have hend : i + l.extent i = l.used := h.ends _ hi
    omega
  · have hrun := hw i j hij (Nat.lt_succ_of_lt hj)
    rw [grow_of_closed hi] at hrun
    have hlonger : l.extent j ≤ l.grow.extent j := Nat.le_add_right ..
    omega

/-- An open word inside a closed one would cross it with the new cell. -/
theorem Sound.not_exposed_of_grow (h : l.Sound) (hw : l.grow.WellNested) : ¬ l.Exposed := by
  rintro ⟨⟨j⟩, hj, i, hij, hi, hreach⟩
  have hlt : j < l.used := h.allocated _ hj
  have hrun := hw i j hij (Nat.lt_succ_of_lt hlt)
  rw [grow_of_closed hi, h.grow_of_open hj] at hrun
  have hij' : i < j := hij
  have hreach' : j < i + l.extent i := hreach
  have hinside := h.inside i (by omega)
  omega

theorem Sound.grow_wellNested (h : l.Sound) (hw : l.WellNested) (hx : ¬ l.Exposed) :
    l.grow.WellNested := by
  intro i j hij hj
  have hend : j + l.grow.extent j ≤ l.used + 1 := h.grow.inside j hj
  by_cases hi : ⟨i⟩ ∈ l.heads
  · rw [h.grow_of_open hi]
    exact .inr hend
  · rw [grow_of_closed hi]
    have hlt : j < l.used + 1 := hj
    have hinside := h.inside i (by omega)
    by_cases hlast : j = l.used
    · omega
    · have hrun := hw i j hij (by omega)
      by_cases hopen : ⟨j⟩ ∈ l.heads
      · have hout : ¬ j < i + l.extent i := fun hreach => hx ⟨⟨j⟩, hopen, i, hij, hi, hreach⟩
        omega
      · rw [grow_of_closed hopen]
        exact hrun

/-- The new cell makes two runs cross exactly when it lengthens a word inside a closed one. -/
theorem Sound.wellNested_grow (h : l.Sound) : l.grow.WellNested ↔ l.WellNested ∧ ¬ l.Exposed :=
  ⟨fun hw => ⟨h.wellNested_of_grow hw, h.not_exposed_of_grow hw⟩,
    fun ⟨hw, hx⟩ => h.grow_wellNested hw hx⟩

/-- Words open, on the last cell only, and close. -/
inductive Shift (l : Layout) : Layout → Prop
  | same : Shift l l
  | opened (head : CellId) (hlast : head.index + 1 = l.used) :
    Shift l { l with heads := head :: l.heads }
  | closed : Shift l { l with heads := l.heads.tail }

theorem Shift.cells {l' : Layout} (h : l.Shift l') : l'.used = l.used ∧ l'.extent = l.extent := by
  cases h <;> exact ⟨rfl, rfl⟩

/-- The cell at `i` cannot be lengthened any more: it is not open and others follow it. -/
structure Finished (l : Layout) (i : Nat) : Prop where
  closed : ⟨i⟩ ∉ l.heads
  followed : i + 1 < l.used

namespace Finished

variable {i : Nat}

theorem of_run (h : l.Sound) (hi : i < l.used) (hc : ⟨i⟩ ∉ l.heads) (he : 2 ≤ l.extent i) :
    l.Finished i :=
  ⟨hc, by have := h.inside i hi; omega⟩

theorem grow (h : l.Finished i) : l.grow.Finished i ∧ l.grow.extent i = l.extent i :=
  ⟨⟨h.closed, Nat.lt_succ_of_lt h.followed⟩, by simp [Layout.grow, Sound.count_closed h.closed]⟩

theorem shift (h : l.Finished i) {l' : Layout} (hs : l.Shift l') : l'.Finished i := by
  cases hs with
  | same => exact h
  | opened head hlast =>
    refine ⟨fun hm => ?_, h.followed⟩
    rcases List.mem_cons.mp hm with he | hm
    · have := h.followed
      subst he
      simp at hlast
      omega
    · exact h.closed hm
  | closed => exact ⟨fun hm => h.closed (List.mem_of_mem_tail hm), h.followed⟩

end Finished

/-- The run of `i` lies there, cell by cell, as it did in `old`, and it is not lengthened any more. -/
structure Kept (old l : Layout) (i : Nat) : Prop where
  finished : l.Finished i
  cells : ∀ j, i ≤ j → j < i + old.extent i → l.extent j = old.extent j

namespace Kept

variable {old : Layout} {i : Nat}

theorem refl (h : l.Finished i) : l.Kept l i := ⟨h, fun _ _ _ => rfl⟩

theorem extent (h : old.Kept l i) (ho : 1 ≤ old.extent i) : l.extent i = old.extent i :=
  h.cells i (Nat.le_refl i) (by omega)

theorem shift (h : old.Kept l i) {l' : Layout} (hs : l.Shift l') : old.Kept l' i :=
  ⟨h.finished.shift hs, fun j hi hj => by rw [hs.cells.2]; exact h.cells j hi hj⟩

/-- A cell of the run can only grow while it is open inside the closed word at `i`. -/
theorem grow (h : old.Kept l i) (hx : ¬ l.Exposed) : old.Kept l.grow i := by
  refine ⟨h.finished.grow.1, ?_⟩
  intro j hi hj
  have hsame := h.cells j hi hj
  have hself := h.extent (by omega)
  by_cases ho : ⟨j⟩ ∈ l.heads
  · refine absurd ⟨⟨j⟩, ho, i, ?_, h.finished.closed, ?_⟩ hx
    · have hne : i ≠ j := by
        rintro rfl
        exact h.finished.closed ho
      change i < j
      omega
    · change j < i + l.extent i
      omega
  · simp [Layout.grow, Sound.count_closed ho, hsame]

end Kept
end Layout

namespace Machine.Built

open Layout

variable {m n : Machine σ} {events : List (Event σ)}

/-- A move hands out one cell or none. -/
theorem move_cases (hb : m.Built) (h : Move given m events n) :
    (n.layout = m.layout.grow ∧ (m.layout.Tidy events ↔ ¬ m.layout.Exposed)) ∨
    (m.layout.Shift n.layout ∧ m.layout.Tidy events) := by
  have hquiet : ∀ notices : List Notice, n.layout = m.layout →
      events = notices.map .logged → m.layout.Shift n.layout ∧ m.layout.Tidy events := by
    intro notices hl he
    rw [hl, he]
    exact ⟨.same, tidy_logged _ _⟩
  have hlayout := (hb.move h).2
  cases h with
  | literal v hv =>
    obtain ⟨notices, he⟩ := (pushLiteral_within (m := m) v).records
    refine .inr (hquiet notices ?_ he)
    rw [hlayout, he, follow_logged]
  | noted notice =>
    obtain ⟨notices, he⟩ := Step.log_events notice m
    exact .inr (hquiet notices rfl he)
  | deeper => exact .inr (hquiet [] rfl rfl)
  | back => exact .inr (hquiet [] rfl rfl)
  | served r =>
    obtain ⟨notices, he⟩ := serve_events r m
    rw [he, follow_served] at hlayout
    rw [hlayout, he, tidy_served]
    cases hp : (ThreadedCode.perform r m).answer with
    | error fault =>
      rw [step_error]
      refine .inr ⟨.same, fun hout => ?_⟩
      cases r <;> cases hout
    | ok a =>
      cases r with
      | newCell => exact .inl ⟨rfl, by simp [Event.handsOut]⟩
      | beginWord head =>
        refine .inr ⟨?_, fun hout => by cases hout⟩
        rcases beginWord_cases head m with ⟨fault, ha, -⟩ | ⟨-, hlast, -⟩
        · exact absurd (hp.symm.trans ha) (by simp)
        · refine .opened head ?_
          unfold CellArena.last? at hlast
          split at hlast
          · cases hlast
            simp [layout]
            omega
          · cases hlast
      | endWord => exact .inr ⟨.closed, fun hout => by cases hout⟩
      | _ => exact .inr ⟨.same, fun hout => by cases hout⟩

theorem moves_wellNested (hb : m.Built) (h : Moves given m events n) :
    n.layout.WellNested ↔ m.layout.WellNested ∧ m.layout.Tidy events := by
  induction h with
  | refl m => simp [Tidy]
  | step hm _ ih =>
    obtain ⟨hb', hl⟩ := hb.move hm
    rw [ih hb', tidy_append, ← hl]
    rcases hb.move_cases hm with ⟨hg, ht⟩ | ⟨hs, ht⟩
    · rw [hg, hb.sound.wellNested_grow, ht, and_assoc]
    · simp only [WellNested, hs.cells, ht, true_and]

theorem moves_kept {old : Layout} {i : Nat} (hb : m.Built) (h : Moves given m events n)
    (hk : old.Kept m.layout i) (ht : m.layout.Tidy events) : old.Kept n.layout i := by
  induction h with
  | refl m => exact hk
  | step hm _ ih =>
    obtain ⟨hb', hl⟩ := hb.move hm
    obtain ⟨hfirst, hrest⟩ := (tidy_append ..).mp ht
    refine ih hb' ?_ (hl ▸ hrest)
    rcases hb.move_cases hm with ⟨hg, hx⟩ | ⟨hs, -⟩
    · rw [hg]
      exact hk.grow (hx.mp hfirst)
    · exact hk.shift hs

/-- What is finished stays so. -/
theorem moves_finished (hb : m.Built) (h : Moves given m events n) {i : Nat}
    (hf : m.layout.Finished i) : n.layout.Finished i := by
  induction h with
  | refl m => exact hf
  | step hm _ ih =>
    refine ih (hb.move hm).1 ?_
    rcases hb.move_cases hm with ⟨hg, -⟩ | ⟨hs, -⟩
    · rw [hg]
      exact hf.grow.1
    · exact hf.shift hs

theorem moves_used (hb : m.Built) (h : Moves given m events n) : m.layout.used ≤ n.layout.used := by
  induction h with
  | refl m => exact Nat.le_refl _
  | step hm _ ih =>
    refine Nat.le_trans ?_ (ih (hb.move hm).1)
    rcases hb.move_cases hm with ⟨hg, -⟩ | ⟨hs, -⟩
    · rw [hg]
      exact Nat.le_succ _
    · exact Nat.le_of_eq hs.cells.1.symm

end Machine.Built
end ThreadedCode
