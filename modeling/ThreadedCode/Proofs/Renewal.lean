import ThreadedCode.Proofs.Blindness
import ThreadedCode.Proofs.Compiling
import ThreadedCode.Proofs.Stacks
import ThreadedCode.Proofs.Visits

/-!
A fresh start. What a reset leaves in the stack cannot be seen, and nothing else tells an emptied
machine from a new one.
-/
namespace ThreadedCode

variable {σ : Signature} {α β : Type}

namespace Stack

/-- The stack as it can be seen: whatever is left above its depth is blank. -/
def shown (s : Stack) : Stack :=
  ⟨.ofFn fun i => if i.val < s.depth then s.slots[i] else .blank, s.depth⟩

variable {s t : Stack}

theorem shown_eq_iff : s.shown = t.shown ↔
    s.depth = t.depth ∧ ∀ i < s.depth, s.slots[i]? = t.slots[i]? := by
  simp only [shown, mk.injEq]
  refine ⟨fun ⟨hslots, hdepth⟩ => ⟨hdepth, fun i hi => ?_⟩, fun ⟨hdepth, hslots⟩ => ⟨?_, hdepth⟩⟩
  · by_cases hc : i < capacity
    · have hi' := congrArg (fun v : Vector Slot capacity => v[i]?) hslots
      simpa [hc, hi, hdepth ▸ hi] using hi'
    · rw [Vector.getElem?_eq_none (by omega), Vector.getElem?_eq_none (by omega)]
  · apply Vector.ext
    intro i hc
    simp only [Vector.getElem_ofFn, hdepth]
    split
    · rename_i hi
      have hi' := hslots i (hdepth ▸ hi)
      simpa [hc] using hi'
    · rfl

theorem nth?_of_shown (h : s.shown = t.shown) (n : Nat) : s.nth? n = t.nth? n := by
  obtain ⟨hdepth, hslots⟩ := shown_eq_iff.mp h
  simp only [nth?, ← hdepth]
  split
  · exact hslots _ (by omega)
  · rfl

theorem shown_clear (s t : Stack) : s.clear.shown = t.clear.shown :=
  shown_eq_iff.mpr ⟨rfl, fun i hi => absurd hi (Nat.not_lt_zero i)⟩

/-- A push does the same to stacks that look alike. -/
theorem pushSlot_of_shown (h : s.shown = t.shown) (slot : Slot) :
    (s.pushSlot slot = .error .stackOverflow ∧ t.pushSlot slot = .error .stackOverflow) ∨
    ∃ s' t', s.pushSlot slot = .ok s' ∧ t.pushSlot slot = .ok t' ∧ s'.shown = t'.shown := by
  obtain ⟨hdepth, hslots⟩ := shown_eq_iff.mp h
  rw [pushSlot_eq, pushSlot_eq, ← hdepth]
  by_cases hlt : s.depth < capacity
  · rw [if_pos hlt, if_pos hlt]
    refine .inr ⟨_, _, rfl, rfl, shown_eq_iff.mpr ⟨rfl, fun i hi => ?_⟩⟩
    by_cases heq : i = s.depth
    · subst heq
      simp [hlt]
    · have hi' : i < s.depth := by
        change i < s.depth + 1 at hi
        omega
      simp [Vector.getElem?_setIfInBounds_ne (Ne.symm heq), hslots i hi']
  · rw [if_neg hlt, if_neg hlt]
    exact .inl ⟨rfl, rfl⟩

theorem pop_of_shown (h : s.shown = t.shown) :
    (s.pop = .error .stackUnderflow ∧ t.pop = .error .stackUnderflow) ∨
    ∃ slot s' t', s.pop = .ok (slot, s') ∧ t.pop = .ok (slot, t') ∧ s'.shown = t'.shown := by
  have htop : s.top? = t.top? := nth?_of_shown h 0
  obtain ⟨hdepth, hslots⟩ := shown_eq_iff.mp h
  simp only [pop, ← htop]
  cases s.top? with
  | none => exact .inl ⟨rfl, rfl⟩
  | some slot =>
    refine .inr ⟨slot, _, _, rfl, rfl, shown_eq_iff.mpr ⟨by simp [hdepth], fun i hi => ?_⟩⟩
    exact hslots i (Nat.lt_of_lt_of_le hi (Nat.sub_le ..))

theorem congruent_shown : Congruent fun s t => t.shown = s.shown where
  depth h := (shown_eq_iff.mp h).1
  nth h := nth?_of_shown h
  pushSlot h slot := by
    rcases pushSlot_of_shown h.symm slot with ⟨hs, ht⟩ | ⟨s', t', hs, ht, h'⟩
    · exact .inl ⟨_, hs, ht⟩
    · exact .inr ⟨s', t', hs, ht, h'.symm⟩
  pop h := by
    rcases pop_of_shown h.symm with ⟨hs, ht⟩ | ⟨slot, s', t', hs, ht, h'⟩
    · exact .inl ⟨_, hs, ht⟩
    · exact .inr ⟨slot, s', t', hs, ht, h'.symm⟩
  clear _ := shown_clear _ _

end Stack

/-- The machine as it can be seen. -/
def Machine.shown (m : Machine σ) : Machine σ := { m with stack := m.stack.shown }

/-- Compares machines that look the same. -/
def Lens.alike : Lens σ where
  related m n := ∃ t, n = { m with stack := t } ∧ t.shown = m.stack.shown
  counts _ := true
  spares _ := False

theorem Lens.alike_shares :
    (Lens.alike (σ := σ)).strict.SharesStack fun s t => t.shown = s.shown where
  parts := by
    rintro m _ ⟨t, rfl, -⟩
    exact ⟨t, _, _, _, rfl⟩
  changed := by
    rintro m _ ⟨t, rfl, ht⟩ bytes cells dictionary openWords copies
    exact ⟨t, rfl, ht⟩
  log notice := by
    rintro m _ ⟨t, rfl, ht⟩
    exact .inr ⟨rfl, ⟨t, rfl, ht⟩, rfl⟩
  congruent := Stack.congruent_shown
  stack := by
    rintro m _ ⟨t, rfl, ht⟩
    exact ht
  restacked := by
    rintro m _ ⟨t, rfl, -⟩ s s' hs
    exact ⟨s', rfl, hs⟩

/-- Nothing sees what is left above the depth of the stack. -/
theorem Lens.alike_lockstep : (Lens.alike (σ := σ)).Lockstep :=
  Lens.alike_shares.lockstep fun ⟨_, hn, _⟩ => by rw [hn]

namespace Machine

theorem shown_of_alike {m n : Machine σ} (h : Lens.alike.related m n) : n.shown = m.shown := by
  obtain ⟨t, rfl, ht⟩ := h
  simp only [shown, ht]

theorem exec_alike (host : Host σ) (cell : CellId) :
    (exec host cell).Agrees .alike (exec host cell) := by
  refine exec_agrees host Lens.alike_lockstep rfl ?_ ?_ cell
  · rintro m _ ⟨t, rfl, -⟩
    exact ⟨rfl, rfl⟩
  · rintro change m _ ⟨t, rfl, ht⟩
    exact ⟨t, rfl, ht⟩

end Machine

/-- What can be done with a machine at rest. -/
inductive Deed (σ : Signature) where
  | operate (op : Operation σ)
  | reset

def Deed.step (host : Host σ) : Deed σ → Step σ Unit
  | .operate op => op.step host
  | .reset => Machine.reset

/-- What comes of a deed: its answer, all that was asked, answered, printed and logged on the way, and
what can be seen of the machine afterwards. -/
structure Observation (σ : Signature) where
  answer : Except Fault Unit
  events : List (Event σ)
  shown : Machine σ

/-- What comes of deeds, one after another. -/
def observe (host : Host σ) : List (Deed σ) → Machine σ → List (Observation σ)
  | [], _ => []
  | deed :: rest, m =>
    let o := deed.step host m
    ⟨o.answer, o.events, o.machine.shown⟩ :: observe host rest o.machine

theorem Deed.step_alike (host : Host σ) (deed : Deed σ) :
    (deed.step host).Agrees .alike (deed.step host) := by
  cases deed with
  | operate op => exact op.step_agrees host Lens.alike_lockstep rfl (Machine.exec_alike host)
  | reset =>
    rintro m _ ⟨t, rfl, -⟩
    exact .inr ⟨rfl, ⟨t.clear, rfl, Stack.shown_clear _ _⟩, rfl⟩

/-- Machines that look alike go on alike, whatever is done with them. -/
theorem observe_alike (host : Host σ) (deeds : List (Deed σ)) {m n : Machine σ}
    (h : Lens.alike.related m n) : observe host deeds n = observe host deeds m := by
  induction deeds generalizing m n with
  | nil => rfl
  | cons deed rest ih =>
    rcases (deed.step_alike host m n h).same fun _ => rfl with ⟨_, hf, _⟩ | ⟨ha, hr, he⟩
    · exact hf.elim
    · simp only [observe, ha, he, Machine.shown_of_alike hr, ih hr]

/-- Registers copy strategies, one after another. -/
def registerAll : List (Strategy σ) → Program σ Unit
  | [] => .finish (.ok ())
  | strategy :: rest => do
    let _ ← request (.registerStrategy strategy)
    registerAll rest

theorem registerAll_start (host : Host σ) (extra : List (Strategy σ)) {m : Machine σ}
    (hroom : (m.copies.rows ++ extra).length ≤ CopyTable.capacity) :
    ((registerAll extra).start host m).answer = .ok () ∧
    ((registerAll extra).start host m).machine = { m with copies := ⟨m.copies.rows ++ extra⟩ } := by
  induction extra generalizing m with
  | nil =>
    refine ⟨rfl, ?_⟩
    rw [List.append_nil]
    rfl
  | cons strategy rest ih =>
    have hlt : m.copies.rows.length < CopyTable.capacity := by
      simp only [List.length_append, List.length_cons] at hroom
      omega
    have hserve : (serve (.registerStrategy strategy) m).answer = .ok ⟨m.copies.rows.length⟩ ∧
        (serve (.registerStrategy strategy) m).machine =
          { m with copies := ⟨m.copies.rows ++ [strategy]⟩ } := by
      rw [serve_answer, serve_machine]
      rcases Machine.registerStrategy_cases strategy m with ⟨-, ha, hm⟩ | ⟨hfull, -, -⟩
      · exact ⟨ha, hm⟩
      · exact absurd hlt (Nat.not_lt_of_le hfull)
    have hrest := ih (m := { m with copies := ⟨m.copies.rows ++ [strategy]⟩ }) (by simpa using hroom)
    simp only [List.append_assoc, List.singleton_append] at hrest
    rw [registerAll, Program.start_request_bind, Step.bind_of_ok hserve.1, hserve.2]
    exact hrest

namespace Machine

/-- The copy table starts as every one does and has not outgrown its capacity. -/
def Registered (m : Machine σ) : Prop :=
  CopyTable.standard.rows <+: m.copies.rows ∧ m.copies.rows.length ≤ CopyTable.capacity

theorem Registered.move {given : Value → Prop} {m n : Machine σ} {events : List (Event σ)}
    (h : m.Registered) (hm : Move given m events n) : n.Registered := by
  have hsame : ∀ {o : Machine σ}, o.copies = m.copies → o.Registered := by
    intro o ho
    rw [Registered, ho]
    exact h
  cases hm with
  | served r =>
    rw [serve_machine]
    by_cases hp : r.part = .copies
    · cases r with
      | registerStrategy strategy =>
        change (registerStrategy strategy m).machine.Registered
        rcases registerStrategy_cases strategy m with ⟨hlt, -, hm⟩ | ⟨-, -, hm⟩
        · rw [hm]
          refine ⟨h.1.trans (List.prefix_append ..), ?_⟩
          change (m.copies.rows ++ [strategy]).length ≤ CopyTable.capacity
          rw [List.length_append]
          exact hlt
        · rw [hm]
          exact h
      | _ => cases hp
    · exact hsame ((perform_kept r m).copies hp)
  | literal v _ => exact hsame ((pushLiteral_kept v m).copies nofun)
  | noted notice => exact h
  | deeper => exact h
  | back => exact h

/-- A new machine does not show what its buffers held. -/
theorem create_congr {bytes bytes' : Array UInt8} {cells cells' : Array (Cell σ)}
    (hb : bytes.size = bytes'.size) (hc : cells.size = cells'.size) (settings : Settings)
    (verbosity : Option Level) :
    create bytes cells settings verbosity = create bytes' cells' settings verbosity := by
  simp only [create, ByteArena.create, ByteArena.reset, ByteArena.capacity, CellArena.create,
    CellArena.reset, CellArena.capacity, hb, hc]

/-- An emptied machine looks like a new one of its size with its copy table. -/
theorem cleared_alike (m : Machine σ) {bytes : Array UInt8} {cells : Array (Cell σ)}
    (hb : bytes.size = m.bytes.capacity) (hc : cells.size = m.cells.capacity) :
    Lens.alike.related m.cleared
      { create bytes cells m.settings m.verbosity with copies := m.copies } := by
  refine ⟨.empty, ?_, ?_⟩
  · simp only [create, cleared, ByteArena.create, ByteArena.reset, CellArena.create,
      CellArena.reset]
    simp only [ByteArena.capacity, CellArena.capacity] at hb hc ⊢
    rw [hb, hc]
  · exact Stack.shown_eq_iff.mpr ⟨rfl, fun i hi => absurd hi (Nat.not_lt_zero i)⟩

end Machine

theorem Run.registered {host : Host σ} {past : List (Event σ)} {m : Machine σ} (h : Run host past m) :
    m.Registered := by
  refine h.invariant (I := fun _ m => m.Registered) ?_ (fun _ _ hm => hm) ?_
  · intro bytes cells settings verbosity
    exact ⟨List.prefix_refl _, (by decide : 3 ≤ CopyTable.capacity)⟩
  · intro given past m events n hm hmove
    exact hm.move hmove

open Machine in
/-- A machine that has been reset goes on, in whatever is done with it, as a new machine does of its
capacities and settings, made over any buffers, on which the same copy strategies have been
registered. And what the buffers of a new machine held is never seen. -/
theorem Run.renewed {host : Host σ} {past : List (Event σ)} {m : Machine σ} (h : Run host past m) :
    (∃ extra, m.copies.rows = CopyTable.standard.rows ++ extra ∧
      ∀ bytes cells, bytes.size = m.bytes.capacity → cells.size = m.cells.capacity →
        let o := (registerAll extra).start host (create bytes cells m.settings m.verbosity)
        o.answer = .ok () ∧ o.machine.shown = (reset m).machine.shown ∧
        ∀ deeds, observe host deeds (reset m).machine = observe host deeds o.machine) ∧
    ∀ (bytes bytes' : Array UInt8) (cells cells' : Array (Cell σ)) settings verbosity,
      bytes.size = bytes'.size → cells.size = cells'.size →
      (announce (create bytes cells settings verbosity)).events =
        (announce (create bytes' cells' settings verbosity)).events ∧
      ∀ deeds, observe host deeds (create bytes cells settings verbosity) =
        observe host deeds (create bytes' cells' settings verbosity) := by
  refine ⟨?_, fun bytes bytes' cells cells' settings verbosity hb hc => ?_⟩
  · obtain ⟨⟨extra, hextra⟩, hcap⟩ := h.registered
    refine ⟨extra, hextra.symm, fun bytes cells hb hc => ?_⟩
    intro o
    rw [← hextra] at hcap
    obtain ⟨ha, hm⟩ := registerAll_start host extra
      (m := create bytes cells m.settings m.verbosity) hcap
    have hcopies : o.machine = { create bytes cells m.settings m.verbosity with copies := m.copies } := by
      refine hm.trans ?_
      have hrows : (⟨CopyTable.standard.rows ++ extra⟩ : CopyTable σ) = m.copies := by
        rw [hextra]
      simp only [create, hrows]
    have halike : Lens.alike.related (reset m).machine o.machine := by
      rw [hcopies]
      exact cleared_alike m hb hc
    exact ⟨ha, shown_of_alike halike, fun deeds => (observe_alike host deeds halike).symm⟩
  · rw [create_congr hb hc]
    exact ⟨rfl, fun _ => rfl⟩

/-- Words and values are left behind, and a copy strategy is registered. -/
def Stock.leftBehind : Program Stock.signature Unit := do
  let cell ← request .newCell
  request (.beginWord cell)
  request (.pushValue (.cell cell))
  let _ ← request (.registerStrategy (.host Stock.Wiring.quote))

open Machine Stock in
theorem Run.renewed_of_leftBehind :
    let o := leftBehind.start host small
    let fresh := (registerAll [.host Wiring.quote]).start host
      (create #[] (.replicate 4 ⟨.literal, .nil, 9⟩) ⟨4, .strict⟩ none)
    Run host o.events o.machine ∧ o.machine.stack.depth = 1 ∧ o.machine.openWords.depth = 1 ∧
    ∀ deeds, observe host deeds (reset o.machine).machine = observe host deeds fresh.machine := by
  intro o fresh
  have hrun : Run host o.events o.machine :=
    (Run.created #[] (Array.replicate 4 .empty) ⟨4, .strict⟩ none).operated (.program leftBehind)
  obtain ⟨⟨extra, hextra, hrenewed⟩, -⟩ := Run.renewed hrun
  have hrows : o.machine.copies.rows = CopyTable.standard.rows ++ [.host Wiring.quote] := by
    with_unfolding_all rfl
  obtain rfl : extra = [.host Wiring.quote] := List.append_cancel_left (hextra.symm.trans hrows)
  have hsame := hrenewed #[] (.replicate 4 ⟨.literal, .nil, 9⟩) rfl rfl
  exact ⟨hrun, by decide +kernel, by decide +kernel, hsame.2.2⟩

end ThreadedCode
