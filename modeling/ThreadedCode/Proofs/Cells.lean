import ThreadedCode.Proofs.Footprints
import ThreadedCode.Proofs.Moves

/-!
Requests on cells. Rewiring a cell leaves its extent alone, and only a new cell makes extents grow.
-/
namespace ThreadedCode

variable {σ : Signature}

namespace CellArena

theorem get_eq_ok {a : CellArena σ} {id : CellId} {c : Cell σ} :
    a.get id = .ok c ↔ id.index < a.used ∧ a.cells[id.index]? = some c := by
  unfold get
  split
  · rename_i h
    cases hc : a.cells[id.index]? <;> simp [h]
  · rename_i h
    simp [h]

theorem get_of_lt {a : CellArena σ} {id : CellId} (hused : a.used ≤ a.capacity)
    (hlt : id.index < a.used) : ∃ c, a.get id = .ok c := by
  have hsize : id.index < a.cells.size := Nat.lt_of_lt_of_le hlt hused
  exact ⟨a.cells[id.index], get_eq_ok.mpr ⟨hlt, by simp [hsize]⟩⟩

/-- The arena with another cell at `id`. -/
def put (a : CellArena σ) (id : CellId) (c : Cell σ) : CellArena σ :=
  { a with cells := a.cells.setIfInBounds id.index c }

@[simp] theorem put_used (a : CellArena σ) (id : CellId) (c : Cell σ) :
    (a.put id c).used = a.used := rfl

@[simp] theorem put_capacity (a : CellArena σ) (id : CellId) (c : Cell σ) :
    (a.put id c).capacity = a.capacity := by
  simp [put, capacity]

theorem put_lookup_ne (a : CellArena σ) {id : CellId} (c : Cell σ) {i : Nat} (h : i ≠ id.index) :
    (a.put id c).cells[i]? = a.cells[i]? := by
  simp only [put]
  rw [Array.getElem?_setIfInBounds_ne (Ne.symm h)]

theorem put_lookup_self {a : CellArena σ} {id : CellId} {c : Cell σ} (d : Cell σ)
    (h : a.cells[id.index]? = some c) : (a.put id d).cells[id.index]? = some d := by
  obtain ⟨hlt, -⟩ := Array.getElem?_eq_some_iff.mp h
  simp [put, Array.getElem?_setIfInBounds_self_of_lt hlt]

theorem modify_of_get {a : CellArena σ} {id : CellId} {c : Cell σ} (h : a.get id = .ok c)
    (change : Cell σ → Cell σ) : a.modify id change = .ok (a.put id (change c)) := by
  simp only [modify, h]
  rfl

theorem modify_of_error {a : CellArena σ} {id : CellId} {fault : Fault} (h : a.get id = .error fault)
    (change : Cell σ → Cell σ) : a.modify id change = .error fault := by
  simp only [modify, h]
  rfl

/-- The extent of the cell at a place; a place without a cell counts as a leaf. -/
def extentAt (a : CellArena σ) (i : Nat) : Nat :=
  match a.cells[i]? with
  | some c => c.extent
  | none => 1

theorem extentAt_of_get {a : CellArena σ} {id : CellId} {c : Cell σ} (h : a.get id = .ok c) :
    a.extentAt id.index = c.extent := by
  simp [extentAt, (get_eq_ok.mp h).2]

/-- The arena after the cells that `ok` payloads have been put into, one after another. Extents and
the cells not handed out yet stay. -/
structure Rewired (ok : Value → Prop) (a b : CellArena σ) : Prop where
  used : b.used = a.used
  capacity : b.capacity = a.capacity
  cells : ∀ i, b.cells[i]? = a.cells[i]? ∨
    ∃ c p v, i < a.used ∧ a.cells[i]? = some c ∧ b.cells[i]? = some ⟨p, v, c.extent⟩ ∧ ok v

namespace Rewired

variable {ok : Value → Prop} {a b c : CellArena σ}

theorem refl (a : CellArena σ) : Rewired ok a a := ⟨rfl, rfl, fun _ => .inl rfl⟩

theorem trans (h : Rewired ok a b) (h' : Rewired ok b c) : Rewired ok a c := by
  refine ⟨h'.used.trans h.used, h'.capacity.trans h.capacity, ?_⟩
  intro i
  rcases h'.cells i with he | ⟨d, p, v, hlt, hd, he, hv⟩
  · rw [he]
    exact h.cells i
  · rcases h.cells i with hb | ⟨d', p', v', _, ha, hb, _⟩
    · exact .inr ⟨d, p, v, h.used ▸ hlt, hb ▸ hd, he, hv⟩
    · rw [hb] at hd
      cases hd
      exact .inr ⟨d', p, v, h.used ▸ hlt, ha, he, hv⟩

theorem extentAt (h : Rewired ok a b) (i : Nat) : b.extentAt i = a.extentAt i := by
  unfold CellArena.extentAt
  rcases h.cells i with he | ⟨c, p, v, _, ha, hb, _⟩
  · rw [he]
  · simp [ha, hb]

theorem put {id : CellId} {d : Cell σ} (hd : a.get id = .ok d) (p : Procedure σ) {v : Value}
    (hv : ok v) : Rewired ok a (a.put id ⟨p, v, d.extent⟩) := by
  obtain ⟨hlt, hget⟩ := get_eq_ok.mp hd
  refine ⟨rfl, put_capacity .., ?_⟩
  intro i
  by_cases h : i = id.index
  · subst h
    exact .inr ⟨d, p, v, hlt, hget, put_lookup_self _ hget, hv⟩
  · exact .inl (put_lookup_ne a _ h)

end Rewired
end CellArena

namespace Machine

open Step

variable {m : Machine σ} {ok : Value → Prop}

theorem changeCell_of_get {id : CellId} {c : Cell σ} (h : m.cells.get id = .ok c)
    (change : Cell σ → Cell σ) :
    changeCell id change m = ⟨.ok (), { m with cells := m.cells.put id (change c) }, []⟩ := by
  simp [changeCell, bind_apply, CellArena.modify_of_get h]

theorem changeCell_of_error {id : CellId} {fault : Fault} (h : m.cells.get id = .error fault)
    (change : Cell σ → Cell σ) : changeCell id change m = ⟨.error fault, m, []⟩ := by
  simp [changeCell, bind_apply, CellArena.modify_of_error h]

theorem changeCell_rewires (id : CellId) {change : Cell σ → Cell σ}
    (he : ∀ c, (change c).extent = c.extent)
    (hv : ∀ c, m.cells.get id = .ok c → ok (change c).payload) :
    CellArena.Rewired ok m.cells (changeCell id change m).machine.cells := by
  cases h : m.cells.get id with
  | error fault =>
    rw [changeCell_of_error h]
    exact .refl _
  | ok c =>
    rw [changeCell_of_get h]
    have hput : CellArena.Rewired ok m.cells _ := .put h (change c).procedure (hv c h)
    rw [← he c] at hput
    exact hput

theorem setPayload_rewires (id : CellId) {v : Value} (hv : ok v) :
    CellArena.Rewired ok m.cells (setPayload id v m).machine.cells :=
  changeCell_rewires id (fun _ => rfl) fun _ _ => hv

theorem bindLiteral_rewires (id : CellId) {v : Value} (hnil : ok .nil) (hv : ok v) :
    CellArena.Rewired ok m.cells (bindLiteral id v m).machine.cells := by
  have hbind : CellArena.Rewired ok m.cells (changeCell id (·.bound .literal) m).machine.cells :=
    changeCell_rewires id (fun _ => rfl) fun _ _ => hnil
  simp only [bindLiteral, bind_apply]
  cases h : m.cells.get id with
  | error fault =>
    simp only [bind, changeCell_of_error h]
    exact .refl _
  | ok c =>
    simp only [bind, changeCell_of_get h, Outcome.bind_ok, Outcome.after_nil] at hbind ⊢
    exact hbind.trans (setPayload_rewires (m := { m with cells := m.cells.put id _ }) id hv)

theorem link_rewires (source dest : CellId) (hcell : ok (.cell source)) :
    CellArena.Rewired ok m.cells (link source dest m).machine.cells := by
  simp only [link, bind_apply, get_apply, lift_apply, Outcome.bind_ok, Outcome.after_nil]
  cases m.cells.get source with
  | error fault => exact .refl _
  | ok c => exact changeCell_rewires dest (fun _ => rfl) fun _ _ => hcell

theorem inline_rewires (source dest : CellId) (hcell : ok (.cell source))
    (hcarried : ∀ v, m.Carries v → ok v) :
    CellArena.Rewired ok m.cells (inline source dest m).machine.cells := by
  simp only [inline, bind_apply, get_apply, lift_apply, Outcome.bind_ok, Outcome.after_nil]
  cases h : m.cells.get source with
  | error fault => exact .refl _
  | ok c =>
    simp only [Outcome.bind_ok, Outcome.after_nil]
    split
    · exact changeCell_rewires dest (fun _ => rfl) fun _ _ => hcarried _ ⟨source, c, h, rfl⟩
    · exact link_rewires source dest hcell

end Machine

/-- The value that a request puts into a payload as it is. -/
def Request.payload? : Request σ → Option Value
  | .setPayload _ v | .bindLiteral _ v => some v
  | _ => none

open Machine in
/-- Among the requests on cells, all but the one for a new cell rewire. -/
theorem perform_rewires (ok : Value → Prop) {r : Request σ} (hpart : r.part = .cells)
    (hnew : r ≠ .newCell) (m : Machine σ) (hnil : ok .nil) (hcell : ∀ id, ok (.cell id))
    (hgiven : ∀ v, r.payload? = some v → ok v) (hcarried : ∀ v, m.Carries v → ok v) :
    CellArena.Rewired ok m.cells (perform r m).machine.cells := by
  cases r with
  | bind id procedure => exact changeCell_rewires id (fun _ => rfl) fun _ _ => hnil
  | setPayload id v => exact setPayload_rewires id (hgiven v rfl)
  | bindLiteral id v => exact bindLiteral_rewires id hnil (hgiven v rfl)
  | link source dest => exact link_rewires source dest (hcell source)
  | inline source dest => exact inline_rewires source dest (hcell source) hcarried
  | newCell => exact absurd rfl hnew
  | _ => cases hpart

namespace CellArena

/-- The arena in which every cell has grown by one for each time that its head is listed. -/
def grown (a : CellArena σ) (heads : List CellId) : CellArena σ :=
  { a with cells := a.cells.mapIdx fun i c => { c with extent := c.extent + heads.count ⟨i⟩ } }

theorem grown_lookup (a : CellArena σ) (heads : List CellId) (i : Nat) :
    (a.grown heads).cells[i]? =
      a.cells[i]?.map fun c => { c with extent := c.extent + heads.count ⟨i⟩ } := by
  simp [grown]

theorem grown_nil (a : CellArena σ) : a.grown [] = a := by
  obtain ⟨cells, used⟩ := a
  simp only [grown, List.count_nil, Nat.add_zero, mk.injEq, and_true]
  exact Array.ext_getElem? fun i => by simp

theorem grown_put {a : CellArena σ} {head : CellId} {c : Cell σ} (hc : a.get head = .ok c)
    (rest : List CellId) :
    (a.put head { c with extent := c.extent + 1 }).grown rest = a.grown (head :: rest) := by
  have hget := (get_eq_ok.mp hc).2
  simp only [grown, put, mk.injEq, and_true]
  apply Array.ext_getElem?
  intro i
  by_cases h : i = head.index
  · subst h
    obtain ⟨hlt, hself⟩ := Array.getElem?_eq_some_iff.mp hget
    simp [hlt, hself]
    omega
  · have hne : head ≠ ⟨i⟩ := by
      rintro rfl
      exact h rfl
    simp [Array.getElem?_setIfInBounds_ne (Ne.symm h), List.count_cons_of_ne hne]

end CellArena

namespace Machine

open Step

theorem grow_all {heads : List CellId} {m : Machine σ} (hused : m.cells.used ≤ m.cells.capacity)
    (h : ∀ head ∈ heads, head.index < m.cells.used) :
    heads.forM (m := Step σ) grow m = ⟨.ok (), { m with cells := m.cells.grown heads }, []⟩ := by
  induction heads generalizing m with
  | nil =>
    rw [CellArena.grown_nil]
    rfl
  | cons head rest ih =>
    have hlt := h head (by simp)
    obtain ⟨c, hc⟩ := CellArena.get_of_lt hused hlt
    change (grow head >>= fun _ => rest.forM (m := Step σ) grow) m = _
    rw [bind_apply, grow, changeCell_of_get hc, Outcome.bind_ok, Outcome.after_nil]
    have hrest := ih (m := { m with cells := m.cells.put head { c with extent := c.extent + 1 } })
      (by simpa using hused) fun other ho => h other (by simp [ho])
    apply hrest.trans
    simp only [CellArena.grown_put hc]

/-- Where there is room, the next cell is handed out and every open word grows by one. -/
theorem newCell_of_room {m : Machine σ}
    (hopen : ∀ head ∈ m.openWords.heads, head.index < m.cells.used)
    (hroom : m.cells.hasRoom ∧ m.cells.used + 1 < wordLimit) :
    newCell m = ⟨.ok ⟨m.cells.used⟩, { m with
      cells := { m.cells.grown m.openWords.heads.reverse with used := m.cells.used + 1 } }, []⟩ := by
  have hlt : m.cells.used < m.cells.capacity := by simpa [CellArena.hasRoom] using hroom.1
  have hall : m.openWords.heads.reverse.forM (m := Step σ) grow
      { m with cells := { m.cells with used := m.cells.used + 1 } } = _ :=
    grow_all (Nat.succ_le_of_lt hlt) fun head hh => by
      have := hopen head (by simpa using hh)
      simp
      omega
  simp only [newCell, bind_apply, get_apply, Outcome.bind_ok, Outcome.after_nil, hroom.1, if_true,
    CellArena.allocate, hroom, and_self, lift_apply, set_apply, hall, pure_apply]
  rfl

/-- Where there is none, nothing happens. -/
theorem newCell_of_full {m : Machine σ}
    (hfull : ¬ (m.cells.hasRoom ∧ m.cells.used + 1 < wordLimit)) :
    (newCell m).answer = .error (.cellArenaFull m.cells.capacity) ∧ (newCell m).machine = m := by
  simp only [newCell, bind_apply, get_apply, Outcome.bind_ok, Outcome.after_nil,
    CellArena.allocate, hfull, if_false]
  split
  · exact ⟨rfl, rfl⟩
  · exact ⟨rfl, rfl⟩

end Machine
end ThreadedCode
