import Mathlib.Data.List.Nodup
import ThreadedCode.Proofs.Cells

/-!
How words lie in the cell arena. The requests that open, extend and close words determine every
extent; nothing else that a machine does has a part in it.
-/
namespace ThreadedCode

variable {σ : Signature} {given : Value → Prop}

/-- The cells handed out, the extent of each, and the open words, innermost first. -/
structure Layout where
  used : Nat
  extent : Nat → Nat
  heads : List CellId

namespace Layout

def empty : Layout := ⟨0, fun _ => 1, []⟩

/-- One cell more, which becomes part of every open word. -/
def grow (l : Layout) : Layout :=
  { l with used := l.used + 1, extent := fun i => l.extent i + l.heads.count ⟨i⟩ }

/-- What one event does to the layout. -/
def step (l : Layout) : Event σ → Layout
  | .served .newCell (.ok _) => l.grow
  | .served (.beginWord head) (.ok _) => { l with heads := head :: l.heads }
  | .served .endWord (.ok _) => { l with heads := l.heads.tail }
  | _ => l

def follow (l : Layout) (events : List (Event σ)) : Layout := events.foldl step l

/-- The layout that a past has led to. -/
def ofPast (past : List (Event σ)) : Layout := empty.follow past

@[simp] theorem follow_nil (l : Layout) : l.follow ([] : List (Event σ)) = l := rfl

theorem follow_append (l : Layout) (first rest : List (Event σ)) :
    l.follow (first ++ rest) = (l.follow first).follow rest := by
  simp [follow]

@[simp] theorem follow_logged (l : Layout) (notices : List Notice) :
    l.follow (notices.map (Event.logged (σ := σ))) = l := by
  induction notices with
  | nil => rfl
  | cons notice rest ih => exact ih

theorem follow_served (l : Layout) (notices : List Notice) (r : Request σ)
    (answer : Except Fault r.Answer) :
    l.follow (notices.map .logged ++ [.served r answer]) = l.step (.served r answer) := by
  rw [follow_append, follow_logged]
  rfl

theorem step_error (l : Layout) (r : Request σ) (fault : Fault) :
    l.step (.served r (.error fault)) = l := by
  cases r <;> rfl

/-- Requests on other parts of the machine leave the layout alone. -/
theorem step_of_part (l : Layout) {r : Request σ} (hc : r.part ≠ .cells ∨ r ≠ .newCell)
    (hw : r.part ≠ .words) (answer : Except Fault r.Answer) : l.step (.served r answer) = l := by
  cases r with
  | newCell => simp [Request.part] at hc
  | beginWord head => exact absurd rfl hw
  | endWord => exact absurd rfl hw
  | _ => rfl

/-- Runs lie within the cells handed out, the open words end with the last one of them and lie
inside each other in the order of their opening. -/
structure Sound (l : Layout) : Prop where
  fresh : ∀ i, l.used ≤ i → l.extent i = 1
  positive : ∀ i, 1 ≤ l.extent i
  inside : ∀ i, i < l.used → i + l.extent i ≤ l.used
  allocated : ∀ head ∈ l.heads, head.index < l.used
  ends : ∀ head ∈ l.heads, head.index + l.extent head.index = l.used
  ordered : l.heads.Pairwise fun inner outer => outer.index < inner.index
  few : l.heads.length ≤ OpenWords.capacity

namespace Sound

variable {l : Layout}

theorem empty : Layout.empty.Sound where
  fresh _ _ := rfl
  positive _ := Nat.le_refl 1
  inside _ h := absurd h (Nat.not_lt_zero _)
  allocated _ h := by cases h
  ends _ h := by cases h
  ordered := .nil
  few := Nat.zero_le _

theorem nodup (h : l.Sound) : l.heads.Nodup := by
  apply h.ordered.imp
  rintro inner outer hlt rfl
  exact Nat.lt_irrefl _ hlt

theorem count_open (h : l.Sound) {i : Nat} (hi : ⟨i⟩ ∈ l.heads) : l.heads.count ⟨i⟩ = 1 :=
  List.nodup_iff_count_eq_one.mp h.nodup _ hi

theorem count_closed {i : Nat} (hi : ⟨i⟩ ∉ l.heads) : l.heads.count ⟨i⟩ = 0 :=
  List.count_eq_zero.mpr hi

theorem not_open_of_le (h : l.Sound) {i : Nat} (hi : l.used ≤ i) : ⟨i⟩ ∉ l.heads := by
  intro hm
  have := h.allocated _ hm
  simp at this
  omega

/-- The new cell lengthens exactly the open words, which end where it lies. -/
theorem grow (h : l.Sound) : l.grow.Sound where
  fresh i hi := by
    have hle : l.used + 1 ≤ i := hi
    simp [Layout.grow, h.fresh i (by omega), count_closed (h.not_open_of_le (i := i) (by omega))]
  positive i := Nat.le_trans (h.positive i) (Nat.le_add_right ..)
  inside i hi := by
    have hlt : i < l.used + 1 := hi
    change i + (l.extent i + l.heads.count ⟨i⟩) ≤ l.used + 1
    by_cases ho : ⟨i⟩ ∈ l.heads
    · have := h.ends _ ho
      rw [h.count_open ho]
      simp at this
      omega
    · rw [count_closed ho]
      by_cases hu : i < l.used
      · have := h.inside i hu
        omega
      · rw [h.fresh i (by omega)]
        omega
  allocated head hh := Nat.lt_succ_of_lt (h.allocated head hh)
  ends head hh := by
    change head.index + (l.extent head.index + l.heads.count head) = l.used + 1
    rw [List.nodup_iff_count_eq_one.mp h.nodup head hh]
    have := h.ends head hh
    omega
  ordered := h.ordered
  few := h.few

/-- An open word reaches to the new cell. -/
theorem grow_of_open (h : l.Sound) {i : Nat} (hi : ⟨i⟩ ∈ l.heads) :
    i + l.grow.extent i = l.used + 1 :=
  h.grow.ends ⟨i⟩ hi

/-- Every other run stays as long as it is. -/
theorem grow_of_closed {i : Nat} (hi : ⟨i⟩ ∉ l.heads) : l.grow.extent i = l.extent i := by
  simp only [Layout.grow, count_closed hi, Nat.add_zero]

/-- Only the cell handed out last can be opened, and it is a leaf until then. -/
theorem extent_last (h : l.Sound) {i : Nat} (hi : i + 1 = l.used) : l.extent i = 1 := by
  have := h.inside i (by omega)
  have := h.positive i
  omega

theorem push (h : l.Sound) {head : CellId} (hlast : head.index + 1 = l.used)
    (hnew : head ∉ l.heads) (hfew : l.heads.length < OpenWords.capacity) :
    Sound { l with heads := head :: l.heads } where
  fresh := h.fresh
  positive := h.positive
  inside := h.inside
  allocated other ho := by
    rcases List.mem_cons.mp ho with rfl | ho
    · change other.index < l.used
      omega
    · exact h.allocated other ho
  ends other ho := by
    rcases List.mem_cons.mp ho with rfl | ho
    · rw [h.extent_last hlast]
      exact hlast
    · exact h.ends other ho
  ordered := by
    refine List.pairwise_cons.mpr ⟨fun outer ho => ?_, h.ordered⟩
    have hlt := h.allocated outer ho
    have hne : outer.index ≠ head.index := by
      intro he
      cases outer
      cases head
      cases he
      exact hnew ho
    omega
  few := hfew

theorem pop (h : l.Sound) : Sound { l with heads := l.heads.tail } where
  fresh := h.fresh
  positive := h.positive
  inside := h.inside
  allocated head hh := h.allocated head (List.mem_of_mem_tail hh)
  ends head hh := h.ends head (List.mem_of_mem_tail hh)
  ordered := h.ordered.tail
  few := by
    have := h.few
    simp
    omega

end Sound
end Layout

namespace Machine

open Step

variable {m n : Machine σ}

def layout (m : Machine σ) : Layout := ⟨m.cells.used, m.cells.extentAt, m.openWords.heads⟩

/-- What building relies on: the layout is sound, and the cells not handed out yet are empty. -/
structure Built (m : Machine σ) : Prop where
  room : m.cells.used ≤ m.cells.capacity
  numbered : m.cells.used < wordLimit
  blank : ∀ i, m.cells.used ≤ i → i < m.cells.capacity → m.cells.cells[i]? = some .empty
  sound : m.layout.Sound

theorem beginWord_cases (head : CellId) (m : Machine σ) :
    (∃ fault, (beginWord head m).answer = .error fault ∧ (beginWord head m).machine = m) ∨
    ((beginWord head m).answer = .ok () ∧ m.cells.last? = some head ∧ head ∉ m.openWords.heads ∧
      m.openWords.depth < OpenWords.capacity ∧
      (beginWord head m).machine = { m with openWords := ⟨head :: m.openWords.heads⟩ }) := by
  simp only [beginWord, bind_apply, get_apply, lift_apply, Outcome.bind_ok, Outcome.after_nil]
  cases m.cells.get head with
  | error fault => exact .inl ⟨fault, rfl, rfl⟩
  | ok c =>
    simp only [Outcome.bind_ok, Outcome.after_nil]
    split
    · rename_i hlast
      split
      · exact .inl ⟨_, rfl, rfl⟩
      · rename_i hnew
        by_cases hfew : m.openWords.depth < OpenWords.capacity
        · refine .inr ?_
          have hpush : m.openWords.push head = .ok ⟨head :: m.openWords.heads⟩ := if_pos hfew
          rw [hpush]
          exact ⟨rfl, hlast, by simpa using hnew, hfew, rfl⟩
        · refine .inl ⟨.compileNestingExceeded, ?_⟩
          have hpush : m.openWords.push head = .error .compileNestingExceeded := if_neg hfew
          rw [hpush]
          exact ⟨rfl, rfl⟩
    · exact .inl ⟨_, rfl, rfl⟩

theorem endWord_cases (hb : m.Built) :
    (m.openWords.heads = [] ∧ (endWord m).answer = .error .notCompiling ∧ (endWord m).machine = m) ∨
    ∃ head outer, m.openWords.heads = head :: outer ∧ (endWord m).answer = .ok head ∧
      (endWord m).machine = { m with openWords := ⟨outer⟩ } := by
  simp only [endWord, bind_apply, get_apply, lift_apply, Outcome.bind_ok, Outcome.after_nil,
    OpenWords.pop]
  cases hh : m.openWords.heads with
  | nil => exact .inl ⟨rfl, rfl, rfl⟩
  | cons head outer =>
    refine .inr ⟨head, outer, rfl, ?_⟩
    obtain ⟨c, hc⟩ := CellArena.get_of_lt hb.room (hb.sound.allocated head (by simp [layout, hh]))
    simp only [Outcome.bind_ok, Outcome.after_nil, hc]
    split
    · exact ⟨rfl, rfl⟩
    · exact ⟨rfl, rfl⟩

/-- An emptied arena with no word open has the empty layout. -/
theorem layout_of_empty {a : CellArena σ} (hc : m.cells = a.reset) (ho : m.openWords = .none) :
    m.layout = .empty := by
  have he : m.cells.extentAt = fun _ => 1 := by
    funext i
    rw [hc]
    simp only [CellArena.extentAt, CellArena.reset]
    by_cases hi : i < a.capacity
    · simp [hi, Cell.empty]
    · simp [hi]
  simp only [layout, he, ho]
  rw [hc]
  rfl

namespace Built

theorem of_empty {a : CellArena σ} (hc : m.cells = a.reset) (ho : m.openWords = .none) : m.Built where
  room := by
    rw [hc]
    exact Nat.zero_le _
  numbered := by
    rw [hc]
    exact (by decide : 0 < wordLimit)
  blank i _ hi := by
    rw [hc] at hi ⊢
    simp only [CellArena.reset, CellArena.capacity, Array.size_replicate] at hi ⊢
    simp [hi]
  sound := by
    rw [layout_of_empty hc ho]
    exact .empty

theorem newCell (hb : m.Built) (hroom : m.cells.hasRoom ∧ m.cells.used + 1 < wordLimit) :
    (Machine.newCell m).machine.Built ∧ (Machine.newCell m).machine.layout = m.layout.grow := by
  have hnew := newCell_of_room hb.sound.allocated hroom
  have hlt : m.cells.used < m.cells.capacity := by simpa [CellArena.hasRoom] using hroom.1
  have hl : (Machine.newCell m).machine.layout = m.layout.grow := by
    rw [hnew]
    simp only [layout, Layout.grow, Layout.mk.injEq, and_true, true_and]
    funext i
    simp only [CellArena.extentAt, CellArena.grown_lookup, List.count_reverse]
    cases hi : m.cells.cells[i]? with
    | some c => rfl
    | none =>
      have hcap : m.cells.capacity ≤ i := Array.getElem?_eq_none_iff.mp hi
      have := Layout.Sound.count_closed (hb.sound.not_open_of_le (Nat.le_trans hb.room hcap))
      simpa [layout] using this
  refine ⟨⟨?_, ?_, ?_, ?_⟩, hl⟩
  · rw [hnew]
    simpa [CellArena.capacity, CellArena.grown] using Nat.succ_le_of_lt hlt
  · rw [hnew]
    exact hroom.2
  · rw [hnew]
    intro i hle hi
    have hle' : m.cells.used + 1 ≤ i := hle
    have hblank := hb.blank i (by omega) (by simpa [CellArena.capacity, CellArena.grown] using hi)
    have hclosed := Layout.Sound.count_closed
      (hb.sound.not_open_of_le (i := i) (by simp only [layout]; omega))
    simp only [CellArena.grown_lookup, hblank, List.count_reverse]
    simp only [layout] at hclosed
    simp [hclosed]
  · rw [hl]
    exact hb.sound.grow

theorem rewired (hb : m.Built) {ok : Value → Prop} (hn : Part.cells.Frames m n)
    (hr : CellArena.Rewired ok m.cells n.cells) : n.Built ∧ n.layout = m.layout := by
  obtain ⟨c, rfl⟩ := hn
  have hl : ({ m with cells := c } : Machine σ).layout = m.layout := by
    simp only [layout, Layout.mk.injEq, and_true]
    exact ⟨hr.used, funext hr.extentAt⟩
  refine ⟨⟨?_, ?_, ?_, ?_⟩, hl⟩
  · rw [hr.used, hr.capacity]
    exact hb.room
  · rw [hr.used]
    exact hb.numbered
  · intro i hle hi
    rw [hr.used] at hle
    rw [hr.capacity] at hi
    rcases hr.cells i with he | ⟨_, _, _, hlt, _⟩
    · rw [he]
      exact hb.blank i hle hi
    · omega
  · rw [hl]
    exact hb.sound

/-- Neither cells nor open words have changed. -/
theorem untouched (hb : m.Built) (hc : n.cells = m.cells) (ho : n.openWords = m.openWords) :
    n.Built ∧ n.layout = m.layout := by
  have hl : n.layout = m.layout := by simp only [layout, hc, ho]
  refine ⟨⟨?_, ?_, ?_, hl ▸ hb.sound⟩, hl⟩
  · exact hc ▸ hb.room
  · exact hc ▸ hb.numbered
  · exact hc ▸ hb.blank

theorem atDepth (hb : m.Built) (callDepth : Nat) : ({ m with callDepth } : Machine σ).Built :=
  (hb.untouched (n := { m with callDepth }) rfl rfl).1

theorem beginWord (hb : m.Built) (head : CellId) : (Machine.beginWord head m).machine.Built ∧
    (Machine.beginWord head m).machine.layout =
      m.layout.step (.served (σ := σ) (.beginWord head) (Machine.beginWord head m).answer) := by
  rcases beginWord_cases head m with ⟨fault, ha, hm⟩ | ⟨ha, hlast, hnew, hfew, hm⟩
  · rw [ha, hm]
    exact ⟨hb, rfl⟩
  · rw [ha, hm]
    have hlast' : head.index + 1 = m.cells.used := by
      unfold CellArena.last? at hlast
      split at hlast
      · cases hlast
        simp
        omega
      · cases hlast
    exact ⟨⟨hb.room, hb.numbered, hb.blank, hb.sound.push hlast' hnew hfew⟩, rfl⟩

theorem endWord (hb : m.Built) : (Machine.endWord m).machine.Built ∧
    (Machine.endWord m).machine.layout =
      m.layout.step (.served (σ := σ) .endWord (Machine.endWord m).answer) := by
  rcases endWord_cases hb with ⟨_, ha, hm⟩ | ⟨head, outer, hh, ha, hm⟩
  · rw [ha, hm]
    exact ⟨hb, rfl⟩
  · rw [ha, hm]
    have hsound := hb.sound.pop
    simp only [layout, hh, List.tail_cons] at hsound
    refine ⟨⟨hb.room, hb.numbered, hb.blank, hsound⟩, ?_⟩
    simp only [Layout.step, layout, hh, List.tail_cons]

theorem perform (hb : m.Built) (r : Request σ) : (ThreadedCode.perform r m).machine.Built ∧
    (ThreadedCode.perform r m).machine.layout =
      m.layout.step (.served r (ThreadedCode.perform r m).answer) := by
  have hf := (perform_within r m).frames
  by_cases hw : r.part = .words
  · cases r with
    | beginWord head => exact hb.beginWord head
    | endWord => exact hb.endWord
    | _ => cases hw
  by_cases hnew : r = .newCell
  · subst hnew
    by_cases hroom : m.cells.hasRoom ∧ m.cells.used + 1 < wordLimit
    · have ha : (Machine.newCell m).answer = .ok ⟨m.cells.used⟩ := by
        rw [newCell_of_room hb.sound.allocated hroom]
      refine ⟨(hb.newCell hroom).1, (hb.newCell hroom).2.trans ?_⟩
      change _ = m.layout.step (.served (σ := σ) .newCell (Machine.newCell m).answer)
      rw [ha]
      rfl
    · obtain ⟨ha, hm⟩ := newCell_of_full hroom
      change (Machine.newCell m).machine.Built ∧ (Machine.newCell m).machine.layout =
        m.layout.step (.served (σ := σ) .newCell (Machine.newCell m).answer)
      rw [ha, hm]
      exact ⟨hb, rfl⟩
  rw [Layout.step_of_part _ (.inr hnew) hw]
  by_cases hc : r.part = .cells
  · rw [hc] at hf
    exact hb.rewired hf (perform_rewires (fun _ => True) hc hnew m trivial (fun _ => trivial)
      (fun _ _ => trivial) fun _ _ => trivial)
  · exact hb.untouched ((perform_kept r m).cells hc) ((perform_kept r m).words hw)

/-- The events of a move say what it does to the layout. -/
theorem move {events : List (Event σ)} (hb : m.Built) (h : Move given m events n) :
    n.Built ∧ n.layout = m.layout.follow events := by
  cases h with
  | served r =>
    obtain ⟨notices, he⟩ := serve_events r m
    rw [he, Layout.follow_served]
    exact hb.perform r
  | literal v _ =>
    obtain ⟨⟨s, hs⟩, notices, he⟩ := pushLiteral_within (m := m) v
    rw [he, Layout.follow_logged]
    exact hb.untouched (by rw [hs]) (by rw [hs])
  | noted notice =>
    obtain ⟨notices, he⟩ := log_events notice m
    rw [he, Layout.follow_logged]
    exact ⟨hb, rfl⟩
  | deeper => exact hb.untouched rfl rfl
  | back => exact hb.untouched rfl rfl

theorem moves {events : List (Event σ)} (hb : m.Built) (h : Moves given m events n) :
    n.Built ∧ n.layout = m.layout.follow events := by
  have hI := h.preserve (I := fun past n => n.Built ∧ n.layout = m.layout.follow past)
    (fun past o events p ho hm => by
      obtain ⟨hb', hl⟩ := ho.1.move hm
      rw [Layout.follow_append, ← ho.2]
      exact ⟨hb', hl⟩)
  exact hI [] ⟨hb, rfl⟩

theorem start (hb : m.Built) (host : Host σ) (p : Program σ α) : (p.start host m).machine.Built := by
  have hmoves : Moves (fun _ => False) m _ _ := p.start_moving host m
  exact (hb.moves hmoves).1

end Built
end Machine

/-- After every run the layout is sound, and it is the one that the past tells. -/
theorem Run.built {host : Host σ} {past : List (Event σ)} {m : Machine σ} (h : Run host past m) :
    m.Built ∧ m.layout = Layout.ofPast past := by
  refine h.invariant (I := fun past m => m.Built ∧ m.layout = Layout.ofPast past) ?_ ?_ ?_
  · intro bytes cells settings verbosity
    exact ⟨.of_empty rfl rfl, Machine.layout_of_empty rfl rfl⟩
  · intro _ m _
    exact ⟨.of_empty rfl rfl, Machine.layout_of_empty rfl rfl⟩
  · intro given past m events n hp hm
    obtain ⟨hb, hl⟩ := hp
    obtain ⟨hb', hl'⟩ := hb.move hm
    refine ⟨hb', ?_⟩
    rw [hl', hl, Layout.ofPast, Layout.ofPast, Layout.follow_append]

end ThreadedCode
