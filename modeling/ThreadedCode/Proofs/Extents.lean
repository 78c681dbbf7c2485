import ThreadedCode.Proofs.Depth
import ThreadedCode.Proofs.Visits

/-!
Extents and open words. An extent counts the cells handed out while its word was open, so runs never
reach beyond the cells handed out, and the lookups that rely on this cannot fail.
-/
namespace ThreadedCode

variable {σ : Signature} {α : Type} {given : Value → Prop}

/-- What the past tells about one word: whether it is open, and how many cells have been handed out
while it was. -/
structure Tally where
  isOpen : Bool
  taken : Nat

namespace Tally

/-- What one event adds to the tally of a head. -/
def step (head : CellId) (t : Tally) : Event σ → Tally
  | .served (.beginWord opened) (.ok _) => if opened = head then { t with isOpen := true } else t
  | .served .endWord (.ok closed) => if closed = head then { t with isOpen := false } else t
  | .served .newCell (.ok _) => if t.isOpen then { t with taken := t.taken + 1 } else t
  | _ => t

/-- The tally of a head after a past. -/
def ofPast (head : CellId) (past : List (Event σ)) : Tally := past.foldl (step head) ⟨false, 0⟩

theorem ofPast_append (head : CellId) (first rest : List (Event σ)) :
    ofPast head (first ++ rest) = rest.foldl (step head) (ofPast head first) := by
  simp [ofPast]

theorem foldl_logged (head : CellId) (t : Tally) (notices : List Notice) :
    (notices.map (Event.logged (σ := σ))).foldl (step head) t = t := by
  induction notices with
  | nil => rfl
  | cons notice rest ih => exact ih

theorem step_error (head : CellId) (t : Tally) (r : Request σ) (fault : Fault) :
    t.step head (.served r (.error fault)) = t := by
  cases r <;> rfl

end Tally

/-- The tallies tell the extents and the open words. -/
def Layout.Counted (l : Layout) (tally : CellId → Tally) : Prop :=
  ∀ head, l.extent head.index = 1 + (tally head).taken ∧ ((tally head).isOpen ↔ head ∈ l.heads)

namespace Layout.Counted

variable {l : Layout} {tally : CellId → Tally}

theorem grow (hs : l.Sound) (h : l.Counted tally) :
    l.grow.Counted fun head =>
      if (tally head).isOpen then { tally head with taken := (tally head).taken + 1 }
      else tally head := by
  intro head
  obtain ⟨he, ho⟩ := h head
  change l.extent head.index + l.heads.count head = _ ∧ (_ ↔ head ∈ l.heads)
  by_cases hopen : (tally head).isOpen = true
  · rw [hs.count_open (ho.mp hopen), he]
    simp only [hopen, if_true, true_iff]
    exact ⟨by omega, ho.mp hopen⟩
  · rw [Layout.Sound.count_closed fun hm => hopen (ho.mpr hm), he]
    simp only [hopen]
    exact ⟨rfl, by simpa [hopen] using ho⟩

theorem push (h : l.Counted tally) (opened : CellId) :
    Counted { l with heads := opened :: l.heads } fun head =>
      if opened = head then { tally head with isOpen := true } else tally head := by
  intro head
  obtain ⟨he, ho⟩ := h head
  by_cases heq : opened = head
  · simpa [heq] using he
  · refine ⟨by simpa [heq] using he, ?_⟩
    simp only [heq, if_false, ho, List.mem_cons]
    exact ⟨.inr, fun hm => hm.resolve_left (Ne.symm heq)⟩

theorem pop (hs : l.Sound) (h : l.Counted tally) {closed : CellId} {outer : List CellId}
    (hl : l.heads = closed :: outer) :
    Counted { l with heads := l.heads.tail } fun head =>
      if closed = head then { tally head with isOpen := false } else tally head := by
  intro head
  obtain ⟨he, ho⟩ := h head
  have hnodup := hs.nodup
  rw [hl, List.nodup_cons] at hnodup
  by_cases heq : closed = head
  · subst heq
    simpa [hl, hnodup.1] using he
  · refine ⟨by simpa [heq] using he, ?_⟩
    simp only [heq, if_false, ho, hl, List.mem_cons, List.tail_cons]
    exact ⟨fun hm => hm.resolve_left (Ne.symm heq), .inr⟩

end Layout.Counted

namespace Machine

open Step

variable {m n : Machine σ}

/-- The past tells the extents and the open words of the machine. -/
def Counted (m : Machine σ) (past : List (Event σ)) : Prop :=
  m.layout.Counted fun head => Tally.ofPast head past

namespace Built

theorem counted_served (hb : m.Built) {tally : CellId → Tally} (h : m.layout.Counted tally)
    (r : Request σ) : (ThreadedCode.perform r m).machine.layout.Counted fun head =>
      (tally head).step head (.served r (ThreadedCode.perform r m).answer) := by
  rw [(hb.perform r).2]
  cases ha : (ThreadedCode.perform r m).answer with
  | error fault =>
    simp only [Layout.step_error, Tally.step_error]
    exact h
  | ok answer =>
    cases r with
    | newCell => exact h.grow hb.sound
    | beginWord head => exact h.push head
    | endWord =>
      rcases endWord_cases hb with ⟨-, hfault, -⟩ | ⟨head, outer, hh, hok, -⟩
      · exact absurd (ha.symm.trans hfault) nofun
      · cases ha.symm.trans hok
        exact h.pop hb.sound hh
    | _ => exact h

theorem counted_move {past events : List (Event σ)} (hb : m.Built) (h : m.Counted past)
    (hm : Move given m events n) : n.Counted (past ++ events) := by
  have hquiet : ∀ notices : List Notice, n.layout = m.layout →
      n.Counted (past ++ notices.map .logged) := by
    intro notices hl
    simp only [Counted, hl, Tally.ofPast_append, Tally.foldl_logged]
    exact h
  cases hm with
  | served r =>
    obtain ⟨notices, he⟩ := serve_events r m
    rw [he, serve_machine]
    simp only [Counted, Tally.ofPast_append, List.foldl_append, Tally.foldl_logged]
    exact hb.counted_served h r
  | literal v _ =>
    obtain ⟨⟨s, hs⟩, notices, he⟩ := pushLiteral_within (m := m) v
    rw [he]
    exact hquiet notices (by rw [hs]; rfl)
  | noted notice =>
    obtain ⟨notices, he⟩ := log_events notice m
    rw [he]
    exact hquiet notices rfl
  | deeper => exact hquiet [] rfl
  | back => exact hquiet [] rfl

end Built
end Machine

theorem Run.counted {host : Host σ} {past : List (Event σ)} {m : Machine σ} (h : Run host past m) :
    m.Counted past := by
  have hempty : Layout.empty.Counted fun head => Tally.ofPast head ([] : List (Event σ)) :=
    fun head => ⟨rfl, by simp [Tally.ofPast, Layout.empty]⟩
  refine (h.invariant (I := fun past m => m.Built ∧ m.Counted past) ?_ ?_ ?_).2
  · intro bytes cells settings verbosity
    refine ⟨.of_empty rfl rfl, ?_⟩
    rw [Machine.Counted, Machine.layout_of_empty rfl rfl]
    exact hempty
  · intro _ m _
    refine ⟨.of_empty rfl rfl, ?_⟩
    rw [Machine.Counted, Machine.layout_of_empty rfl rfl]
    exact hempty
  · intro given past m events n hp hm
    exact ⟨(hp.1.move hm).1, hp.1.counted_move hp.2 hm⟩

namespace Step

variable {I : Machine σ → Prop}

end Step

namespace Machine

open Step

variable {m n : Machine σ}

section
variable {exec exec' call call' : CellId → Step σ Unit} {head : CellId}

end

variable (host : Host σ)

end Machine

end ThreadedCode
