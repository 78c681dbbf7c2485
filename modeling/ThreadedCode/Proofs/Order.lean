import Mathlib.Data.List.Nodup
import ThreadedCode.Proofs.Depth
import ThreadedCode.Proofs.Visits

/-!
The order in which a compound word is executed. Where the runs inside a run lie inside one another or
apart, executing its head calls the leaves one after another, each at the depth of the words around it.
-/
namespace ThreadedCode

variable {σ : Signature} {α β : Type} {given : Value → Prop}

namespace Step

/-- Steps that are the same here and go on in the same way are the same. -/
theorem bind_congr {s t : Step σ α} {next next' : α → Step σ β} {m : Machine σ} (hs : s m = t m)
    (hn : ∀ a, (t m).answer = .ok a → next a (t m).machine = next' a (t m).machine) :
    (s >>= next) m = (t >>= next') m := by
  rw [bind_apply, bind_apply, hs]
  rcases ht : t m with ⟨answer, n, events⟩
  rw [ht] at hn
  cases answer with
  | ok a =>
    rw [Outcome.bind_ok, Outcome.bind_ok]
    exact congrArg _ (hn a rfl)
  | error fault => rfl

/-- The step leaves the settings and the depth of every machine as they are. -/
def Balanced (s : Step σ α) : Prop := ∀ settings depth, s.Agrees (.steady settings depth) s

theorem Balanced.depth {s : Step σ α} (h : s.Balanced) (m : Machine σ) :
    (s m).machine.settings = m.settings ∧ (s m).machine.callDepth = m.callDepth :=
  ((h m.settings m.callDepth).eq rfl rfl).2

theorem balanced_log (notice : Notice) : (log notice : Step σ Unit).Balanced :=
  fun _ _ => agrees_steady fun _ hs hd => ⟨hs, hd⟩

theorem balanced_bind {s : Step σ α} {next : α → Step σ β} (hs : s.Balanced)
    (hn : ∀ a, (next a).Balanced) : (s >>= next).Balanced :=
  fun settings depth => bind_agrees (hs settings depth) fun a => hn a settings depth

theorem balanced_forM {ι : Type} {f : ι → Step σ PUnit} (hf : ∀ i, (f i).Balanced) (l : List ι) :
    (forM l f).Balanced := by
  induction l with
  | nil => exact fun _ _ => done_agrees _
  | cons i l ih => exact balanced_bind (hf i) fun _ => ih

theorem forM_moving {ι : Type} {f : ι → Step σ PUnit} (hf : ∀ i, (f i).Moving given) (l : List ι) :
    (forM l f).Moving given := by
  induction l with
  | nil => exact done_moving _
  | cons i l ih => exact bind_moving (hf i) fun _ => ih

/-- Two loops whose bodies are the same steps are the same loop. -/
theorem forM_congr {ι : Type} {f g : ι → Step σ PUnit} {l : List ι} (h : ∀ i ∈ l, f i = g i) :
    forM l f = forM l g := by
  induction l with
  | nil => rfl
  | cons i l ih =>
    rw [List.forM_cons, List.forM_cons, h i (by simp), ih fun j hj => h j (by simp [hj])]

end Step

namespace Machine

open Step

theorem balanced_nested {s : Step σ Unit} (h : s.Balanced) : (nested s).Balanced :=
  fun settings depth => nested_steady (h settings (depth + 1))

theorem nested_log (notice : Notice) : nested (log notice : Step σ Unit) = log notice := by
  funext m
  rw [nested_apply]
  rfl

/-- Going one deeper around two steps is going one deeper around each of them. -/
theorem nested_bind {s : Step σ Unit} (hs : s.Balanced) (next : Unit → Step σ Unit) :
    nested (s >>= next) = nested s >>= fun a => nested (next a) := by
  funext m
  have hd : (s { m with callDepth := m.callDepth + 1 }).machine.callDepth = m.callDepth + 1 :=
    (hs.depth _).2
  rw [nested_apply, bind_apply, bind_apply, nested_apply]
  rcases ho : s { m with callDepth := m.callDepth + 1 } with ⟨answer, n, events⟩
  rw [ho] at hd
  obtain hd : n.callDepth = m.callDepth + 1 := hd
  cases answer with
  | error fault => rfl
  | ok a =>
    simp only [Outcome.bind_ok, nested_apply]
    have hn : ({ n with callDepth := n.callDepth - 1 + 1 } : Machine σ) = n := by
      rw [show n.callDepth - 1 + 1 = n.callDepth by omega]
    rw [hn]
    rfl

theorem nested_forM {ι : Type} {f : ι → Step σ PUnit} (hf : ∀ i, (f i).Balanced) (l : List ι) :
    nested (forM l f) = forM l fun i => nested (f i) := by
  induction l with
  | nil =>
    funext m
    exact nested_apply _ _
  | cons i l ih => rw [List.forM_cons, nested_bind (hf i), List.forM_cons, ih]

/-- The step a number of executions deeper. -/
def deeper : Nat → Step σ Unit → Step σ Unit
  | 0, s => s
  | levels + 1, s => nested (deeper levels s)

theorem balanced_deeper {s : Step σ Unit} (h : s.Balanced) (levels : Nat) :
    (deeper levels s).Balanced := by
  induction levels with
  | zero => exact h
  | succ levels ih => exact balanced_nested ih

theorem deeper_moving {s : Step σ Unit} (h : s.Moving given) (levels : Nat) :
    (deeper levels s).Moving given := by
  induction levels with
  | zero => exact h
  | succ levels ih => exact nested_moving ih

end Machine

namespace Layout

/-- The number of words that are being executed when the execution of `top` comes to the cell at
`c`: `top` itself, and the compound words in its run that reach as far as `c`. -/
def level (l : Layout) (top c : Nat) : Nat :=
  (List.range' top (c + 1 - top)).countP fun h => (h = top ∨ l.extent h ≠ 1) ∧ c < h + l.extent h

/-- The runs in the run of `top` end within it, and any two of them are apart or one lies inside the
other. -/
structure Laminar (l : Layout) (top : Nat) : Prop where
  within : ∀ i, top ≤ i → i < top + l.extent top → i + l.extent i ≤ top + l.extent top
  apart : ∀ i j, top < i → i < j → j < top + l.extent top →
    i + l.extent i ≤ j ∨ j + l.extent j ≤ i + l.extent i

/-- No word between `top` and `p` reaches as far as `p`. -/
def Clear (l : Layout) (top p : Nat) : Prop := ∀ h, top < h → h < p → h + l.extent h ≤ p

variable {l : Layout} {top p c : Nat}

theorem level_self (h : 1 ≤ l.extent top) : l.level top top = 1 := by
  have hlt : top < top + l.extent top := by omega
  simp [level, hlt]

/-- What does not reach as far as `p` reaches no cell from `p` on. -/
theorem level_split (hc : l.Clear top p) (hp : top < p) (hpc : p ≤ c)
    (hin : c < top + l.extent top) :
    l.level top c = (List.range' p (c + 1 - p)).countP
      (fun h => (h = top ∨ l.extent h ≠ 1) ∧ c < h + l.extent h) + 1 := by
  have hrange : List.range' top (c + 1 - top) =
      top :: (List.range' (top + 1) (p - (top + 1)) ++ List.range' p (c + 1 - p)) := by
    have hsplit := List.range'_append_1 (s := top + 1) (m := p - (top + 1)) (n := c + 1 - p)
    rw [show top + 1 + (p - (top + 1)) = p by omega] at hsplit
    rw [hsplit, ← List.range'_succ]
    congr 1
    omega
  have hskip : (List.range' (top + 1) (p - (top + 1))).countP
      (fun h => (h = top ∨ l.extent h ≠ 1) ∧ c < h + l.extent h) = 0 := by
    apply List.countP_eq_zero.mpr
    intro h hmem
    have hbounds := List.mem_range'_1.mp hmem
    have := hc h (by omega) (by omega)
    simp only [decide_eq_true_eq, not_and]
    omega
  rw [level, hrange, List.countP_cons, List.countP_append, hskip]
  simp [hin]

theorem level_leaf (hc : l.Clear top c) (hp : top < c) (hin : c < top + l.extent top)
    (hleaf : l.extent c = 1) : l.level top c = 1 := by
  have hrange : List.range' c (c + 1 - c) = [c] := by
    rw [Nat.add_sub_cancel_left]
    rfl
  have hne : c ≠ top := by omega
  rw [level_split hc hp (Nat.le_refl c) hin, hrange]
  simp [hleaf, hne]

theorem level_inner (hc : l.Clear top p) (hp : top < p) (hpc : p ≤ c)
    (hin : c < top + l.extent top) (hword : l.extent p ≠ 1) :
    l.level top c = l.level p c + 1 := by
  rw [level_split hc hp hpc hin, level]
  congr 1
  apply List.countP_congr
  intro h hmem
  have hbounds := List.mem_range'_1.mp hmem
  have hne : h ≠ top := by omega
  by_cases hself : h = p
  · simp [hself, hword]
  · simp [hne, hself]

theorem level_pos (hp : top ≤ c) (hin : c < top + l.extent top) : 1 ≤ l.level top c := by
  refine List.countP_pos_iff.mpr ⟨top, ?_, by simpa using hin⟩
  exact List.mem_range'_1.mpr (by omega)

namespace Laminar

theorem inner (h : l.Laminar top) (hp : top < p) (hin : p < top + l.extent top) : l.Laminar p := by
  have hend := h.within p (by omega) hin
  refine ⟨fun i hi hlt => ?_, fun i j hi hij hj => h.apart i j (by omega) hij (by omega)⟩
  rcases Nat.eq_or_lt_of_le hi with rfl | hlater
  · exact Nat.le_refl _
  · have := h.apart p i hp hlater (by omega)
    omega

/-- Behind a run that starts at a clear place the next place is clear again. -/
theorem clear_next (h : l.Laminar top) (hc : l.Clear top p) (hp : top < p)
    (hin : p < top + l.extent top) (hpos : ∀ i, 1 ≤ l.extent i) :
    l.Clear top (p + l.extent p) := by
  intro i hi hlt
  have := hpos p
  rcases Nat.lt_trichotomy i p with hbefore | rfl | hlater
  · have := hc i hi hbefore
    omega
  · exact Nat.le_refl _
  · have := h.apart p i hp hlater (Nat.lt_of_lt_of_le hlt (h.within p (by omega) hin))
    omega

end Laminar
end Layout

namespace Machine

open Step Layout

variable (host : Host σ) (l : Layout) (top : Nat)

/-- The call of a leaf in the run of `top`, inside the words that it lies in. -/
def callAt (c : Nat) : Step σ Unit := deeper (l.level top c) (call host ⟨c⟩)

/-- What the execution of `top` does on a cell of its run: a leaf is called, a head only noted. -/
def visitAt (c : Nat) : Step σ Unit :=
  if l.extent c = 1 then callAt host l top c else log (.walked ⟨c⟩ (l.extent c))

/-- The first `count` cells of the run of `top`, in ascending order. -/
def progress (count : Nat) : Step σ Unit := forM (List.range' top count) (visitAt host l top)

/-- The same on a cell when the execution of `top` is already under way. -/
def visitBelow (c : Nat) : Step σ Unit :=
  if l.extent c = 1 then deeper (l.level top c - 1) (call host ⟨c⟩)
  else log (.walked ⟨c⟩ (l.extent c))

def progressBelow (first count : Nat) : Step σ Unit :=
  forM (List.range' first count) (visitBelow host l top)

/-- As far as the execution of `top` gets, the cells of its run keep their extents. -/
def Keeps (m : Machine σ) : Prop :=
  ∀ k < l.extent top, (progress host l top k m).answer = .ok () →
    ∀ i, top ≤ i → i < top + l.extent top →
      (progress host l top k m).machine.layout.extent i = l.extent i

/-- As far as the execution of `top` gets, neither it nor a word in its run is executed past the
limit. -/
def Fits (m : Machine σ) : Prop :=
  ∀ k < l.extent top, k = 0 ∨ l.extent (top + k) ≠ 1 → (progress host l top k m).answer = .ok () →
    m.callDepth + l.level top (top + k) ≤ m.settings.maxCallDepth

variable {host l top} {m n : Machine σ} {p c : Nat}

theorem visitBelow_balanced (c : Nat) : (visitBelow host l top c).Balanced := by
  unfold visitBelow
  split
  · exact balanced_deeper (fun settings depth => call_steady host settings depth _) _
  · exact balanced_log _

theorem visitBelow_moving (c : Nat) : (visitBelow host l top c).Moving given := by
  unfold visitBelow
  split
  · exact deeper_moving (call_moving host _) _
  · exact log_moving _

theorem nested_visitBelow (hc : top ≤ c) (hin : c < top + l.extent top) :
    nested (visitBelow host l top c) = visitAt host l top c := by
  have hpos := level_pos hc hin
  unfold visitBelow visitAt callAt
  split
  · rw [show l.level top c = l.level top c - 1 + 1 by omega]
    rfl
  · exact nested_log _

theorem visitBelow_inner (hc : l.Clear top p) (hp : top < p) (hpc : p ≤ c)
    (hin : c < top + l.extent top) (hword : l.extent p ≠ 1) :
    visitBelow host l top c = visitAt host l p c := by
  have hlevel := level_inner hc hp hpc hin hword
  unfold visitBelow visitAt callAt
  rw [hlevel, Nat.add_sub_cancel]

/-- The execution of `top` is its run, one level deeper. -/
theorem progress_eq_nested {count : Nat} (h : count ≤ l.extent top) :
    progress host l top count = nested (progressBelow host l top top count) := by
  rw [progress, progressBelow, nested_forM visitBelow_balanced]
  refine forM_congr fun c hc => (nested_visitBelow ?_ ?_).symm
  · exact (List.mem_range'_1.mp hc).1
  · have := (List.mem_range'_1.mp hc).2
    omega

theorem progressBelow_inner {count : Nat} (hc : l.Clear top p) (hp : top < p)
    (hcount : count ≤ l.extent p) (hend : p + l.extent p ≤ top + l.extent top)
    (hword : l.extent p ≠ 1) : progressBelow host l top p count = progress host l p count := by
  refine forM_congr fun c hmem => visitBelow_inner hc hp ?_ ?_ hword
  · exact (List.mem_range'_1.mp hmem).1
  · have := (List.mem_range'_1.mp hmem).2
    omega

theorem progressBelow_add (first count more : Nat) :
    progressBelow host l top first (count + more) =
      progressBelow host l top first count >>= fun _ =>
        progressBelow host l top (first + count) more := by
  rw [progressBelow, ← List.range'_append_1, List.forM_append]
  rfl

theorem walk_skip (exec call : CellId → Step σ Unit) (head : CellId) (left skip offset : Nat) :
    walk exec call head left skip offset = walk exec call head (left - skip) 0 (offset + skip) := by
  induction skip generalizing left offset with
  | zero => rfl
  | succ skip ih =>
    cases left with
    | zero =>
      rw [Nat.zero_sub]
      rfl
    | succ left => rw [walk, ih, Nat.add_sub_add_right, Nat.add_right_comm, Nat.add_assoc]

/-- The walk of `top` is under way and has come to `p`: what it needs for the `left` cells ahead. -/
structure Ahead (host : Host σ) (l : Layout) (top p left : Nat) (n : Machine σ) : Prop where
  built : n.Built
  used : top + l.extent top ≤ n.layout.used
  keeps : ∀ k < left, (progressBelow host l top p k n).answer = .ok () →
    ∀ i, top ≤ i → i < top + l.extent top →
      (progressBelow host l top p k n).machine.layout.extent i = l.extent i
  fits : ∀ k < left, l.extent (p + k) ≠ 1 → (progressBelow host l top p k n).answer = .ok () →
    n.callDepth + (l.level top (p + k) - 1) ≤ n.settings.maxCallDepth

theorem Ahead.advance {left count : Nat} (h : Ahead host l top p left n) (hcount : count ≤ left)
    (hok : (progressBelow host l top p count n).answer = .ok ()) :
    Ahead host l top (p + count) (left - count) (progressBelow host l top p count n).machine := by
  have hmoving : (progressBelow host l top p count).Moving fun _ => False :=
    forM_moving visitBelow_moving _
  have hmoves := hmoving n
  have hbalanced : (progressBelow host l top p count).Balanced := balanced_forM visitBelow_balanced _
  obtain ⟨hsettings, hdepth⟩ := hbalanced.depth n
  have hnext : ∀ k, progressBelow host l top p (count + k) n =
      (progressBelow host l top (p + count) k
        (progressBelow host l top p count n).machine).after
          (progressBelow host l top p count n).events := by
    intro k
    rw [progressBelow_add]
    exact bind_of_ok hok _
  refine ⟨(h.built.moves hmoves).1, Nat.le_trans h.used (h.built.moves_used hmoves), ?_, ?_⟩
  · intro k hk hokk i hi hin
    have hkeep := h.keeps (count + k) (by omega)
    rw [hnext k] at hkeep
    exact hkeep hokk i hi hin
  · intro k hk hword hokk
    have hfit := h.fits (count + k) (by omega) (by rwa [← Nat.add_assoc])
    rw [hnext k, ← Nat.add_assoc] at hfit
    change (progressBelow host l top p count n).machine.settings = _ at hsettings
    change (progressBelow host l top p count n).machine.callDepth = _ at hdepth
    rw [hsettings, hdepth]
    exact hfit hokk

/-- Where the walk stands at a clear place, the cell there is the one that the layout tells. -/
theorem Ahead.cell {left : Nat} (h : Ahead host l top p (left + 1) n) (hp : top ≤ p)
    (hend : p + (left + 1) = top + l.extent top) :
    ∃ cell, n.cells.get ⟨p⟩ = .ok cell ∧ cell.extent = l.extent p := by
  have hlt : p < n.cells.used := by
    have := h.used
    change top + l.extent top ≤ n.cells.used at this
    omega
  obtain ⟨cell, hg⟩ : ∃ cell, n.cells.get ⟨p⟩ = .ok cell := CellArena.get_of_lt h.built.room hlt
  refine ⟨cell, hg, ?_⟩
  rw [← CellArena.extentAt_of_get hg]
  exact h.keeps 0 (by omega) rfl p hp (by omega)

/-- One word inside the walk is executed as its own execution tells. -/
theorem Ahead.inner {left : Nat} (h : Ahead host l top p left n) (hc : l.Clear top p)
    (hp : top < p) (hend : p + left = top + l.extent top)
    (hin : p + l.extent p ≤ top + l.extent top) (hword : l.extent p ≠ 1) :
    Keeps host l p n ∧ Fits host l p n := by
  refine ⟨fun k hk hok i hi hlt => ?_, fun k hk hvisit hok => ?_⟩
  · rw [← progressBelow_inner hc hp (Nat.le_of_lt hk) hin hword] at hok ⊢
    exact h.keeps k (by omega) hok i (by omega) (by omega)
  · rw [← progressBelow_inner hc hp (Nat.le_of_lt hk) hin hword] at hok
    have hne : l.extent (p + k) ≠ 1 := by
      rcases hvisit with rfl | hne
      · exact hword
      · exact hne
    have hfit := h.fits k (by omega) hne hok
    rw [level_inner hc hp (Nat.le_add_right p k) (by omega) hword, Nat.add_sub_cancel] at hfit
    exact hfit

/-- The walk does on each cell ahead what the execution of `top` does there, if each word ahead is
executed as its own execution tells. -/
theorem walk_progress (hl : l.Laminar top) (hpos : ∀ i, 1 ≤ l.extent i)
    (hexec : ∀ p n, top < p → p < top + l.extent top → n.Built → p + l.extent p ≤ n.layout.used →
      Keeps host l p n → Fits host l p n →
      exec host ⟨p⟩ n = progress host l p (l.extent p) n)
    (left : Nat) {p : Nat} {n : Machine σ} (hp : top < p) (hc : l.Clear top p)
    (hend : p + left = top + l.extent top) (h : Ahead host l top p left n) :
    walk (exec host) (call host) ⟨top⟩ left 0 (p - top) n = progressBelow host l top p left n := by
  induction left using Nat.strongRecOn generalizing p n with
  | ind left ih =>
    cases left with
    | zero => rfl
    | succ left =>
      have hin := hl.within p (by omega) (by omega)
      have hposp := hpos p
      obtain ⟨cell, hg, hcell⟩ := h.cell (by omega) hend
      have hshift : (⟨top⟩ : CellId).shift? (p - top) = some ⟨p⟩ := by
        have hlt : p < n.cells.used := (CellArena.get_eq_ok.mp hg).1
        have hnum := h.built.numbered
        have hword : (⟨top⟩ : CellId).number + (p - top) < wordLimit := by
          change top + 1 + (p - top) < wordLimit
          omega
        have hsum : top + (p - top) = p := by omega
        rw [CellId.shift?, if_pos hword]
        exact congrArg (fun i => some (CellId.mk i)) hsum
      have hsegment : visit (exec host) (call host) cell ⟨p⟩ n =
          progressBelow host l top p (l.extent p) n := by
        unfold visit
        by_cases hleaf : l.extent p = 1
        · rw [if_pos (hcell.trans hleaf), hleaf, progressBelow, List.range'_one, List.forM_cons,
            List.forM_nil, visitBelow, if_pos hleaf, level_leaf hc hp (by omega) hleaf]
          exact (congrFun (bind_pure_unit (x := call host ⟨p⟩)) n).symm
        · rw [if_neg (hcell ▸ hleaf), progressBelow_inner hc hp (Nat.le_refl _) hin hleaf]
          obtain ⟨hkeeps, hfits⟩ := h.inner hc hp hend hin hleaf
          exact hexec p n hp (by omega) h.built (Nat.le_trans hin h.used) hkeeps hfits
      have hsplit : left + 1 = l.extent p + (left - (l.extent p - 1)) := by omega
      rw [walk_of_cell hshift hg, hcell]
      conv_rhs => rw [hsplit, progressBelow_add]
      apply bind_congr hsegment
      intro _ hok
      rw [walk_skip]
      have hoffset : p - top + 1 + (l.extent p - 1) = p + l.extent p - top := by omega
      rw [hoffset]
      apply ih _ (by omega) (by omega) (hl.clear_next hc hp (by omega) hpos) (by omega)
      have hnext := h.advance (show l.extent p ≤ left + 1 by omega) hok
      rwa [show left + 1 - l.extent p = left - (l.extent p - 1) by omega] at hnext

/-- The first thing on the way below a compound word is the note about its head. -/
theorem progressBelow_head (hword : l.extent top ≠ 1) (count : Nat) :
    progressBelow host l top top (1 + count) =
      log (.walked ⟨top⟩ (l.extent top)) >>= fun _ => progressBelow host l top (top + 1) count := by
  rw [progressBelow_add, progressBelow, List.range'_one, List.forM_cons, List.forM_nil, visitBelow,
    if_neg hword, bind_assoc]
  rfl

theorem Ahead.start (hword : l.extent top ≠ 1) (hpos : 1 ≤ l.extent top) (hb : m.Built)
    (hused : top + l.extent top ≤ m.layout.used) (hk : Keeps host l top m)
    (hf : Fits host l top m) :
    Ahead host l top (top + 1) (l.extent top - 1) { m with callDepth := m.callDepth + 1 } := by
  have hbegin : ∀ k, k < l.extent top - 1 → progress host l top (k + 1) m =
      nested (log (.walked ⟨top⟩ (l.extent top)) >>= fun _ =>
        progressBelow host l top (top + 1) k) m := by
    intro k hk
    rw [progress_eq_nested (by omega), Nat.add_comm, progressBelow_head hword]
  refine ⟨hb.atDepth _, hused, ?_, ?_⟩
  · intro k hlt hok i hi hin
    have hkeep := hk (k + 1) (by omega)
    rw [hbegin k hlt, nested_apply, log_bind] at hkeep
    exact hkeep hok i hi hin
  · intro k hlt hne hok
    have hfit := hf (k + 1) (by omega) (.inr (by rwa [show top + (k + 1) = top + 1 + k by omega]))
    rw [hbegin k hlt, nested_apply, log_bind, show top + (k + 1) = top + 1 + k by omega] at hfit
    have := hfit hok
    have : 1 ≤ l.level top (top + 1 + k) := level_pos (by omega) (by omega)
    change m.callDepth + 1 + _ ≤ m.settings.maxCallDepth
    omega

/-- Executing `top` does on each cell of its run, one after another, what is to be done there. -/
theorem exec_progress (hpos : ∀ i, 1 ≤ l.extent i) (hl : l.Laminar top) (hb : m.Built)
    (hused : top + l.extent top ≤ m.layout.used) (hk : Keeps host l top m)
    (hf : Fits host l top m) : exec host ⟨top⟩ m = progress host l top (l.extent top) m := by
  induction hsize : l.extent top using Nat.strongRecOn generalizing top m with
  | ind size ih =>
    subst hsize
    have htop := hpos top
    have hdepth := hf 0 htop (.inl rfl) rfl
    rw [Nat.add_zero, level_self htop] at hdepth
    obtain ⟨cell, hg⟩ : ∃ cell, m.cells.get ⟨top⟩ = .ok cell := CellArena.get_of_lt hb.room
      (show top < m.cells.used by change _ ≤ m.cells.used at hused; omega)
    have hcell : cell.extent = l.extent top := by
      rw [← CellArena.extentAt_of_get hg]
      exact hk 0 htop rfl top (Nat.le_refl _) (by omega)
    have hgin : ({ m with callDepth := m.callDepth + 1 } : Machine σ).cells.get ⟨top⟩ = .ok cell := hg
    have hinside : execRun host (exec host) ⟨top⟩ { m with callDepth := m.callDepth + 1 } =
        progressBelow host l top top (l.extent top) { m with callDepth := m.callDepth + 1 } := by
      by_cases hleaf : l.extent top = 1
      · rw [execRun_of_leaf host hgin (hcell.trans hleaf), hleaf, progressBelow, List.range'_one,
          List.forM_cons, List.forM_nil, visitBelow, if_pos hleaf, level_self htop]
        exact (congrFun (bind_pure_unit (x := call host ⟨top⟩)) _).symm
      · rw [execRun_of_word host hgin (hcell ▸ hleaf), hcell,
          show l.extent top = 1 + (l.extent top - 1) by omega, progressBelow_head hleaf]
        refine bind_congr (by rw [Nat.add_sub_cancel' htop]) fun _ _ => ?_
        have hwalk := walk_progress (p := top + 1) hl hpos
          (fun p n hp hin hbn husedn hkn hfn => ih (l.extent p)
            (by have := hl.within p (by omega) hin; omega) (hl.inner hp hin) hbn husedn hkn hfn rfl)
          (l.extent top - 1) (Nat.lt_succ_self top) (fun i hi hlt => by omega) (by omega)
          (Ahead.start hleaf htop hb hused hk hf)
        rw [Nat.add_sub_cancel_left] at hwalk
        rw [Nat.add_sub_cancel_left]
        exact hwalk
    rw [exec_of_lt host hdepth, progress_eq_nested (Nat.le_refl _), nested_apply, nested_apply,
      hinside]

theorem progress_succ (host : Host σ) (l : Layout) (top count : Nat) :
    progress host l top (count + 1) =
      progress host l top count >>= fun _ => visitAt host l top (top + count) := by
  rw [progress, List.range'_1_concat, List.forM_append, List.forM_cons, List.forM_nil]
  exact congrArg _ (funext fun _ => bind_pure_unit)

/-- What has gone wrong stays the outcome. -/
theorem progress_of_error {count : Nat} {fault : Fault}
    (h : (progress host l top count m).answer = .error fault) (more : Nat) :
    progress host l top (count + more) m = progress host l top count m := by
  induction more with
  | zero => rfl
  | succ more ih =>
    rw [← Nat.add_assoc, progress_succ, bind_of_error (by rw [ih]; exact h), ih, ← h]

theorem progress_of_call {count : Nat} (hleaf : l.extent (top + count) = 1)
    (hok : (progress host l top count m).answer = .ok ()) :
    progress host l top (count + 1) m =
      (callAt host l top (top + count) (progress host l top count m).machine).after
        (progress host l top count m).events := by
  rw [progress_succ, bind_of_ok hok, visitAt, if_pos hleaf]

/-- Built machines are all that a run comes to, at rest or under way. There the execution of a head
whose run is laminar goes over the cells of the run once, in ascending order. It calls the leaves and
only notes the heads. If all these calls succeed, so does the execution; the first call that fails is
its end. -/
theorem exec_order (host : Host σ) {m : Machine σ} (hb : m.Built) {head : CellId}
    (hlt : head.index < m.cells.used) (hl : m.layout.Laminar head.index)
    (hk : Keeps host m.layout head.index m) (hf : Fits host m.layout head.index m) :
    exec host head m = progress host m.layout head.index (m.layout.extent head.index) m ∧
    ((∀ k < m.layout.extent head.index, m.layout.extent (head.index + k) = 1 →
      (progress host m.layout head.index k m).answer = .ok () →
      (callAt host m.layout head.index (head.index + k)
        (progress host m.layout head.index k m).machine).answer = .ok ()) →
      (exec host head m).answer = .ok ()) ∧
    (∀ k < m.layout.extent head.index, m.layout.extent (head.index + k) = 1 →
      (progress host m.layout head.index k m).answer = .ok () →
      ∀ fault, (callAt host m.layout head.index (head.index + k)
        (progress host m.layout head.index k m).machine).answer = .error fault →
      exec host head m = ⟨.error fault,
        (callAt host m.layout head.index (head.index + k)
          (progress host m.layout head.index k m).machine).machine,
        (progress host m.layout head.index k m).events ++
          (callAt host m.layout head.index (head.index + k)
            (progress host m.layout head.index k m).machine).events⟩) := by
  have hall := exec_progress hb.sound.positive hl hb (hb.sound.inside _ hlt) hk hf
  refine ⟨hall, fun hcalls => ?_, fun k hlt hleaf hok fault hfault => ?_⟩
  · have hok : ∀ k ≤ m.layout.extent head.index,
        (progress host m.layout head.index k m).answer = .ok () := by
      intro k
      induction k with
      | zero => exact fun _ => rfl
      | succ k ih =>
        intro hle
        have hprev := ih (by omega)
        by_cases hleaf : m.layout.extent (head.index + k) = 1
        · rw [progress_of_call hleaf hprev]
          exact hcalls k hle hleaf hprev
        · rw [progress_succ, bind_of_ok hprev, visitAt, if_neg hleaf]
          rfl
    rw [hall]
    exact hok _ (Nat.le_refl _)
  · have hcall := progress_of_call hleaf hok
    have herror : (progress host m.layout head.index (k + 1) m).answer = .error fault := by
      rw [hcall]
      exact hfault
    have hend := progress_of_error herror (m.layout.extent head.index - (k + 1))
    rw [Nat.add_sub_cancel' hlt, hcall] at hend
    rw [hall, hend]
    exact Outcome.ext hfault rfl rfl

theorem exec_order_of_nestedWords :
    let m := (Stock.nestedWords.start Stock.host Stock.small).machine
    m.Built ∧ m.layout.Laminar 0 ∧ Keeps Stock.host m.layout 0 m ∧ Fits Stock.host m.layout 0 m ∧
    exec Stock.host ⟨0⟩ m = progress Stock.host m.layout 0 4 m ∧
    (exec Stock.host ⟨0⟩ m).answer = .ok () := by
  intro m
  have hb : m.Built :=
    ((Run.created #[] (Array.replicate 4 .empty) ⟨4, .strict⟩ none).operated
      (.program Stock.nestedWords) : Run Stock.host _ m).built.1
  have hextent : m.layout.extent 0 = 4 := by decide +kernel
  have hwithin : ∀ i < 4, i + m.layout.extent i ≤ 4 := by decide +kernel
  have hapart : ∀ j < 4, ∀ i < j, 0 < i →
      i + m.layout.extent i ≤ j ∨ j + m.layout.extent j ≤ i + m.layout.extent i := by decide +kernel
  have hsteady : ∀ k < 4, ∀ i < 4,
      (progress Stock.host m.layout 0 k m).machine.layout.extent i = m.layout.extent i := by
    decide +kernel
  have hlevel : ∀ k < 4, m.callDepth + m.layout.level 0 (0 + k) ≤ m.settings.maxCallDepth := by
    decide +kernel
  have hlt : (⟨0⟩ : CellId).index < m.cells.used := by decide +kernel
  have hcalls : ∀ k < 4, m.layout.extent (0 + k) = 1 →
      (progress Stock.host m.layout 0 k m).answer = .ok () →
      (callAt Stock.host m.layout 0 (0 + k)
        (progress Stock.host m.layout 0 k m).machine).answer = .ok () := by
    decide +kernel
  have hl : m.layout.Laminar 0 := by
    refine ⟨fun i _ hi => ?_, fun i j hi hij hj => hapart j (by omega) i hij hi⟩
    have := hwithin i (by omega)
    omega
  have hk : Keeps Stock.host m.layout 0 m := fun k hk _ i _ hi => hsteady k (by omega) i (by omega)
  have hf : Fits Stock.host m.layout 0 m := fun k hk _ _ => hlevel k (by omega)
  obtain ⟨hall, hok, -⟩ := exec_order Stock.host hb hlt hl hk hf
  rw [hextent] at hall hok
  exact ⟨hb, hl, hk, hf, hall, hok hcalls⟩

end Machine
end ThreadedCode
