import ThreadedCode.Proofs.Nesting
import ThreadedCode.Proofs.Walks
import ThreadedCode.Stock

/-!
Which cells one execution comes to, in what order. While runs stay well nested no cell is come to
twice, and a finished word is never left.
-/
namespace ThreadedCode

variable {σ : Signature} {given : Value → Prop}

namespace Machine

/-- The cells that a walk comes to, those in the runs of inner words included. -/
def walkVisits (exec call : CellId → Step σ Unit) (inner : CellId → Machine σ → List CellId)
    (head : CellId) : (left skip offset : Nat) → Machine σ → List CellId
  | 0, _, _, _ => []
  | left + 1, skip + 1, offset, m => walkVisits exec call inner head left skip (offset + 1) m
  | left + 1, 0, offset, m =>
    match head.shift? offset with
    | none => []
    | some id =>
      match m.cells.get id with
      | .error _ => []
      | .ok cell =>
        let o := visit exec call cell id m
        (if cell.extent = 1 then [id] else inner id m) ++
          match o.answer with
          | .ok _ => walkVisits exec call inner head left (cell.extent - 1) (offset + 1) o.machine
          | .error _ => []

/-- The cells that the execution of a head comes to with `budget` levels of nesting left: the head,
and what its walk comes to. -/
def visitsWithin (host : Host σ) : (budget : Nat) → CellId → Machine σ → List CellId
  | 0, _, _ => []
  | budget + 1, head, m =>
    match m.cells.get head with
    | .error _ => []
    | .ok cell =>
      let exec := execWithin host budget
      head :: walkVisits exec (callWith (invokeUsing host exec)) (visitsWithin host budget) head
        (cell.extent - 1) 0 1 { m with callDepth := m.callDepth + 1 }

/-- The cells that the execution of a head comes to, in order. -/
def visits (host : Host σ) (head : CellId) (m : Machine σ) : List CellId :=
  visitsWithin host m.callBudget head m

variable {m : Machine σ} {exec call : CellId → Step σ Unit}
  {inner : CellId → Machine σ → List CellId} {head : CellId}

theorem visit_moving (he : ∀ id, (exec id).Moving given) (hc : ∀ id, (call id).Moving given)
    (cell : Cell σ) (id : CellId) : (visit exec call cell id).Moving given := by
  unfold visit
  split
  · exact hc id
  · exact he id

theorem walkVisits_of_skipped {left skip : Nat} (h : left ≤ skip) (offset : Nat) :
    walkVisits exec call inner head left skip offset m = [] := by
  induction left generalizing skip offset with
  | zero => rfl
  | succ left ih =>
    obtain ⟨skip, rfl⟩ : ∃ k, skip = k + 1 := ⟨skip - 1, by omega⟩
    exact ih (by omega) (offset + 1)

/-- A walk comes to nothing, or to one cell and then to what the rest of the walk comes to. -/
theorem walkVisits_cases (exec call : CellId → Step σ Unit) (inner : CellId → Machine σ → List CellId)
    (head : CellId) (left offset : Nat) (m : Machine σ) :
    walkVisits exec call inner head (left + 1) 0 offset m = [] ∨
    ∃ id cell, id.index = head.index + offset ∧ head.shift? offset = some id ∧
      m.cells.get id = .ok cell ∧ ∃ rest,
      walkVisits exec call inner head (left + 1) 0 offset m =
        (if cell.extent = 1 then [id] else inner id m) ++ rest ∧
      (rest = [] ∨ ((visit exec call cell id m).answer = .ok () ∧
        rest = walkVisits exec call inner head left (cell.extent - 1) (offset + 1)
          (visit exec call cell id m).machine)) := by
  cases hs : head.shift? offset with
  | none => exact .inl (by simp only [walkVisits, hs])
  | some id =>
    cases hg : m.cells.get id with
    | error fault => exact .inl (by simp only [walkVisits, hs, hg])
    | ok cell =>
      refine .inr ⟨id, cell, CellId.shift?_eq_some hs, rfl, hg, ?_⟩
      simp only [walkVisits, hs, hg]
      cases (visit exec call cell id m).answer with
      | ok u => exact ⟨_, rfl, .inr ⟨rfl, rfl⟩⟩
      | error fault => exact ⟨[], rfl, .inl rfl⟩

/-- A walk only comes to cells at its place or behind it. -/
theorem walkVisits_behind (hin : ∀ id m, ∀ c ∈ inner id m, id.index ≤ c.index)
    {left skip offset : Nat} {m : Machine σ} :
    ∀ c ∈ walkVisits exec call inner head left skip offset m,
      head.index + offset + skip ≤ c.index := by
  induction left generalizing skip offset m with
  | zero => simp [walkVisits]
  | succ left ih =>
    intro c hc
    cases skip with
    | succ skip =>
      have : head.index + (offset + 1) + skip ≤ c.index := ih c hc
      omega
    | zero =>
      rcases walkVisits_cases exec call inner head left offset m with
        hnil | ⟨id, cell, hid, -, -, rest, he, hrest⟩
      · rw [hnil] at hc
        cases hc
      · rw [he] at hc
        rcases List.mem_append.mp hc with hfirst | hlater
        · split at hfirst
          · obtain rfl := List.mem_singleton.mp hfirst
            omega
          · have := hin id m c hfirst
            omega
        · rcases hrest with rfl | ⟨-, rfl⟩
          · cases hlater
          · have := ih c hlater
            omega

theorem visitsWithin_behind (host : Host σ) (budget : Nat) (head : CellId) (m : Machine σ) :
    ∀ c ∈ visitsWithin host budget head m, head.index ≤ c.index := by
  induction budget generalizing head m with
  | zero => simp [visitsWithin]
  | succ budget ih =>
    intro c hc
    simp only [visitsWithin] at hc
    split at hc
    · cases hc
    · rcases List.mem_cons.mp hc with rfl | hc
      · exact Nat.le_refl _
      · have := walkVisits_behind ih c hc
        omega

/-- The machine is built, and its runs are well nested. -/
structure Orderly (m : Machine σ) : Prop where
  built : m.Built
  nested : m.layout.WellNested

namespace Orderly

theorem moves {n : Machine σ} {events : List (Event σ)} (h : m.Orderly)
    (hm : Moves given m events n) (ht : m.layout.Tidy events) : n.Orderly :=
  ⟨(h.built.moves hm).1, (h.built.moves_wellNested hm).mpr ⟨h.nested, ht⟩⟩

theorem deeper (h : m.Orderly) : Orderly { m with callDepth := m.callDepth + 1 } :=
  ⟨h.built.atDepth _, h.nested⟩

/-- A run that starts inside a kept one ends inside it. -/
theorem within {old : Layout} {i : Nat} (h : m.Orderly) (hk : old.Kept m.layout i)
    (ho : 1 ≤ old.extent i) {id : CellId} {cell : Cell σ} (hg : m.cells.get id = .ok cell)
    (hi : i ≤ id.index) (hlt : id.index < i + old.extent i) :
    id.index + cell.extent ≤ i + old.extent i := by
  have hself := hk.extent ho
  have he : m.layout.extent id.index = cell.extent := CellArena.extentAt_of_get hg
  by_cases heq : i = id.index
  · rw [← heq] at he ⊢
    omega
  · have := h.nested i id.index (by omega) (CellArena.get_eq_ok.mp hg).1
    omega

end Orderly

/-- Tidiness splits where a walk goes on. -/
theorem walk_tidy {l : Layout} {left offset : Nat} {id : CellId} {cell : Cell σ}
    (hs : head.shift? offset = some id) (hg : m.cells.get id = .ok cell)
    (ht : l.Tidy (walk exec call head (left + 1) 0 offset m).events) :
    l.Tidy (visit exec call cell id m).events ∧
    ((visit exec call cell id m).answer = .ok () →
      (l.follow (visit exec call cell id m).events).Tidy
        (walk exec call head left (cell.extent - 1) (offset + 1)
          (visit exec call cell id m).machine).events) := by
  rw [walk_of_cell hs hg] at ht
  cases ha : (visit exec call cell id m).answer with
  | ok u =>
    rw [Step.bind_of_ok ha] at ht
    obtain ⟨hfirst, hrest⟩ := (Layout.tidy_append ..).mp ht
    exact ⟨hfirst, fun _ => hrest⟩
  | error fault =>
    rw [Step.bind_of_error ha] at ht
    exact ⟨ht, fun h => by cases h⟩

/-- A walk inside a kept run does not leave it. -/
theorem walkVisits_kept {old : Layout} {i : Nat}
    (he : ∀ id, (exec id).Moving given) (hc : ∀ id, (call id).Moving given)
    (hin : ∀ id m, m.Orderly → old.Kept m.layout i → m.layout.Tidy (exec id m).events →
      i ≤ id.index → id.index < i + old.extent i → ∀ c ∈ inner id m, c.index < i + old.extent i)
    {left skip offset : Nat} {m : Machine σ} (hm : m.Orderly) (hk : old.Kept m.layout i)
    (ht : m.layout.Tidy (walk exec call head left skip offset m).events)
    (hfrom : i ≤ head.index + offset)
    (hto : head.index + offset + left ≤ i + old.extent i) :
    ∀ c ∈ walkVisits exec call inner head left skip offset m, c.index < i + old.extent i := by
  induction left generalizing skip offset m with
  | zero => simp [walkVisits]
  | succ left ih =>
    cases skip with
    | succ skip => exact ih hm hk ht (by omega) (by omega)
    | zero =>
      rcases walkVisits_cases exec call inner head left offset m with
        hnil | ⟨id, cell, hid, hs, hg, rest, heq, hrest⟩
      · intro c hmem
        rw [hnil] at hmem
        cases hmem
      · obtain ⟨hfirst, hlater⟩ := walk_tidy hs hg ht
        have hmoves := visit_moving he hc cell id m
        intro c hmem
        rw [heq] at hmem
        rcases List.mem_append.mp hmem with hmem | hmem
        · split at hmem
          · obtain rfl := List.mem_singleton.mp hmem
            omega
          · rename_i hne
            refine hin id m hm hk ?_ (by omega) (by omega) c hmem
            simpa [visit, hne] using hfirst
        · rcases hrest with rfl | ⟨hok, rfl⟩
          · cases hmem
          · have hfollow := (hm.built.moves hmoves).2
            refine ih (hm.moves hmoves hfirst) (hm.built.moves_kept hmoves hk hfirst) ?_
              (by omega) (by omega) c hmem
            rw [hfollow]
            exact hlater hok

theorem nested_tidy {s : Step σ Unit} {l : Layout} :
    l.Tidy (nested s m).events ↔ l.Tidy (s { m with callDepth := m.callDepth + 1 }).events := by
  rw [nested_apply]

theorem execRun_tidy (host : Host σ) {cell : Cell σ} (hg : m.cells.get head = .ok cell)
    (ht : m.layout.Tidy (execRun host exec head m).events) :
    m.layout.Tidy
      (walk exec (callWith (invokeUsing host exec)) head (cell.extent - 1) 0 1 m).events := by
  by_cases hleaf : cell.extent = 1
  · simp [hleaf, walk, Layout.Tidy]
  · rw [execRun_of_word host hg hleaf, Step.log_bind] at ht
    obtain ⟨notices, hn⟩ := Step.log_events (.walked head cell.extent) m
    have hrest := ((Layout.tidy_append ..).mp ht).2
    rwa [hn, Layout.follow_logged] at hrest

/-- An execution that starts inside a kept run does not leave it. -/
theorem visitsWithin_kept (host : Host σ) {old : Layout} {i : Nat} (ho : 1 ≤ old.extent i)
    (budget : Nat) (head : CellId) (m : Machine σ) (hm : m.Orderly) (hk : old.Kept m.layout i)
    (ht : m.layout.Tidy (execWithin host budget head m).events) (hi : i ≤ head.index)
    (hlt : head.index < i + old.extent i) :
    ∀ c ∈ visitsWithin host budget head m, c.index < i + old.extent i := by
  induction budget generalizing head m with
  | zero => simp [visitsWithin]
  | succ budget ih =>
    cases hg : m.cells.get head with
    | error fault => simp [visitsWithin, hg]
    | ok cell =>
      have hin := hm.within hk ho hg hi hlt
      have hex : ∀ id, (execWithin host budget id).Moving (fun _ => False) :=
        execWithin_moving host budget
      have htidy := execRun_tidy (m := { m with callDepth := m.callDepth + 1 }) host hg
        (nested_tidy.mp ht)
      have hwalk := walkVisits_kept hex (callWith_moving (invokeUsing_invoking host hex))
        (fun id m hm hk ht hi hlt => ih id m hm hk ht hi hlt) hm.deeper hk htidy
        (by omega) (by omega)
      intro c hc
      simp only [visitsWithin, hg] at hc
      rcases List.mem_cons.mp hc with rfl | hc
      · exact hlt
      · exact hwalk c hc

/-- The execution of a word that ends before the last of the cells handed out does not leave it. -/
theorem visitsWithin_inside (host : Host σ) (budget : Nat) (head : CellId) (m : Machine σ)
    (hm : m.Orderly) (ht : m.layout.Tidy (execWithin host budget head m).events)
    (hword : 2 ≤ m.layout.extent head.index)
    (hend : head.index + m.layout.extent head.index < m.layout.used) :
    ∀ c ∈ visitsWithin host budget head m, c.index < head.index + m.layout.extent head.index := by
  have hclosed : ⟨head.index⟩ ∉ m.layout.heads := by
    intro hopen
    have hlast : head.index + m.layout.extent head.index = m.layout.used :=
      hm.built.sound.ends _ hopen
    omega
  have hfin := Layout.Finished.of_run hm.built.sound (by omega) hclosed hword
  exact visitsWithin_kept host (by omega) budget head m hm (.refl hfin) ht (Nat.le_refl _) (by omega)

/-- A walk that ends within the cells handed out comes to each cell once, in ascending order. A word
that can still grow reaches to the last cell, so that the walk ends with it. -/
theorem walkVisits_ascending (host : Host σ) (budget : Nat)
    (ih : ∀ id m, m.Orderly → m.layout.Tidy (execWithin host budget id m).events →
      (visitsWithin host budget id m).Pairwise fun a b => a.index < b.index)
    {left skip offset : Nat} {m : Machine σ} (hm : m.Orderly)
    (ht : m.layout.Tidy (walk (execWithin host budget)
      (callWith (invokeUsing host (execWithin host budget))) head left skip offset m).events)
    (hto : head.index + offset + left ≤ m.layout.used) :
    (walkVisits (execWithin host budget) (callWith (invokeUsing host (execWithin host budget)))
      (visitsWithin host budget) head left skip offset m).Pairwise fun a b => a.index < b.index := by
  have hex : ∀ id, (execWithin host budget id).Moving (fun _ => False) :=
    execWithin_moving host budget
  have hcall := callWith_moving (invokeUsing_invoking host hex)
  induction left generalizing skip offset m with
  | zero => exact .nil
  | succ left ihl =>
    cases skip with
    | succ skip => exact ihl hm ht (by omega)
    | zero =>
      rcases walkVisits_cases (execWithin host budget)
        (callWith (invokeUsing host (execWithin host budget))) (visitsWithin host budget) head left
        offset m
        with hnil | ⟨id, cell, hid, hs, hg, rest, heq, hrest⟩
      · rw [hnil]
        exact .nil
      obtain ⟨hfirst, hlater⟩ := walk_tidy hs hg ht
      have hmoves := visit_moving hex hcall cell id m
      have hext : m.layout.extent id.index = cell.extent := CellArena.extentAt_of_get hg
      have hlt : id.index < m.layout.used := (CellArena.get_eq_ok.mp hg).1
      rw [heq]
      refine List.pairwise_append.mpr ⟨?_, ?_, ?_⟩
      · split
        · exact List.pairwise_singleton ..
        · rename_i hne
          exact ih id m hm (by simpa [visit, hne] using hfirst)
      · rcases hrest with rfl | ⟨hok, rfl⟩
        · exact .nil
        · have hfollow := (hm.built.moves hmoves).2
          have hused := hm.built.moves_used hmoves
          refine ihl (hm.moves hmoves hfirst) ?_ (by omega)
          rw [hfollow]
          exact hlater hok
      · intro c hcmem d hdmem
        have hpos := hm.built.sound.positive id.index
        have hbehind : rest ≠ [] → head.index + (offset + 1) + (cell.extent - 1) ≤ d.index ∧
            cell.extent - 1 < left := by
          intro hne
          rcases hrest with rfl | ⟨-, rfl⟩
          · exact absurd rfl hne
          · refine ⟨walkVisits_behind (visitsWithin_behind host budget) d hdmem, ?_⟩
            by_contra hge
            exact hne (walkVisits_of_skipped (by omega) _)
        obtain ⟨hd, hleft⟩ := hbehind (List.ne_nil_of_mem hdmem)
        split at hcmem
        · obtain rfl := List.mem_singleton.mp hcmem
          omega
        · rename_i hne
          have htidy : m.layout.Tidy (execWithin host budget id m).events := by
            simpa [visit, hne] using hfirst
          have hinside := visitsWithin_inside host budget id m hm htidy (by omega) (by omega) c hcmem
          omega

theorem visitsWithin_ascending (host : Host σ) (budget : Nat) (head : CellId) (m : Machine σ)
    (hm : m.Orderly) (ht : m.layout.Tidy (execWithin host budget head m).events) :
    (visitsWithin host budget head m).Pairwise fun a b => a.index < b.index := by
  induction budget generalizing head m with
  | zero => exact .nil
  | succ budget ih =>
    cases hg : m.cells.get head with
    | error fault => simp [visitsWithin, hg]
    | ok cell =>
      have htidy := execRun_tidy (m := { m with callDepth := m.callDepth + 1 }) host hg
        (nested_tidy.mp ht)
      have hin : head.index + m.layout.extent head.index ≤ m.layout.used :=
        hm.built.sound.inside _ (CellArena.get_eq_ok.mp hg).1
      have hpos : 1 ≤ m.layout.extent head.index := hm.built.sound.positive _
      have hext : m.layout.extent head.index = cell.extent := CellArena.extentAt_of_get hg
      simp only [visitsWithin, hg]
      refine List.pairwise_cons.mpr ⟨fun c hc => ?_, ?_⟩
      · have := walkVisits_behind (visitsWithin_behind host budget) c hc
        omega
      · apply walkVisits_ascending host budget ih hm.deeper htidy
        change head.index + 1 + (cell.extent - 1) ≤ m.layout.used
        omega

end Machine

theorem Onward.run {host : Host σ} {past events : List (Event σ)} {m n : Machine σ}
    (h : Run host past m) (ho : Onward host m events n) : Run host (past ++ events) n := by
  induction ho with
  | here => simpa using h
  | operated _ op ih =>
    rw [← List.append_assoc]
    exact ih.operated op

namespace Run

open Machine Layout

variable {host : Host σ} {past events : List (Event σ)} {m n : Machine σ}

theorem wellNested_iff (h : Run host past m) : m.layout.WellNested ↔ empty.Tidy past := by
  induction h with
  | created bytes cells settings verbosity =>
    refine ⟨fun _ => trivial, fun _ i j _ hj => absurd hj ?_⟩
    exact Nat.not_lt_zero j
  | emptied h ih =>
    refine ⟨fun _ => trivial, fun _ i j _ hj => absurd hj ?_⟩
    exact Nat.not_lt_zero j
  | operated h op ih =>
    rw [h.built.1.moves_wellNested (op.moves host _), ih, tidy_append]
    rw [h.built.2]
    rfl

theorem orderly (h : Run host past m) (ht : empty.Tidy past) : m.Orderly :=
  ⟨h.built.1, h.wellNested_iff.mpr ht⟩

theorem tidy_onward (h : Run host past m) : empty.Tidy (past ++ events) ↔
    empty.Tidy past ∧ m.layout.Tidy events := by
  rw [tidy_append, h.built.2]
  rfl

/-- What lies in the run of a finished word stays as it is. -/
theorem kept_onward (h : Run host past m) (ho : Onward host m events n)
    (ht : empty.Tidy (past ++ events)) {i : Nat} (hf : m.layout.Finished i) :
    m.layout.Kept n.layout i := by
  induction ho with
  | here => exact .refl hf
  | @operated events n ho op ih =>
    rw [← List.append_assoc] at ht
    have hn := ho.run h
    obtain ⟨hfirst, hrest⟩ := hn.tidy_onward.mp ht
    exact hn.built.1.moves_kept (op.moves host n) (ih hfirst) hrest

/-- Runs are well nested exactly as long as no cell has been handed out while an open word started
inside the run of a closed one. As long as that is so, neither the run of a finished word nor what
its execution comes to ever changes its bounds, and no execution comes to a cell twice. -/
theorem nesting (h : Run host past m) :
    (m.layout.WellNested ↔ empty.Tidy past) ∧
    (∀ events n, Onward host m events n → empty.Tidy (past ++ events) →
      ∀ i, m.layout.Finished i →
        (∀ j, i ≤ j → j < i + m.cells.extentAt i → n.cells.extentAt j = m.cells.extentAt j) ∧
        (empty.Tidy (past ++ events ++ (exec host ⟨i⟩ n).events) →
          ∀ c ∈ visits host ⟨i⟩ n, i ≤ c.index ∧ c.index < i + m.cells.extentAt i)) ∧
    (∀ head, empty.Tidy (past ++ (exec host head m).events) →
      (visits host head m).Pairwise fun a b => a.index < b.index) := by
  refine ⟨h.wellNested_iff, fun events n ho ht i hf => ?_, fun head ht => ?_⟩
  · have hk := h.kept_onward ho ht hf
    have hpos := h.built.1.sound.positive i
    refine ⟨hk.cells, fun hte c hc => ⟨visitsWithin_behind host _ _ _ c hc, ?_⟩⟩
    have hn := ho.run h
    obtain ⟨hpast, hexec⟩ := hn.tidy_onward.mp hte
    exact visitsWithin_kept host hpos n.callBudget ⟨i⟩ n (hn.orderly hpast) hk hexec
      (Nat.le_refl i) (by change i < i + m.layout.extent i; omega) c hc
  · obtain ⟨hpast, hexec⟩ := h.tidy_onward.mp ht
    exact visitsWithin_ascending host m.callBudget head m (h.orderly hpast) hexec

end Run

namespace Stock

/-- One word inside another, closed in the reverse order. -/
def nestedWords : Program signature Unit := do
  let outer ← request .newCell
  request (.beginWord outer)
  let inner ← request .newCell
  request (.beginWord inner)
  let leaf ← request .newCell
  request (.bind leaf (.native Word.push1))
  let _ ← request .endWord
  let _ ← request .newCell
  let _ ← request .endWord

/-- A third word is opened on the last cell of the second one, when that is closed. -/
def crossingWords : Program signature Unit := do
  let outer ← request .newCell
  request (.beginWord outer)
  let inner ← request .newCell
  request (.beginWord inner)
  let last ← request .newCell
  let _ ← request .endWord
  request (.beginWord last)
  let leaf ← request .newCell
  request (.bind leaf (.native Word.push1))
  let _ ← request .endWord
  let _ ← request .endWord

/-- A machine with room for a few small words. -/
def small : Machine signature := .create #[] (Array.replicate 4 .empty) ⟨4, .strict⟩ none

end Stock

open Machine Layout Stock in
theorem Run.nesting_of_nestedWords :
    let o := nestedWords.start host small
    Run host o.events o.machine ∧ empty.Tidy o.events ∧ o.machine.layout.Finished 1 ∧
    o.machine.layout.WellNested ∧
    (∀ c ∈ visits host ⟨1⟩ o.machine, 1 ≤ c.index ∧ c.index < 1 + o.machine.cells.extentAt 1) ∧
    (visits host ⟨0⟩ o.machine).Pairwise fun a b => a.index < b.index := by
  intro o
  have hrun : Run host o.events o.machine :=
    (Run.created #[] (Array.replicate 4 .empty) ⟨4, .strict⟩ none).operated (.program nestedWords)
  have htidy : empty.Tidy o.events := by decide +kernel
  have hfinished : o.machine.layout.Finished 1 := ⟨by decide +kernel, by decide +kernel⟩
  have hinner : empty.Tidy (o.events ++ [] ++ (exec host ⟨1⟩ o.machine).events) := by decide +kernel
  have houter : empty.Tidy (o.events ++ (exec host ⟨0⟩ o.machine).events) := by decide +kernel
  obtain ⟨hnested, hkept, honce⟩ := Run.nesting hrun
  refine ⟨hrun, htidy, hfinished, hnested.mpr htidy, ?_, honce ⟨0⟩ houter⟩
  exact (hkept [] o.machine .here (by simpa using htidy) 1 hfinished).2 hinner

open Machine Stock in
/-- The runs of the second and the third word cross, and executing the first one comes to the last
cell twice. -/
theorem Run.crossingWords_cross :
    let o := crossingWords.start host small
    Run host o.events o.machine ∧ ¬ o.machine.layout.WellNested ∧
    visits host ⟨0⟩ o.machine = [⟨0⟩, ⟨1⟩, ⟨2⟩, ⟨3⟩, ⟨3⟩] ∧
    (exec host ⟨0⟩ o.machine).machine.stack.depth = 2 := by
  intro o
  refine ⟨(Run.created #[] (Array.replicate 4 .empty) ⟨4, .strict⟩ none).operated
    (.program crossingWords), fun hw => ?_, by decide +kernel, by decide +kernel⟩
  have hsecond : o.machine.layout.extent 1 = 2 := by decide +kernel
  have hthird : o.machine.layout.extent 2 = 2 := by decide +kernel
  have hused : o.machine.layout.used = 4 := by decide +kernel
  have := hw 1 2 (by omega) (by omega)
  omega

end ThreadedCode
