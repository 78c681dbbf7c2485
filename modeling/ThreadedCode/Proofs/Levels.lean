import Mathlib.Data.List.Nodup
import ThreadedCode.Proofs.Blindness
import ThreadedCode.Stock

/-!
Levels of nesting. More of them change nothing in an execution that is refused none. A link costs one
level and nothing else: a chain of links does what the cell at its end does as many levels deeper, and
a ring of them only ever comes to the limit.
-/
namespace ThreadedCode

variable {σ : Signature} {α : Type} {host : Host σ} {m : Machine σ} {id next target : CellId}
  {links : List CellId}

namespace Outcome

/-- The outcome with its machine at another depth. -/
def atDepth (depth : Nat) (o : Outcome σ α) : Outcome σ α :=
  { o with machine := { o.machine with callDepth := depth } }

end Outcome

namespace Machine

open Step

end Machine

namespace Stock

end Stock

/-- From the first cell the links, each of them a leaf, lead to the target one after another. -/
inductive LinkPath (a : CellArena σ) : CellId → List CellId → CellId → Prop
  | here (id : CellId) : LinkPath a id [] id
  | link {id next target : CellId} {rest : List CellId} {cell : Cell σ} (hg : a.get id = .ok cell)
    (hleaf : cell.extent = 1) (hlinked : cell = cell.linked next)
    (hrest : LinkPath a next rest target) : LinkPath a id (id :: rest) target

namespace LinkPath

variable {a : CellArena σ} {rest : List CellId}

theorem append (h : LinkPath a id links next) (h' : LinkPath a next rest target) :
    LinkPath a id (links ++ rest) target := by
  induction h with
  | here => exact h'
  | link hg hleaf hlinked _ ih => exact .link hg hleaf hlinked (ih h')

/-- A ring of links can be gone round as often as one likes. -/
theorem around (h : LinkPath a id links id) (n : Nat) :
    LinkPath a id (List.replicate n links).flatten id := by
  induction n with
  | zero => exact .here id
  | succ n ih =>
    rw [List.replicate_succ, List.flatten_cons]
    exact h.append ih

end LinkPath

namespace Machine

open Step

/-- Linking makes a leaf a path of one link. -/
theorem link_path {source dest : CellId} (h : (link source dest m).answer = .ok ())
    (hleaf : m.cells.extentAt dest.index = 1) :
    LinkPath (link source dest m).machine.cells dest [dest] source := by
  simp only [link, bind_apply, get_apply, lift_apply, Outcome.bind_ok, Outcome.after_nil] at h ⊢
  cases hs : m.cells.get source with
  | error fault =>
    rw [hs] at h
    cases h
  | ok _ =>
    rw [hs, Outcome.bind_ok, Outcome.after_nil] at h
    cases hg : m.cells.get dest with
    | error fault =>
      rw [changeCell_of_error hg] at h
      cases h
    | ok cell =>
      rw [Outcome.bind_ok, Outcome.after_nil, changeCell_of_get hg]
      obtain ⟨hlt, hcell⟩ := CellArena.get_eq_ok.mp hg
      have hput : (m.cells.put dest (cell.linked source)).get dest = .ok (cell.linked source) :=
        CellArena.get_eq_ok.mpr ⟨hlt, CellArena.put_lookup_self _ hcell⟩
      have hextent : cell.extent = 1 := (CellArena.extentAt_of_get hg).symm.trans hleaf
      exact .link hput hextent rfl (.here source)

/-- Below the limit a link does what it leads to, one level deeper. -/
theorem exec_link (host : Host σ) {cell : Cell σ} (hg : m.cells.get id = .ok cell)
    (hleaf : cell.extent = 1) (hlinked : cell = cell.linked next)
    (hlt : m.callDepth < m.settings.maxCallDepth) :
    exec host id m = ((exec host next { m with callDepth := m.callDepth + 1 }).atDepth
      m.callDepth).after (log (.called id) m).events := by
  have hcall : execRun host (exec host) id { m with callDepth := m.callDepth + 1 } =
      (exec host next { m with callDepth := m.callDepth + 1 }).after (log (.called id) m).events := by
    rw [execRun_of_leaf host (m := { m with callDepth := m.callDepth + 1 }) hg hleaf,
      callWith_of_get (m := { m with callDepth := m.callDepth + 1 }) hg, hlinked]
    exact congrArg _ (invokeUsing_link host (exec host) next _)
  obtain ⟨-, -, hdepth⟩ := (exec_steady host m.settings (m.callDepth + 1) next).eq
    (m := { m with callDepth := m.callDepth + 1 }) rfl rfl
  rw [exec_of_lt host hlt, nested_apply, hcall, Outcome.after_machine, hdepth]
  rfl

end Machine

namespace LinkPath

open Machine Step

/-- Where the levels suffice, a path does what its target does, a level deeper for every link. -/
theorem exec_eq (host : Host σ) {a : CellArena σ} (h : LinkPath a id links target)
    (ha : m.cells = a) (hfits : m.callDepth + links.length ≤ m.settings.maxCallDepth) :
    exec host id m = ((exec host target { m with callDepth := m.callDepth + links.length }).atDepth
      m.callDepth).after (links.flatMap fun id => (log (.called id) m).events) := by
  induction h generalizing m with
  | here id =>
    obtain ⟨-, -, hdepth⟩ := (exec_steady host m.settings m.callDepth id).eq rfl rfl
    simp only [List.length_nil, Nat.add_zero, List.flatMap_nil, Outcome.after_nil]
    ext1
    · rfl
    · exact (congrArg (fun d => { (exec host id m).machine with callDepth := d }) hdepth)
    · rfl
  | @link id next target rest cell hg hleaf hlinked _ ih =>
    subst ha
    rw [List.length_cons] at hfits ⊢
    have hrest := ih (m := { m with callDepth := m.callDepth + 1 }) rfl
      (by change m.callDepth + 1 + rest.length ≤ m.settings.maxCallDepth; omega)
    have hlevels : m.callDepth + 1 + rest.length = m.callDepth + (rest.length + 1) := by omega
    rw [exec_link host hg hleaf hlinked (by omega), hrest, List.flatMap_cons, ← Outcome.after_after]
    simp only [hlevels]
    rfl

/-- Where they do not, the execution is refused, and nothing has happened but records for the log. -/
theorem exec_refused (host : Host σ) {a : CellArena σ} (h : LinkPath a id links target)
    (ha : m.cells = a) (hd : m.callDepth ≤ m.settings.maxCallDepth)
    (hover : m.settings.maxCallDepth < m.callDepth + links.length) :
    ∃ notices : List Notice, exec host id m =
      ⟨.error (.callDepthExceeded m.settings.maxCallDepth), m, notices.map .logged⟩ := by
  induction h generalizing m with
  | here id =>
    rw [List.length_nil] at hover
    omega
  | @link id next target rest cell hg hleaf hlinked _ ih =>
    subst ha
    by_cases hlt : m.callDepth < m.settings.maxCallDepth
    · rw [List.length_cons] at hover
      obtain ⟨first, hfirst⟩ := log_events (.called id) m
      obtain ⟨notices, hrest⟩ := ih (m := { m with callDepth := m.callDepth + 1 }) rfl hlt
        (by change m.settings.maxCallDepth < m.callDepth + 1 + rest.length; omega)
      refine ⟨first ++ notices, ?_⟩
      rw [exec_link host hg hleaf hlinked hlt, hrest, hfirst, List.map_append]
      rfl
    · obtain ⟨notices, hlog⟩ := log_events (.callDepthExceeded m.callDepth id) m
      have hlimit : m.callDepth = m.settings.maxCallDepth := by omega
      refine ⟨notices, ?_⟩
      rw [exec_of_ge host (Nat.le_of_eq hlimit.symm), hlog, hlimit]

end LinkPath

open Machine Step in
/-- A path of links does what its target does, a level deeper for every link, and adds nothing but a
record of each link to the log. Where there are not so many levels left, and on a ring of links in
any case, the execution is refused at the limit, and the machine is as it was. -/
theorem Machine.exec_links (host : Host σ) (hd : m.callDepth ≤ m.settings.maxCallDepth)
    (h : LinkPath m.cells id links target) :
    (m.callDepth + links.length ≤ m.settings.maxCallDepth →
      exec host id m = ((exec host target { m with callDepth := m.callDepth + links.length }).atDepth
        m.callDepth).after (links.flatMap fun id => (log (.called id) m).events)) ∧
    (m.settings.maxCallDepth < m.callDepth + links.length ∨ (links ≠ [] ∧ target = id) →
      ∃ notices : List Notice, exec host id m =
        ⟨.error (.callDepthExceeded m.settings.maxCallDepth), m, notices.map .logged⟩) := by
  refine ⟨h.exec_eq host rfl, ?_⟩
  rintro (hover | ⟨hlinks, rfl⟩)
  · exact h.exec_refused host rfl hd hover
  · have hround : 1 ≤ links.length := List.length_pos_iff.mpr hlinks
    have hlevels := Nat.le_mul_of_pos_right (m.settings.maxCallDepth + 1) hround
    refine (h.around (m.settings.maxCallDepth + 1)).exec_refused host rfl hd ?_
    rw [List.length_flatten, List.map_replicate, List.sum_replicate_nat]
    omega

namespace Stock

/-- A word of two cells, a link to a link to it, and two links to each other. -/
def chainAndRing : Program signature Unit := do
  let head ← request .newCell
  request (.beginWord head)
  request (.bind (← request .newCell) (.native Word.push1))
  request (.bind (← request .newCell) (.native Word.push2))
  let _ ← request .endWord
  let inner ← request .newCell
  request (.link head inner)
  request (.link inner (← request .newCell))
  let first ← request .newCell
  let second ← request .newCell
  request (.link first second)
  request (.link second first)

end Stock

open Machine Stock in
/-- Three levels are just enough for the two links and the word, and for no ring at all. -/
theorem Machine.exec_links_of_chainAndRing :
    let m := (chainAndRing.start Stock.host
      (.create #[] (.replicate 7 .empty) ⟨3, .strict⟩ none)).machine
    let o := exec Stock.host ⟨0⟩ { m with callDepth := 2 }
    m.cells.used = 7 ∧ exec Stock.host ⟨4⟩ m = o.atDepth 0 ∧
    o.answer = .ok () ∧ o.machine.stack.depth = 2 ∧
    (∃ notices : List Notice, exec Stock.host ⟨4⟩ { m with callDepth := 2 } =
      ⟨.error (.callDepthExceeded 3), { m with callDepth := 2 }, notices.map .logged⟩) ∧
    ∃ notices : List Notice, exec Stock.host ⟨5⟩ m =
      ⟨.error (.callDepthExceeded 3), m, notices.map .logged⟩ := by
  intro m o
  have hlink : ∀ {links : List CellId} {id next target : CellId},
      m.cells.get id = .ok ⟨.link, .cell next, 1⟩ → LinkPath m.cells next links target →
      LinkPath m.cells id (id :: links) target := fun hg => .link hg rfl rfl
  have hchain : LinkPath m.cells ⟨4⟩ [⟨4⟩, ⟨3⟩] ⟨0⟩ :=
    hlink (by decide +kernel) (hlink (by decide +kernel) (.here _))
  have hring : LinkPath m.cells ⟨5⟩ [⟨5⟩, ⟨6⟩] ⟨5⟩ :=
    hlink (by decide +kernel) (hlink (by decide +kernel) (.here _))
  have hdepth : m.callDepth = 0 := by decide +kernel
  have hlimit : m.settings.maxCallDepth = 3 := by decide +kernel
  have hunheard : m.verbosity = none := by decide +kernel
  have hfits := (exec_links Stock.host (by omega) hchain).1 (by simp [hdepth, hlimit])
  have hover := (exec_links Stock.host (m := { m with callDepth := 2 }) (by decide +kernel) hchain).2
    (.inl (by decide +kernel))
  have hround := (exec_links Stock.host (by omega) hring).2 (.inr ⟨nofun, rfl⟩)
  have hsilent : ([⟨4⟩, ⟨3⟩].flatMap fun id => (Step.log (.called id) m).events) = [] := by
    simp [Step.log, hunheard, Level.heardBy]
  simp only [hlimit] at hover hround
  simp only [hsilent, Outcome.after_nil, hdepth, List.length_cons, List.length_nil, Nat.reduceAdd]
    at hfits
  exact ⟨by decide +kernel, hfits, by decide +kernel, by decide +kernel, hover, hround⟩

end ThreadedCode
