import ThreadedCode.Proofs.Compiling
import ThreadedCode.Proofs.Depth

/-!
Compiling a line, word by word: what each word stands for when its turn comes, the run of cells that is
laid out for them, and the executions of the immediate words on the way.
-/
namespace ThreadedCode
namespace Calculator

open Machine Step

variable {σ : Signature} {host : Host σ} {m n : Machine σ} {head : CellId} {items : List Item}
  {outer : List CellId}

/-- What the words of a line stand for, each of them on the machine on which the words before it have
been compiled, together with the machine on which its cell has just been handed out. All of them are
numbers or have one of the standard strategies, and the immediate ones are quiet. -/
inductive Staged (host : Host σ) : List String → Machine σ → List (Item × Machine σ) → Prop
  | nil (m : Machine σ) : Staged host [] m []
  | cons {word : String} {rest : List String} {m : Machine σ} {item : Item}
    {stages : List (Item × Machine σ)} (hitem : (Item.resolve word m).answer = .ok (some item))
    (hquiet : ∀ source, item = .immediate source → Quiet host source (newCell m).machine)
    (hrest : Staged host rest ((compileWord host word).start host m).machine stages) :
    Staged host (word :: rest) m ((item, (newCell m).machine) :: stages)

/-- The cells that are executed while a line is compiled, each with the machine that executes it. -/
def immediates (stages : List (Item × Machine σ)) : List (CellId × Machine σ) :=
  stages.filterMap fun
    | (.immediate source, m) => some (source, m)
    | _ => none

/-- Cells are executed one after another, all of them successfully. Between the executions storage is
taken and words are opened and closed; everything else an execution finds as the one before has left
it. -/
inductive Executed (host : Host σ) :
    List (CellId × Machine σ) → Machine σ → List String → Machine σ → Prop
  | nil {m n : Machine σ} (hend : m.Alike n) : Executed host [] m [] n
  | cons {source : CellId} {m k n : Machine σ} {rest : List (CellId × Machine σ)}
    {lines : List String} (hstart : m.Alike k) (hok : (exec host source k).answer = .ok ())
    (hrest : Executed host rest (exec host source k).machine lines n) :
    Executed host ((source, k) :: rest) m ((exec host source k).lines ++ lines) n

theorem Executed.after_alike {cells : List (CellId × Machine σ)} {lines : List String}
    (h : Executed host cells m lines n) {k : Machine σ} (hk : k.Alike m) :
    Executed host cells k lines n := by
  cases h with
  | nil hend => exact .nil (hk.trans hend)
  | cons hstart hok hrest => exact .cons (hk.trans hstart) hok hrest

theorem Executed.before_alike {cells : List (CellId × Machine σ)} {lines : List String}
    (h : Executed host cells m lines n) {k : Machine σ} (hk : n.Alike k) :
    Executed host cells m lines k := by
  induction h with
  | nil hend => exact .nil (hend.trans hk)
  | cons hstart hok _ ih => exact .cons hstart hok (ih hk)

/-- Behind the head lie the cells of the items, all of them leaves. -/
structure Laid (head : CellId) (items : List Item) (m : Machine σ) : Prop where
  used : m.cells.used = head.index + 1 + items.length
  top : m.cells.get head = .ok ⟨.zero, .nil, 1 + items.length⟩
  cells : ∀ j item, items[j]? = some item →
    ∃ c, m.cells.get ⟨head.index + 1 + j⟩ = .ok c ∧ item.Fits m.cells c

/-- Compiling a word leaves a cell as it is that is no head of an open word. -/
theorem Compiled.kept {item : Item} {o : Outcome σ Unit} (hc : Compiled host item m o) {id : CellId}
    {d : Cell σ} (hg : m.cells.get id = .ok d) (hcount : m.openWords.heads.count id = 0) :
    o.machine.cells.get id = .ok d := by
  obtain ⟨c, -, hcells⟩ := hc.cells
  have hne : id ≠ ⟨m.cells.used⟩ := by
    rintro rfl
    exact Nat.lt_irrefl _ (CellArena.get_eq_ok.mp hg).1
  rw [hcells, CellArena.get_put_ne hne, get_extended hg, hcount]
  rfl

namespace Laid

/-- No open word but the innermost one is affected by a new cell behind its head. -/
theorem closed (hb : m.Built) (hopen : m.openWords.heads = head :: outer) {id : CellId}
    (hlt : head.index < id.index) : m.openWords.heads.count id = 0 := by
  apply List.count_eq_zero.mpr
  intro hmem
  have hordered := hb.sound.ordered
  simp only [layout, hopen, List.pairwise_cons] at hordered
  rw [hopen] at hmem
  rcases List.mem_cons.mp hmem with rfl | hmem
  · exact Nat.lt_irrefl _ hlt
  · have := hordered.1 id hmem
    omega

/-- Where a cell lies behind the head, no leaf is the head of an open word. -/
theorem leaf_closed (hb : m.Built) (hopen : m.openWords.heads = head :: outer) (hl : Laid head items m)
    (hne : items ≠ []) {id : CellId} {c : Cell σ} (hg : m.cells.get id = .ok c) (hleaf : c.extent = 1) :
    m.openWords.heads.count id = 0 := by
  by_cases hlt : head.index < id.index
  · exact closed hb hopen hlt
  · apply List.count_eq_zero.mpr
    intro hmem
    have hends := hb.sound.ends id hmem
    have hextent := CellArena.extentAt_of_get hg
    have hused := hl.used
    have hpos : 0 < items.length := List.length_pos_iff.mpr hne
    simp only [layout] at hends
    omega

section Next

variable {item : Item} {o : Outcome σ Unit}

theorem top_next (hb : m.Built) (hopen : m.openWords.heads = head :: outer) (hl : Laid head items m)
    (hc : Compiled host item m o) :
    o.machine.cells.get head = .ok ⟨.zero, .nil, 1 + (items ++ [item]).length⟩ := by
  obtain ⟨c, -, hcells⟩ := hc.cells
  have hused := hl.used
  have hcount : m.openWords.heads.count head = 1 := by
    have hordered := hb.sound.ordered
    simp only [layout, hopen, List.pairwise_cons] at hordered
    have hnot : head ∉ outer := fun hmem => Nat.lt_irrefl _ (hordered.1 head hmem)
    rw [hopen, List.count_cons_self, List.count_eq_zero.mpr hnot]
  have hne : head ≠ ⟨m.cells.used⟩ := by
    intro h
    have hindex : head.index = m.cells.used := congrArg CellId.index h
    omega
  rw [hcells, CellArena.get_put_ne hne, get_extended hl.top, hcount, List.length_append]
  rfl

/-- The words before it stay where they are. -/
theorem earlier_next (hb : m.Built) (hopen : m.openWords.heads = head :: outer)
    (hl : Laid head items m) (hc : Compiled host item m o) {j : Nat} {item' : Item}
    (hj : items[j]? = some item') :
    ∃ c, o.machine.cells.get ⟨head.index + 1 + j⟩ = .ok c ∧ item'.Fits o.machine.cells c := by
  have hlt : j < items.length := (List.getElem?_eq_some_iff.mp hj).1
  obtain ⟨d, hd, hfits⟩ := hl.cells j item' hj
  refine ⟨d, hc.kept hd (closed hb hopen (by simp only; omega)), ?_⟩
  cases item' with
  | inlined source =>
    rcases hfits with hlink | ⟨hs, hleaf⟩
    · exact .inl hlink
    · have hne : items ≠ [] := List.length_pos_iff.mp (by omega)
      exact .inr ⟨hc.kept hs (leaf_closed hb hopen hl hne hs hleaf), hleaf⟩
  | _ => exact hfits

/-- Its own cell is the new one behind them. -/
theorem last_next (hl : Laid head items m) (hc : Compiled host item m o) :
    ∃ c, o.machine.cells.get ⟨head.index + 1 + items.length⟩ = .ok c ∧
      item.Fits o.machine.cells c := by
  obtain ⟨c, hfits, hcells⟩ := hc.cells
  have hused := hl.used
  have hself : o.machine.cells.get ⟨head.index + 1 + items.length⟩ = .ok c := by
    rw [hcells, ← hused]
    exact CellArena.get_put_self hc.fresh
  refine ⟨c, hself, ?_⟩
  cases item with
  | inlined source =>
    rcases hfits with hlink | ⟨hs, hleaf⟩
    · exact .inl hlink
    · refine .inr ⟨?_, hleaf⟩
      by_cases hsame : source = ⟨m.cells.used⟩
      · rw [hsame, hused]
        exact hself
      · rw [hcells, CellArena.get_put_ne hsame]
        exact hs
  | _ => exact hfits

/-- A compiled word is laid out behind the others. -/
theorem next (hb : m.Built) (hopen : m.openWords.heads = head :: outer) (hl : Laid head items m)
    (hc : Compiled host item m o) : Laid head (items ++ [item]) o.machine where
  used := by
    obtain ⟨c, -, hcells⟩ := hc.cells
    rw [hcells, List.length_append, List.length_singleton, ← Nat.add_assoc, ← hl.used]
    rfl
  top := top_next hb hopen hl hc
  cells j item' hj := by
    by_cases hlt : j < items.length
    · rw [List.getElem?_append_left hlt] at hj
      exact earlier_next hb hopen hl hc hj
    · obtain rfl : j = items.length := by
        have hbound := (List.getElem?_eq_some_iff.mp hj).1
        simp only [List.length_append, List.length_singleton] at hbound
        omega
      rw [List.getElem?_append_right (Nat.le_refl _), Nat.sub_self] at hj
      obtain rfl := Option.some.inj hj
      exact last_next hl hc

end Next

theorem of_cells (hl : Laid head items m) (hc : n.cells = m.cells) : Laid head items n :=
  ⟨hc ▸ hl.used, hc ▸ hl.top, hc ▸ hl.cells⟩

end Laid

theorem start_compileWords (host : Host σ) (word : String) (rest : List String) :
    (compileWords host (word :: rest)).start host = (do
      match ← ((compileWord host word).start host).attempt with
      | .ok () => (compileWords host rest).start host
      | .error fault => return .error ⟨some word, fault⟩) := by
  refine (Program.start_attempt_bind (compileWord host word) _).trans
    (congrArg _ (funext fun answer => ?_))
  cases answer <;> rfl

/-- A line is compiled up to its end only if its first word is compiled. -/
theorem compileWords_cons {word : String} {rest : List String}
    (hok : ((compileWords host (word :: rest)).start host m).answer = .ok (.ok ())) :
    ((compileWord host word).start host m).answer = .ok () ∧
    (compileWords host (word :: rest)).start host m =
      ((compileWords host rest).start host ((compileWord host word).start host m).machine).after
        ((compileWord host word).start host m).events := by
  rw [start_compileWords, bind_apply, attempt_apply, Outcome.bind_ok] at hok ⊢
  cases ha : ((compileWord host word).start host m).answer with
  | ok a => exact ⟨rfl, rfl⟩
  | error fault =>
    rw [ha] at hok
    cases hok

/-- A compiled line is laid out, and on the way the cells of its immediate words have been executed. -/
theorem compileWords_staged {words : List String} {stages : List (Item × Machine σ)}
    (hs : Staged host words m stages) (hb : m.Built) (hopen : m.openWords.heads = head :: outer)
    (hl : Laid head items m)
    (hok : ((compileWords host words).start host m).answer = .ok (.ok ())) :
    let o := (compileWords host words).start host m
    Laid head (items ++ stages.map Prod.fst) o.machine ∧ o.machine.Built ∧
    o.machine.openWords.heads = head :: outer ∧
    Executed host (immediates stages) m o.lines o.machine := by
  induction hs generalizing items with
  | nil m =>
    rw [List.map_nil, List.append_nil]
    exact ⟨hl, hb, hopen, .nil (.refl m)⟩
  | @cons word rest m item stages hitem hquiet hrest ih =>
    obtain ⟨hword, hrun⟩ := compileWords_cons hok
    have hc := compileWord_compiled hb hitem hquiet hword
    have hb' := hb.start host (compileWord host word)
    rw [hrun, Outcome.after_answer] at hok
    obtain ⟨hl', hbuilt, hheads, hexec⟩ :=
      ih hb' (by rw [hc.words]; exact hopen) (hl.next hb hopen hc) hok
    rw [List.append_assoc] at hl'
    simp only [hrun, Outcome.after_machine, Outcome.lines_after, List.map_cons]
    refine ⟨hl', hbuilt, hheads, ?_⟩
    change Executed host _ m (((compileWord host word).start host m).lines ++ _) _
    by_cases hnow : ∃ source, item = .immediate source
    · obtain ⟨source, rfl⟩ := hnow
      obtain ⟨hdone, halike, hlines⟩ := hc.executed source rfl
      rw [hlines, hc.placed]
      exact .cons rfl hdone (hexec.after_alike halike)
    · obtain ⟨halike, hlines⟩ := hc.other fun source hsource => hnow ⟨source, hsource⟩
      have hskip : immediates ((item, (newCell m).machine) :: stages) = immediates stages := by
        cases item with
        | immediate source => exact absurd ⟨source, rfl⟩ hnow
        | _ => rfl
      rw [hskip, hlines, List.nil_append]
      exact hexec.after_alike halike

/-- The cell allocated last can be opened unless it is open, or too many words are open already. -/
theorem beginWord_of_last {head : CellId} {c : Cell σ} (hget : m.cells.get head = .ok c)
    (hlast : m.cells.last? = some head) (hnew : head ∉ m.openWords.heads) :
    (OpenWords.capacity ≤ m.openWords.depth ∧
      beginWord head m = ⟨.error .compileNestingExceeded, m, []⟩) ∨
    (m.openWords.depth < OpenWords.capacity ∧ beginWord head m =
      ⟨.ok (), { m with openWords := ⟨head :: m.openWords.heads⟩ },
        (log (.wordBegun head (m.openWords.depth + 1)) m).events⟩) := by
  have hcontains : m.openWords.heads.contains head = false := by
    rw [List.contains_eq_mem, decide_eq_false_iff_not]
    exact hnew
  simp only [beginWord, bind_apply, get_apply, lift_apply, Outcome.bind_ok, Outcome.after_nil, hget, hlast,
    hcontains, OpenWords.push]
  by_cases hfew : m.openWords.depth < OpenWords.capacity
  · rw [if_pos hfew]
    exact .inr ⟨hfew, rfl⟩
  · rw [if_neg hfew]
    exact .inl ⟨Nat.le_of_not_lt hfew, rfl⟩

theorem start_openWord : openWord.start host = (do
    let head ← serve (.newCell : Request σ)
    serve (.beginWord head)) := by
  rw [openWord]
  refine (Program.start_request_bind .newCell _).trans (congrArg _ (funext fun head => ?_))
  exact Program.run_request _ _

/-- The head is laid out without any cells behind it. -/
theorem openWord_laid (hb : m.Built) (hok : (openWord.start host m).answer = .ok ()) :
    let o := openWord.start host m
    Laid ⟨m.cells.used⟩ [] o.machine ∧ o.machine.Built ∧
    o.machine.openWords.heads = ⟨m.cells.used⟩ :: m.openWords.heads ∧
    m.Alike o.machine ∧ o.lines = [] := by
  have hbuilt := hb.start host openWord
  rw [start_openWord] at hok hbuilt ⊢
  obtain ⟨dest, hdest, hrest⟩ := ok_of_bind hok
  obtain ⟨rfl, hnew, hfresh⟩ := newCell_of_ok hb hdest
  have hplaced : (serve (.newCell : Request σ) m).machine = m.extended :=
    congrArg Outcome.machine (hnew m.bytes)
  rw [hrest, hplaced] at hok hbuilt ⊢
  rcases beginWord_cases ⟨m.cells.used⟩ m.extended with ⟨fault, ha, -⟩ | ⟨-, -, -, -, hm⟩
  · cases hok.symm.trans ha
  · have hm' : (serve (.beginWord ⟨m.cells.used⟩) m.extended).machine = _ := hm
    refine ⟨⟨?_, ?_, nofun⟩, hbuilt, ?_, ?_, ?_⟩
    · rw [Outcome.after_machine, hm']
      rfl
    · rw [Outcome.after_machine, hm']
      exact hfresh
    · rw [Outcome.after_machine, hm']
      rfl
    · rw [Outcome.after_machine, hm']
      rfl
    · have hsilent : (serve (.beginWord ⟨m.cells.used⟩) m.extended).lines = [] := serve_lines _ _
      rw [Outcome.lines_after, hsilent, List.append_nil]
      exact serve_lines .newCell m

theorem start_compile (host : Host σ) (words : List String) :
    (compile host words).start host = (do
      match ← (openWord.start host).attempt with
      | .error fault => return .error ⟨none, fault⟩
      | .ok () =>
        let compiled ← (compileWords host words).start host
        let closed : Except Fault CellId ← (serve (.endWord : Request σ)).attempt
        match compiled, closed with
        | .error rejection, _ => return .error rejection
        | .ok (), .error fault => return .error ⟨none, fault⟩
        | .ok (), .ok head => return .ok head) := by
  rw [compile, Program.start, Program.run_bind, Program.run_attempt]
  refine congrArg _ (funext fun opened => ?_)
  cases opened with
  | error fault => rfl
  | ok opened =>
    refine (Program.run_bind _ _ _).trans (congrArg _ (funext fun compiled => ?_))
    apply (Program.run_bind _ _ _).trans
    rw [Program.run_attempt, Program.run_request]
    refine congrArg _ (funext fun closed => ?_)
    cases compiled with
    | error rejection => rfl
    | ok compiled => cases closed <;> rfl

/-- A line is compiled if a word can be opened, all words are compiled, and the word is closed. -/
theorem compile_ok {words : List String}
    (hok : ((compile host words).start host m).answer = .ok (.ok head)) :
    let first := openWord.start host m
    let o := (compileWords host words).start host first.machine
    let last := serve (.endWord : Request σ) o.machine
    first.answer = .ok () ∧ o.answer = .ok (.ok ()) ∧ last.answer = .ok head ∧
    ((compile host words).start host m).machine = last.machine ∧
    ((compile host words).start host m).lines = first.lines ++ (o.lines ++ last.lines) := by
  intro first o last
  rw [start_compile] at hok ⊢
  rw [bind_apply, attempt_apply, Outcome.bind_ok] at hok ⊢
  cases hfirst : (openWord.start host m).answer with
  | error fault =>
    rw [hfirst] at hok
    cases hok
  | ok opened =>
    rw [hfirst, Outcome.after_answer] at hok
    dsimp only at hok ⊢
    obtain ⟨compiled, hcompiled, hrest⟩ := ok_of_bind hok
    rw [hrest, Outcome.after_answer] at hok
    obtain ⟨closed, hclosed, hend⟩ := ok_of_bind hok
    rw [hend, Outcome.after_answer] at hok
    rw [hrest, hend]
    cases compiled with
    | error rejection => cases hok
    | ok compiled =>
      cases closed with
      | error fault => cases hok
      | ok closed =>
        cases hok
        refine ⟨rfl, hcompiled, Except.ok.inj hclosed, rfl, ?_⟩
        rw [Outcome.lines_after, Outcome.lines_after, Outcome.lines_after]
        change first.lines ++ (o.lines ++ (last.lines ++ [])) = _
        rw [List.append_nil]

/-- What a compiled line leaves: its cells behind the head, and what its immediate words have done. -/
theorem compile_staged (hb : m.Built) {words : List String} {stages : List (Item × Machine σ)}
    (hok : ((compile host words).start host m).answer = .ok (.ok head))
    (hs : Staged host words (openWord.start host m).machine stages) :
    let o := (compile host words).start host m
    Laid head (stages.map Prod.fst) o.machine ∧ o.machine.Built ∧
    Executed host (immediates stages) m o.lines o.machine := by
  obtain ⟨hfirst, hwords, hlast, hm, hlines⟩ := compile_ok hok
  obtain ⟨hl, hbuilt, hheads, halike, hsilent⟩ := openWord_laid hb hfirst
  obtain ⟨hlaid, hbuilt', hheads', hexec⟩ := compileWords_staged hs hbuilt hheads hl hwords
  rcases endWord_cases hbuilt' with ⟨hnone, -⟩ | ⟨closed, rest, hclosed, ha, hend⟩
  · cases hnone.symm.trans hheads'
  · obtain ⟨rfl, rfl⟩ := List.cons.inj (hclosed.symm.trans hheads')
    obtain rfl : _ = head := Except.ok.inj (ha.symm.trans hlast)
    have hsilent' : (serve (.endWord : Request σ) ((compileWords host words).start host
        (openWord.start host m).machine).machine).lines = [] := serve_lines _ _
    rw [hsilent, hsilent', List.nil_append, List.append_nil] at hlines
    have hend' : (serve (.endWord : Request σ) ((compileWords host words).start host
        (openWord.start host m).machine).machine).machine = _ := hend
    rw [hend'] at hm
    intro o
    have hb' := hb.start host (compile host words)
    refine ⟨hlaid.of_cells (by rw [hm]), hb', ?_⟩
    rw [hlines, hm]
    exact (hexec.after_alike halike).before_alike rfl

end Calculator
end ThreadedCode
