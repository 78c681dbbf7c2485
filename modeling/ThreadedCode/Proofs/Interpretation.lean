import ThreadedCode.Calculator.Session
import ThreadedCode.Proofs.Blindness
import ThreadedCode.Proofs.Staging

/-!
Executing a compiled line is interpreting its words, one after another.
-/
namespace ThreadedCode

open Machine Step

variable {σ : Signature} {host : Host σ} {m n k : Machine σ} {head : CellId}
  {settings : Settings} {depth : Nat}

/-- Records for the log do not count. -/
theorem log_uncounted (levels : Nat) (notice : Notice) (m : Machine σ) :
    (log notice m).events.filter (Lens.raised settings levels depth).counts = [] := by
  simp only [log]
  split <;> rfl

theorem Outcome.Agrees.after_log {levels : Nat} {o o' : Outcome σ Unit}
    (h : o.Agrees (.raised settings levels depth) o') (notice : Notice) (m : Machine σ) :
    (o.after (log notice m).events).Agrees (.raised settings levels depth) o' := by
  rw [← Outcome.after_nil o']
  exact h.after (log_uncounted levels notice m)

namespace Calculator

/-- Does at once what a compiled word stands for. -/
def Item.run (host : Host σ) : Item → Step σ Unit
  | literal v => pushLiteral v
  | linked source | inlined source => exec host source
  | immediate _ => return ()

/-- Does what the items stand for, one after another, up to the first fault. -/
def interpret (host : Host σ) (items : List Item) : Step σ Unit := forM items (Item.run host)

/-- Whenever an interpretation comes to an item, the cell compiled for it is still the same, and so is
the cell that it was inlined from. -/
def Undisturbed (host : Host σ) (head : CellId) (items : List Item) (m : Machine σ) : Prop :=
  ∀ before item after, items = before ++ item :: after →
    let o := interpret host before { m with callDepth := m.callDepth + 1 }
    o.answer = .ok () →
    o.machine.cells.get ⟨head.index + 1 + before.length⟩ =
      m.cells.get ⟨head.index + 1 + before.length⟩ ∧
    ∀ source, item = .inlined source → o.machine.cells.get source = m.cells.get source

theorem interpret_snoc (host : Host σ) (before : List Item) (item : Item) :
    interpret host (before ++ [item]) = interpret host before >>= fun _ => item.run host := by
  rw [interpret, List.forM_append, List.forM_cons, List.forM_nil]
  exact congrArg _ (funext fun _ => bind_pure_unit)

end Calculator

namespace Machine

/-- Calling a leaf does what executing it does one level deeper. -/
theorem call_leaf (hp : host.Passes Fault.IsRefusal) {source : CellId} {c : Cell σ}
    (hg : m.cells.get source = .ok c) (hleaf : c.extent = 1) :
    (invokeUsing host (exec host) c.procedure c.payload m).Agrees
      (.raised m.settings 0 m.callDepth) (exec host source m) := by
  by_cases hlt : m.callDepth < m.settings.maxCallDepth
  · rw [exec_of_lt host hlt, nested_apply]
    have hin : execRun host (exec host) source { m with callDepth := m.callDepth + 1 } = _ :=
      (execRun_of_leaf host (m := { m with callDepth := m.callDepth + 1 }) hg hleaf).trans
        (callWith_of_get (m := { m with callDepth := m.callDepth + 1 }) hg)
    rw [hin]
    rcases invokeUsing_raised hp c.procedure c.payload m { m with callDepth := m.callDepth + 1 }
      ⟨rfl, rfl, rfl⟩ with hspared | ⟨ha, ⟨hm, hs, hd⟩, he⟩
    · exact .inl hspared
    · refine .inr ⟨ha, ⟨?_, hs, hd⟩, ?_⟩
      · simp only [Outcome.after_machine, hm, Nat.add_sub_cancel, Nat.add_zero]
      · rw [Outcome.after_events, List.filter_append, log_uncounted, List.nil_append]
        exact he
  · refine .inl ⟨.callDepthExceeded m.callDepth, ⟨_, rfl⟩, ?_⟩
    rw [exec_of_ge host (Nat.le_of_not_lt hlt)]

end Machine

namespace Calculator

/-- Calling the cell of an item does what the item stands for. -/
theorem item_call (hp : host.Passes Fault.IsRefusal) {id : CellId} {c : Cell σ} {item : Item}
    (hg : m.cells.get id = .ok c) (hfits : item.Fits m.cells c) :
    (callWith (invokeUsing host (exec host)) id m).Agrees (.raised m.settings 0 m.callDepth)
      (item.run host m) := by
  rw [callWith_of_get hg]
  refine Outcome.Agrees.after_log ?_ _ _
  have hlink : ∀ source, (invokeUsing host (exec host) .link (.cell source) m).Agrees
      (.raised m.settings 0 m.callDepth) (exec host source m) := by
    intro source
    obtain ⟨-, hs, hd⟩ := (exec_steady host m.settings m.callDepth source).eq rfl rfl
    rw [invokeUsing_link]
    exact .inr ⟨rfl, ⟨rfl, hs, hd⟩, rfl⟩
  cases item with
  | literal v =>
    obtain rfl := hfits
    obtain ⟨hs, hd, -⟩ := (pushLiteral_kept v m).settled
    rw [invokeUsing_literal]
    exact .inr ⟨rfl, ⟨rfl, hs, hd⟩, rfl⟩
  | linked source =>
    obtain rfl := hfits
    exact hlink source
  | inlined source =>
    rcases hfits with rfl | ⟨hsource, hleaf⟩
    · exact hlink source
    · exact call_leaf hp hsource hleaf
  | immediate source =>
    obtain rfl := hfits
    rw [invokeUsing_zero]
    exact .inr ⟨rfl, ⟨rfl, rfl, rfl⟩, rfl⟩

/-- The walk along the cells of a line keeps pace with the interpretation of its items. -/
theorem walk_interpret (hp : host.Passes Fault.IsRefusal) (hb : n.Built) {items : List Item}
    (hl : Laid head items n) (hu : Undisturbed host head items n) (rest before : List Item)
    (hsplit : items = before ++ rest)
    (hok : (interpret host before { n with callDepth := n.callDepth + 1 }).answer = .ok ())
    (hm : (interpret host before { n with callDepth := n.callDepth + 1 }).machine = m) :
    (walk (exec host) (callWith (invokeUsing host (exec host))) head rest.length 0
      (before.length + 1) m).Agrees (.raised m.settings 0 m.callDepth) (interpret host rest m) := by
  induction rest generalizing before m with
  | nil => exact .inr ⟨rfl, ⟨rfl, rfl, rfl⟩, rfl⟩
  | cons item rest ih =>
    have hlength : items.length = before.length + (rest.length + 1) := by simp [hsplit]
    have hshift : head.shift? (before.length + 1) = some ⟨head.index + 1 + before.length⟩ := by
      have hused := hl.used
      have hlimit := hb.numbered
      unfold CellId.shift? CellId.number
      rw [if_pos (by omega)]
      congr 2
      omega
    obtain ⟨c, hc, hfits⟩ := hl.cells before.length item (by simp [hsplit])
    obtain ⟨hcell, hsource⟩ := hu before item rest hsplit hok
    rw [hm] at hcell hsource
    have hfits' : item.Fits m.cells c := by
      cases item with
      | inlined source => exact hfits.imp id (And.imp_left (hsource source rfl).trans)
      | _ => exact hfits
    rw [List.length_cons, walk_of_cell hshift (hcell.trans hc), visit, if_pos hfits.leaf, hfits.leaf]
    change ((callWith _ _ m).bind _).Agrees _ ((item.run host m).bind fun _ => interpret host rest)
    apply (item_call hp (hcell.trans hc) hfits').bind
    intro _ ha hr
    obtain ⟨hsame, hs, hd⟩ := hr
    have hnext := interpret_snoc host before item
    have hlater := ih
      (m := (callWith (invokeUsing host (exec host)) ⟨head.index + 1 + before.length⟩ m).machine)
      (before ++ [item]) (by simp [hsplit])
      (by rw [hnext, bind_of_ok hok, hm]; exact ha)
      (by rw [hnext, bind_of_ok hok, hm]; exact hsame)
    rw [hs, hd, List.length_append, List.length_singleton] at hlater
    rw [hsame]
    exact hlater

/-- Executing the head of a line is interpreting its items one level deeper. -/
theorem exec_interpret (hp : host.Passes Fault.IsRefusal) (hb : n.Built) {items : List Item}
    (hl : Laid head items n) (hu : Undisturbed host head items n)
    (hlimit : n.callDepth < n.settings.maxCallDepth) :
    (exec host head n).Agrees (.raised n.settings 0 n.callDepth) (nested (interpret host items) n) := by
  let k : Machine σ := { n with callDepth := n.callDepth + 1 }
  have hrun : (execRun host (exec host) head k).Agrees (.raised k.settings 0 k.callDepth)
      (interpret host items k) := by
    have htop : k.cells.get head = .ok ⟨.zero, .nil, 1 + items.length⟩ := hl.top
    cases items with
    | nil =>
      rw [execRun_of_leaf host htop rfl, callWith_of_get htop, invokeUsing_zero]
      exact Outcome.Agrees.after_log (.inr ⟨rfl, ⟨rfl, rfl, rfl⟩, rfl⟩) _ _
    | cons item rest =>
      have hword : (⟨.zero, .nil, 1 + (item :: rest).length⟩ : Cell σ).extent ≠ 1 := by simp
      rw [execRun_of_word host htop hword, log_bind]
      refine Outcome.Agrees.after_log ?_ _ _
      rw [Nat.add_sub_cancel_left]
      exact walk_interpret (m := k) hp hb hl hu (item :: rest) [] rfl rfl rfl
  rw [exec_of_lt host hlimit, nested_apply, nested_apply]
  rcases hrun with hspared | ⟨ha, hr, he⟩
  · exact .inl hspared
  · have hback := Lens.raised_back hr
    exact .inr ⟨ha, hback, he⟩

end Calculator

open Calculator

/-- Compiling a line and executing it is interpreting its words in two stages. The first stage executes
the cells of the immediate words, in order and all successfully; apart from the storage taken, it leaves
the machine and the output as these executions do. The second stage does what the other words stand for,
one level deep, up to the first fault, as long as no execution on the way is refused and neither the
compiled cells nor the inlined ones are rewired under way. Only the records for the log can differ. -/
theorem Run.compile_exec {past : List (Event σ)} (h : Run host past m)
    (hlimit : 1 ≤ m.settings.maxCallDepth) {words : List String} {stages : List (Item × Machine σ)}
    (hok : ((compile host words).start host m).answer = .ok (.ok head))
    (hs : Staged host words (openWord.start host m).machine stages) :
    let compiled := (compile host words).start host m
    let items := stages.map Prod.fst
    let executed := exec host head compiled.machine
    let interpreted := nested (interpret host items) compiled.machine
    Executed host (immediates stages) m compiled.lines compiled.machine ∧
    (host.Passes Fault.IsRefusal → Undisturbed host head items compiled.machine →
      (∀ depth, interpreted.answer ≠ .error (.callDepthExceeded depth)) →
      executed.answer = interpreted.answer ∧ executed.machine = interpreted.machine ∧
      executed.events.filter (·.notice?.isNone) = interpreted.events.filter (·.notice?.isNone)) := by
  intro compiled items executed interpreted
  obtain ⟨hl, hb, hexec⟩ := compile_staged h.built.1 hok hs
  refine ⟨hexec, ?_⟩
  intro hp hu hunrefused
  obtain ⟨-, hsettings, hdepth⟩ :=
    ((compile host words).start_steady host m.settings 0).eq rfl h.at_rest
  have hbelow : compiled.machine.callDepth < compiled.machine.settings.maxCallDepth := by
    rw [hdepth, hsettings]
    exact hlimit
  rcases exec_interpret hp hb hl hu hbelow with ⟨_, ⟨depth, rfl⟩, hrefused⟩ | ⟨ha, hr, he⟩
  · exact absurd hrefused (hunrefused depth)
  · have hsame := Lens.raised_zero hr
    exact ⟨ha, hsame.symm, he⟩

namespace Calculator

/-- The words of the calculator swallow no faults. -/
theorem procedure_passes (spares : Fault → Prop) (word : Word) :
    (procedure word : Body σ).Passes spares := by
  have hask := Program.passes_request (σ := σ) spares
  have htop : (top : Program σ Slot).Passes spares := by
    apply (hask (.nth 0)).bind
    intro slot
    cases slot <;> trivial
  have hdescribe : ∀ slot, (describe slot : Program σ String).Passes spares := by
    intro slot
    unfold describe
    split
    · exact (hask _).bind fun _ => trivial
    · trivial
    · exact hask _
    · trivial
    · trivial
  have hcombine : ∀ operation, (combine operation : Program σ Unit).Passes spares := fun operation =>
    (hask .popFloat).bind fun _ => (hask .popFloat).bind fun _ => hask _
  cases word with
  | greet => exact fun _ => hask _
  | add => exact fun _ => hcombine _
  | mul => exact fun _ => hcombine _
  | dup => exact fun _ => htop.bind fun _ => hask _
  | print =>
    exact fun _ => htop.bind fun slot => (hdescribe slot).bind fun _ => (hask (.print _)).bind fun _ =>
      (hask .pop).bind fun _ => trivial

/-- Defines an immediate word and one that is inlined. -/
def twoWords : Program signature Unit := do
  request (.setEntryCopy (← Words.define "test" (.native .greet)) CopyTable.immediate)
  request (.setEntryCopy (← Words.define "dup" (.native .dup)) CopyTable.inline)

end Calculator

/-- The line greets while it is compiled, and pushes its number twice when it is executed. -/
theorem Run.compile_exec_of_twoWords :
    let m : Machine signature := .create (.replicate 64 0) (.replicate 6 .empty) ⟨2, .strict⟩ none
    let o := twoWords.start Calculator.host m
    let compiled := (compile Calculator.host ["test", "2", "dup"]).start Calculator.host o.machine
    let items := [.immediate ⟨0⟩, .literal (.float ⟨49⟩), .inlined ⟨1⟩]
    let executed := exec Calculator.host ⟨2⟩ compiled.machine
    let interpreted := nested (interpret Calculator.host items) compiled.machine
    Run Calculator.host o.events o.machine ∧ compiled.lines = [greeting] ∧
    executed.machine = interpreted.machine ∧ executed.machine.stack.depth = 2 := by
  intro m o compiled items executed interpreted
  have hrun : Run Calculator.host ([] ++ o.events) o.machine :=
    (Run.created (.replicate 64 0) (.replicate 6 .empty) ⟨2, .strict⟩ none).operated (.program twoWords)
  rw [List.nil_append] at hrun
  have hok : compiled.answer = .ok (.ok ⟨2⟩) := by decide +kernel
  have hstaged : ∃ stages, stages.map Prod.fst = items ∧
      Staged Calculator.host ["test", "2", "dup"]
        (openWord.start Calculator.host o.machine).machine stages := by
    let first := (openWord.start Calculator.host o.machine).machine
    let second := ((compileWord Calculator.host "test").start Calculator.host first).machine
    let third := ((compileWord Calculator.host "2").start Calculator.host second).machine
    have htest : (Item.resolve "test" first).answer = .ok (some (.immediate ⟨0⟩)) := by decide +kernel
    have htwo : (Item.resolve "2" second).answer = .ok (some (.literal (.float ⟨49⟩))) := by
      decide +kernel
    have hdup : (Item.resolve "dup" third).answer = .ok (some (.inlined ⟨1⟩)) := by decide +kernel
    have hquiet : Quiet Calculator.host ⟨0⟩ (newCell first).machine := by decide +kernel
    refine ⟨_, rfl, .cons htest ?_ (.cons htwo nofun (.cons hdup nofun (.nil _)))⟩
    rintro _ ⟨⟩
    exact hquiet
  obtain ⟨stages, hitems, hstaged⟩ := hstaged
  have hundisturbed : Undisturbed Calculator.host ⟨2⟩ items compiled.machine := by
    intro before item after hsplit _ _
    rcases before with _ | ⟨_, _ | ⟨_, _ | ⟨_, before⟩⟩⟩ <;>
      simp only [items, List.nil_append, List.cons_append, List.cons.injEq] at hsplit
    · obtain ⟨rfl, -⟩ := hsplit
      exact ⟨by decide +kernel, nofun⟩
    · obtain ⟨rfl, rfl, -⟩ := hsplit
      exact ⟨by decide +kernel, nofun⟩
    · obtain ⟨rfl, rfl, rfl, -⟩ := hsplit
      refine ⟨by decide +kernel, ?_⟩
      rintro _ ⟨⟩
      decide +kernel
    · simp at hsplit
  obtain ⟨_, hsame⟩ := Run.compile_exec hrun (by decide +kernel) hok hstaged
  rw [hitems] at hsame
  have hanswer : interpreted.answer = .ok () := by decide +kernel
  obtain ⟨-, hmachine, -⟩ := hsame (procedure_passes _) hundisturbed fun depth h => by
    cases hanswer.symm.trans h
  exact ⟨hrun, by decide +kernel, hmachine, by decide +kernel⟩

end ThreadedCode
