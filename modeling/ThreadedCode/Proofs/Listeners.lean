import ThreadedCode.Proofs.Layout
import ThreadedCode.Proofs.Renewal

/-!
Nothing depends on who listens to the log. Only the end of a word does something for a listener that
it does not do for none, and the cell that it looks up for it is always there.
-/
namespace ThreadedCode

variable {σ : Signature} {α β : Type}

/-- Compares machines that differ in their listeners only. -/
def Lens.deaf : Lens σ where
  related m n := ∃ v, n = { m with verbosity := v }
  counts e := e.notice?.isNone
  spares _ := False

theorem Step.log_deaf (notice : Notice) : (log notice : Step σ Unit).Agrees .deaf (log notice) := by
  have hsilent : ∀ m : Machine σ, (log notice m).events.filter Lens.deaf.counts = [] := by
    intro m
    simp only [log]
    split
    · rfl
    · rfl
  intro m n h
  exact .inr ⟨rfl, h, by rw [hsilent, hsilent]⟩

theorem Lens.deaf_shares : (Lens.deaf (σ := σ)).SharesStack Eq where
  parts := by
    rintro m _ ⟨v, rfl⟩
    exact ⟨_, _, _, v, rfl⟩
  changed := by
    rintro m _ ⟨v, rfl⟩ bytes cells dictionary openWords copies
    exact ⟨v, rfl⟩
  log := Step.log_deaf
  congruent := Stack.congruent_eq
  stack := by
    rintro m _ ⟨v, rfl⟩
    rfl
  restacked := by
    rintro m _ ⟨v, rfl⟩ s _ rfl
    exact ⟨v, rfl⟩

/-- Only the end of a word looks at who listens. -/
theorem perform_deaf {r : Request σ} (h : r ≠ .endWord) : (perform r).Agrees .deaf (perform r) :=
  perform_agrees Lens.deaf_shares fun hr => absurd hr h

namespace Machine

open Step

theorem announce_deaf : (announce : Step σ Unit).Agrees .deaf announce := by
  refine get_agrees Lens.deaf_shares.toShares fun m _ _ _ _ hr => ?_
  obtain ⟨v, h⟩ := hr
  cases h
  exact bind_agrees (log_deaf _) fun _ => bind_agrees (log_deaf _) fun _ => log_deaf _

theorem reset_deaf : (reset : Step σ Unit).Agrees .deaf reset := by
  rintro m _ ⟨v, rfl⟩
  exact bind_agrees (log_deaf _) (fun _ => log_deaf _) m.cleared _ ⟨v, rfl⟩

end Machine

/-- Compares machines that differ in their listeners only and in which every open word has its cell. -/
def Lens.unheard : Lens σ where
  related m n := m.Built ∧ Lens.deaf.related m n
  counts := Lens.deaf.counts
  spares _ := False

namespace Machine

variable {m n : Machine σ}

theorem Built.of_deaf (hb : m.Built) (h : Lens.deaf.related m n) : n.Built := by
  obtain ⟨v, rfl⟩ := h
  exact (hb.untouched (n := { m with verbosity := v }) rfl rfl).1

/-- An open word can be ended. -/
theorem endWord_of_open (hb : m.Built) {head : CellId} {outer : List CellId}
    (ho : m.openWords.heads = head :: outer) : (endWord m).answer = .ok head ∧
    (endWord m).machine = { m with openWords := ⟨outer⟩ } := by
  rcases endWord_cases hb with ⟨hnone, -⟩ | ⟨inner, rest, hsome, ha, hm⟩
  · rw [ho] at hnone
    cases hnone
  · rw [ho] at hsome
    cases hsome
    exact ⟨ha, hm⟩

/-- What counts is nothing that the step tells its log. -/
theorem events_unheard {part : Part} {s : Step σ α} (h : s.Within part m) :
    (s m).events.filter Lens.deaf.counts = [] := by
  obtain ⟨notices, he⟩ := h.records
  rw [he]
  exact List.filter_eq_nil_iff.mpr fun e hmem => by
    obtain ⟨notice, -, rfl⟩ := List.mem_map.mp hmem
    exact Bool.false_ne_true

/-- Where every open word has its cell, looking it up for a listener makes no difference. -/
theorem endWord_unheard (hb : m.Built) (h : Lens.deaf.related m n) :
    (endWord m).Agrees .deaf (endWord n) := by
  have hevents : (endWord m).events.filter Lens.deaf.counts =
      (endWord n).events.filter Lens.deaf.counts :=
    (events_unheard endWord_within).trans (events_unheard endWord_within).symm
  have hbn := hb.of_deaf h
  obtain ⟨v, rfl⟩ := h
  cases ho : m.openWords.heads with
  | nil =>
    rcases endWord_cases hb with ⟨-, ha, hm⟩ | ⟨_, _, hsome, -, -⟩
    · rcases endWord_cases hbn with ⟨-, ha', hm'⟩ | ⟨_, _, hsome, -, -⟩
      · exact .inr ⟨ha.trans ha'.symm, ⟨v, by rw [hm, hm']⟩, hevents⟩
      · exact absurd (ho.symm.trans hsome) nofun
    · exact absurd (ho.symm.trans hsome) nofun
  | cons head outer =>
    obtain ⟨ha, hm⟩ := endWord_of_open hb ho
    obtain ⟨ha', hm'⟩ := endWord_of_open hbn ho
    exact .inr ⟨ha.trans ha'.symm, ⟨v, by rw [hm, hm']⟩, hevents⟩

end Machine

open Step in
/-- Steps that keep the layout in order agree on machines where it is. -/
theorem Step.agrees_unheard {s : Step σ α} (hs : ∀ m n, m.Built → Lens.deaf.related m n →
      (s m).Agrees .deaf (s n)) (hb : ∀ m, m.Built → (s m).machine.Built) :
    s.Agrees .unheard s := by
  rintro m n ⟨hm, h⟩
  rcases hs m n hm h with ⟨_, hf, _⟩ | ⟨ha, hr, he⟩
  · exact hf.elim
  · exact .inr ⟨ha, ⟨hb m hm, hr⟩, he⟩

theorem perform_unheard (r : Request σ) : (perform r).Agrees .unheard (perform r) := by
  refine Step.agrees_unheard (fun m n hm h => ?_) fun m hm => (hm.perform r).1
  by_cases hr : r = .endWord
  · subst hr
    exact Machine.endWord_unheard hm h
  · exact perform_deaf hr m n h

open Step in
theorem Lens.unheard_lockstep : (Lens.unheard (σ := σ)).Lockstep where
  serve r := attempt_agrees_of_strict (perform_unheard r) fun answer =>
    bind_agrees (agrees_unheard (fun _ _ _ h => .inr ⟨rfl, h, rfl⟩) fun _ hm => hm) fun _ =>
      done_agrees answer
  log notice := agrees_unheard (fun m n _ h => log_deaf notice m n h) fun _ hm => hm
  literal v := agrees_unheard
    (fun m n _ h => Machine.pushLiteral_agrees Lens.deaf_shares v m n h)
    fun m hm => by
      have hkept : Part.stack.Kept m (Machine.pushLiteral v m).machine := Machine.pushLiteral_kept v m
      exact (hm.untouched (hkept.cells nofun) (hkept.words nofun)).1
  cells := by
    rintro m _ ⟨-, v, rfl⟩
    rfl
  stack := by
    rintro m _ ⟨-, v, rfl⟩
    rfl

theorem Machine.exec_unheard (host : Host σ) (cell : CellId) :
    (exec host cell).Agrees .unheard (exec host cell) := by
  refine exec_agrees host Lens.unheard_lockstep rfl ?_ ?_ cell
  · rintro m _ ⟨-, v, rfl⟩
    exact ⟨rfl, rfl⟩
  · rintro change m _ ⟨hm, v, rfl⟩
    exact ⟨hm.atDepth _, v, rfl⟩

theorem Deed.step_unheard (host : Host σ) (deed : Deed σ) :
    (deed.step host).Agrees .unheard (deed.step host) := by
  cases deed with
  | operate op =>
    exact op.step_agrees host Lens.unheard_lockstep rfl (Machine.exec_unheard host)
  | reset =>
    exact Step.agrees_unheard (fun m n _ h => Machine.reset_deaf m n h) fun m _ => .of_empty rfl rfl

/-- The outcome without its listener and without what it has heard: the answer, everything that was
asked, answered and printed on the way, and the machine. -/
def Outcome.muted (o : Outcome σ α) : Outcome σ α where
  answer := o.answer
  machine := { o.machine with verbosity := none }
  events := o.events.filter fun e => e.notice?.isNone

theorem Outcome.Agrees.muted_eq {o o' : Outcome σ α} (h : o.Agrees .deaf o') :
    o'.muted = o.muted := by
  rcases h with ⟨_, hf, _⟩ | ⟨ha, ⟨v, hm⟩, he⟩
  · exact hf.elim
  · refine Outcome.ext ha.symm ?_ he.symm
    simp only [muted, hm]

/-- The outcomes of deeds, one after another. -/
def outcomes (host : Host σ) : List (Deed σ) → Machine σ → List (Outcome σ Unit)
  | [], _ => []
  | deed :: rest, m => deed.step host m :: outcomes host rest (deed.step host m).machine

theorem outcomes_unheard (host : Host σ) (deeds : List (Deed σ)) {m n : Machine σ}
    (h : Lens.unheard.related m n) :
    (outcomes host deeds n).map Outcome.muted = (outcomes host deeds m).map Outcome.muted := by
  induction deeds generalizing m n with
  | nil => rfl
  | cons deed rest ih =>
    rcases deed.step_unheard host m n h with ⟨_, hf, _⟩ | ⟨ha, hr, he⟩
    · exact hf.elim
    · have hmuted : (deed.step host n).muted = (deed.step host m).muted :=
        Outcome.Agrees.muted_eq (.inr ⟨ha, hr.2, he⟩)
      simp only [outcomes, List.map_cons, hmuted, ih hr]

open Machine in
/-- A machine that is created for another listener, or for none, goes on in the same way whatever is
done with it: every answer, every line of output and every state that it leaves are the same, and only
the records differ. And an open word can be ended at every moment of every run, whoever listens. -/
theorem Host.unheard (host : Host σ) :
    (∀ (bytes : Array UInt8) (cells : Array (Cell σ)) settings (v w : Option Level),
      (announce (create bytes cells settings v)).muted =
        (announce (create bytes cells settings w)).muted ∧
      ∀ deeds, (outcomes host deeds (create bytes cells settings v)).map Outcome.muted =
        (outcomes host deeds (create bytes cells settings w)).map Outcome.muted) ∧
    ∀ past events (m n : Machine σ) allowed, Run host past m → Moves allowed m events n →
      ∀ head outer, n.openWords.heads = head :: outer → ∀ v : Option Level,
        (endWord { n with verbosity := v }).answer = .ok head ∧
        (endWord { n with verbosity := v }).machine =
          { n with openWords := ⟨outer⟩, verbosity := v } := by
  refine ⟨fun bytes cells settings v w => ?_, ?_⟩
  · have hrelated : Lens.unheard.related (create bytes cells settings w)
        (create bytes cells settings v) := ⟨.of_empty rfl rfl, v, rfl⟩
    exact ⟨(announce_deaf _ _ hrelated.2).muted_eq, fun deeds => outcomes_unheard host deeds hrelated⟩
  · intro past events m n allowed h hm head outer ho v
    have hb : n.Built := (h.built.1.moves hm).1
    exact endWord_of_open (hb.of_deaf ⟨v, rfl⟩) ho

/-- A word in the middle of its definition. -/
def Stock.openedCell : Program Stock.signature Unit := do
  request (.beginWord (← request .newCell))

open Machine Stock in
theorem Host.unheard_of_openedCell :
    let o := openedCell.start host small
    Run host [] small ∧ Moves (Operation.program openedCell).Gives small o.events o.machine ∧
    o.machine.openWords.heads = [⟨0⟩] ∧
    (endWord { o.machine with verbosity := some .debug }).answer = .ok ⟨0⟩ := by
  intro o
  have hrun : Run host [] small := .created #[] (.replicate 4 .empty) ⟨4, .strict⟩ none
  have hmoves := (Operation.program openedCell).moves host small
  have hopen : o.machine.openWords.heads = [⟨0⟩] := by decide +kernel
  have hend := (Host.unheard host).2 [] o.events small o.machine _ hrun hmoves ⟨0⟩ [] hopen
  exact ⟨hrun, hmoves, hopen, (hend (some .debug)).1⟩

end ThreadedCode
