import ThreadedCode.Proofs.Conduct
import ThreadedCode.Proofs.Nesting
import ThreadedCode.Proofs.Staging
import ThreadedCode.Calculator.Session
import ThreadedCode.Stock

/-!
What compiling a line leaves open. The word that it opens is closed again whatever happens, but what is
closed is the innermost word, whichever that is. The open words are as they were before exactly when
the code that ran meanwhile opened and closed its words in pairs.
-/
namespace ThreadedCode

variable {σ : Signature} {α : Type} {given : Value → Prop}

namespace Event

def opensWord : Event σ → Bool
  | .served (.beginWord _) (.ok _) => true
  | _ => false

def closesWord : Event σ → Bool
  | .served .endWord (.ok _) => true
  | _ => false

end Event

/-- With so many words open to begin with, the events open and close words in pairs: they close no
other one, and leave none open. -/
def Paired : Nat → List (Event σ) → Prop
  | level, [] => level = 0
  | level, event :: rest =>
    if event.opensWord then Paired (level + 1) rest
    else if event.closesWord then 0 < level ∧ Paired (level - 1) rest
    else Paired level rest

instance decidablePaired : (level : Nat) → (events : List (Event σ)) → Decidable (Paired level events)
  | level, [] => inferInstanceAs (Decidable (level = 0))
  | level, event :: rest =>
    have := decidablePaired (level + 1) rest
    have := decidablePaired (level - 1) rest
    have := decidablePaired level rest
    inferInstanceAs (Decidable (if event.opensWord then Paired (level + 1) rest
      else if event.closesWord then 0 < level ∧ Paired (level - 1) rest else Paired level rest))

section

variable {level : Nat} {event : Event σ} {rest : List (Event σ)}

theorem paired_opens (h : event.opensWord = true) :
    Paired level (event :: rest) ↔ Paired (level + 1) rest := by
  simp [Paired, h]

theorem paired_closes (h : event.closesWord = true) :
    Paired level (event :: rest) ↔ 0 < level ∧ Paired (level - 1) rest := by
  have hopens : event.opensWord = false := by
    unfold Event.closesWord at h
    split at h
    · rfl
    · cases h
  simp [Paired, h, hopens]

theorem paired_other (ho : event.opensWord = false) (hc : event.closesWord = false) :
    Paired level (event :: rest) ↔ Paired level rest := by
  simp [Paired, ho, hc]

theorem paired_logged (notices : List Notice) :
    Paired level (notices.map .logged ++ rest) ↔ Paired level rest := by
  induction notices with
  | nil => rfl
  | cons notice notices ih => exact (paired_other rfl rfl).trans ih

theorem Layout.step_heads (l : Layout) (ho : event.opensWord = false) (hc : event.closesWord = false) :
    (l.step event).heads = l.heads := by
  unfold Layout.step
  split
  · rfl
  · cases ho
  · cases hc
  · rfl

end

namespace Machine.Built

variable {m n : Machine σ} {events : List (Event σ)}

/-- A move leaves the open words alone, opens one, or closes the innermost one. -/
theorem move_words (hb : m.Built) (h : Move given m events n) :
    (n.openWords.heads = m.openWords.heads ∧
      ∀ level rest, Paired level (events ++ rest) ↔ Paired level rest) ∨
    (∃ head, n.openWords.heads = head :: m.openWords.heads ∧
      ∀ level rest, Paired level (events ++ rest) ↔ Paired (level + 1) rest) ∨
    ∃ head, m.openWords.heads = head :: n.openWords.heads ∧
      ∀ level rest, Paired level (events ++ rest) ↔ 0 < level ∧ Paired (level - 1) rest := by
  have hheads : n.openWords.heads = (m.layout.follow events).heads :=
    congrArg Layout.heads (hb.move h).2
  -- Without a request there are only records for the log.
  have hquiet : ∀ notices : List Notice, events = notices.map .logged →
      n.openWords.heads = m.openWords.heads ∧
        ∀ level rest, Paired level (events ++ rest) ↔ Paired level rest := by
    rintro notices rfl
    rw [Layout.follow_logged] at hheads
    exact ⟨hheads, fun _ _ => paired_logged notices⟩
  cases h with
  | literal v hv => exact .inl (hquiet _ (pushLiteral_within (m := m) v).records.choose_spec)
  | noted notice => exact .inl (hquiet _ (Step.log_events notice m).choose_spec)
  | deeper | back => exact .inl (hquiet [] rfl)
  | served r =>
    obtain ⟨notices, he⟩ := serve_events r m
    rw [he, Layout.follow_served] at hheads
    simp only [he, List.append_assoc, List.singleton_append, paired_logged]
    cases hp : (ThreadedCode.perform r m).answer with
    | error fault =>
      rw [hp, Layout.step_error] at hheads
      refine .inl ⟨hheads, fun level rest => ?_⟩
      cases r <;> exact paired_other rfl rfl
    | ok a =>
      rw [hp] at hheads
      cases r with
      | beginWord head => exact .inr (.inl ⟨head, hheads, fun _ _ => paired_opens rfl⟩)
      | endWord =>
        rcases endWord_cases hb with ⟨-, ha, -⟩ | ⟨head, outer, hh, -, hm⟩
        · cases hp.symm.trans ha
        · refine .inr (.inr ⟨head, ?_, fun _ _ => paired_closes rfl⟩)
          rw [hh, show (serve .endWord m).machine = _ from hm]
      | _ => exact .inl ⟨hheads, fun _ _ => paired_other rfl rfl⟩

/-- Words that others follow already are open again in the end exactly when all words opened meanwhile
have been closed, and no other ones. -/
theorem moves_paired (hb : m.Built) (h : Moves given m events n) (top : List CellId) {before : List CellId}
    (hheads : m.openWords.heads = top ++ before)
    (hfollowed : ∀ head ∈ before, head.index + 1 < m.layout.used) :
    n.openWords.heads = before ↔ Paired top.length events := by
  induction h generalizing top with
  | refl m => simp [hheads, Paired]
  | @step m k n first rest hm hrest ih =>
    have hb' := (hb.move hm).1
    have hused := hb.moves_used (.single hm)
    have hstill : ∀ head ∈ before, head.index + 1 < k.layout.used :=
      fun head hmem => Nat.lt_of_lt_of_le (hfollowed head hmem) hused
    rcases hb.move_words hm with ⟨hk, hp⟩ | ⟨head, hk, hp⟩ | ⟨head, hk, hp⟩
    · rw [hp]
      exact ih hb' top (hk.trans hheads) hstill
    · rw [hp]
      exact ih hb' (head :: top) (hk.trans (congrArg _ hheads)) hstill
    · rw [hp]
      cases top with
      | cons inner top =>
        obtain ⟨-, houter⟩ := List.cons.inj (hk.symm.trans hheads)
        simp only [List.length_cons, Nat.zero_lt_succ, true_and, Nat.add_sub_cancel]
        exact ih hb' top houter hstill
      | nil =>
        -- A word from before is closed. It cannot be opened again, since others follow it.
        have hmem : head ∈ before := by
          rw [← List.nil_append before, ← hheads, hk]
          exact List.mem_cons_self
        have hclosed : head ∉ k.openWords.heads := by
          have hnodup : m.openWords.heads.Nodup := hb.sound.nodup
          rw [hk] at hnodup
          exact (List.nodup_cons.mp hnodup).1
        have hnever : head ∉ n.openWords.heads :=
          (hb'.moves_finished hrest (i := head.index) ⟨hclosed, hstill head hmem⟩).closed
        exact ⟨fun hn => absurd (hn ▸ hmem) hnever, fun hlt => absurd hlt.1 (Nat.lt_irrefl 0)⟩

theorem newCell_heads (hb : m.Built) :
    (ThreadedCode.perform .newCell m).machine.openWords.heads = m.openWords.heads :=
  (congrArg Layout.heads (hb.perform .newCell).2).trans (m.layout.step_heads rfl rfl)

theorem endWord_heads (hb : m.Built) :
    (Machine.endWord m).machine.openWords.heads = m.openWords.heads.tail := by
  rcases endWord_cases hb with ⟨hnone, -, hm⟩ | ⟨head, outer, hh, -, hm⟩
  · rw [hm, hnone]
    rfl
  · rw [hm, hh]
    rfl

end Machine.Built

namespace Calculator

open Step Machine

variable {host : Host σ} {m : Machine σ}

/-- Compiling begins with a cell, and without one it ends. -/
theorem compile_eq_ask (host : Host σ) (words : List String) :
    ∃ next, compile host words = .ask .newCell next ∧
      ∀ fault, next (.error fault) = .finish (.ok (.error ⟨none, fault⟩)) :=
  ⟨_, rfl, fun _ => rfl⟩

/-- The open words are the same again exactly when those opened meanwhile have been closed. -/
theorem compile_paired (hb : m.Built) (words : List String) :
    let o := (compile host words).start host m
    o.machine.openWords = m.openWords ↔ Paired 0 o.events := by
  intro o
  obtain ⟨next, hcompile, hfull⟩ := compile_eq_ask host words
  let placed := (serve .newCell m).machine
  let rest := (next (perform .newCell m).answer).start host placed
  have ho : o = rest.after (serve .newCell m).events := by
    change (compile host words).start host m = _
    rw [hcompile]
    rfl
  have hb' : placed.Built := (hb.perform .newCell).1
  have hmoves : Moves (fun _ => False) placed _ rest.machine := (next _).start_moving host placed
  have hheads : placed.openWords.heads = m.openWords.heads := hb.newCell_heads
  have hpaired : Paired 0 o.events ↔ Paired 0 rest.events := by
    obtain ⟨notices, he⟩ := serve_events (.newCell : Request σ) m
    rw [ho, Outcome.after_events, he, List.append_assoc, List.singleton_append, paired_logged]
    exact paired_other rfl rfl
  have hwords : o.machine.openWords = m.openWords ↔
      rest.machine.openWords.heads = m.openWords.heads := by
    rw [ho, Outcome.after_machine]
    exact ⟨congrArg _, fun h => congrArg OpenWords.mk h⟩
  rw [hwords, hpaired]
  cases hnew : (perform .newCell m).answer with
  | error fault =>
    have hrest : rest = ⟨.ok (.error ⟨none, fault⟩), placed, []⟩ := by
      change (next (perform .newCell m).answer).start host placed = _
      rw [hnew, hfull]
      rfl
    rw [hrest]
    exact ⟨fun _ => rfl, fun _ => hheads⟩
  | ok id =>
    refine hb'.moves_paired hmoves [] hheads fun head hmem => ?_
    have hused : placed.layout.used = m.layout.used + 1 := by
      have hlayout := (hb.perform .newCell).2
      rw [hnew] at hlayout
      exact congrArg Layout.used hlayout
    have := hb.sound.allocated head hmem
    omega

/-- Words at fault end the compiling of a line, but as an answer and not as a fault. -/
theorem compileWords_answers (host : Host σ) (words : List String) (m : Machine σ) :
    ∃ result, ((compileWords host words).start host m).answer = .ok result := by
  induction words generalizing m with
  | nil => exact ⟨_, rfl⟩
  | cons word rest ih =>
    rw [start_compileWords, bind_apply, attempt_apply, Outcome.bind_ok, Outcome.after_answer]
    cases ((compileWord host word).start host m).answer with
    | ok _ => exact ih _
    | error fault => exact ⟨_, rfl⟩

/-- Once a word has been opened for it, compiling ends with closing a word. -/
theorem compile_closes {words : List String} (hok : (openWord.start host m).answer = .ok ()) :
    let stopped := (compileWords host words).start host (openWord.start host m).machine
    ((compile host words).start host m).machine = (endWord stopped.machine).machine := by
  intro stopped
  obtain ⟨result, hresult⟩ := compileWords_answers host words (openWord.start host m).machine
  rw [start_compile, bind_apply, attempt_apply, Outcome.bind_ok, hok, Outcome.after_machine]
  dsimp only
  rw [bind_of_ok hresult, Outcome.after_machine, bind_apply, attempt_apply, Outcome.bind_ok,
    Outcome.after_machine, serve_machine]
  cases result with
  | error rejection => rfl
  | ok _ => cases (serve (.endWord : Request σ) stopped.machine).answer <;> rfl

end Calculator

/-- Code opens no words and closes none. -/
def Conduct.wordless : Conduct σ := ⟨fun r => r.part ≠ .words, fun _ => True⟩

theorem Conduct.wordless_fair (limit : Nat) : (wordless : Conduct σ).Fair limit :=
  ⟨fun _ h => h, fun _ _ => trivial⟩

theorem Layout.follow_heads {events : List (Event σ)} (h : ∀ event ∈ events, event.Keeps .wordless)
    (l : Layout) : (l.follow events).heads = l.heads := by
  induction events generalizing l with
  | nil => rfl
  | cons event rest ih =>
    obtain ⟨hfirst, hrest⟩ := List.forall_mem_cons.mp h
    refine (ih hrest (l.step event)).trans (l.step_heads ?_ ?_)
    · unfold Event.opensWord
      split
      · exact absurd rfl hfirst
      · rfl
    · unfold Event.closesWord
      split
      · exact absurd rfl hfirst
      · rfl

namespace Calculator

open Machine

variable {host : Host σ} {m : Machine σ}

/-- Where no word can be opened for a line, none is. -/
theorem openWord_of_error (hb : m.Built) {fault : Fault}
    (h : (openWord.start host m).answer = .error fault) :
    (openWord.start host m).machine.openWords.heads = m.openWords.heads := by
  have hplaced : (serve (.newCell : Request σ) m).machine.openWords.heads = m.openWords.heads :=
    hb.newCell_heads
  rw [start_openWord] at h ⊢
  cases hnew : (serve (.newCell : Request σ) m).answer with
  | error full =>
    rw [Step.bind_of_error hnew]
    exact hplaced
  | ok head =>
    rw [Step.bind_of_ok hnew, Outcome.after_answer, serve_answer] at h
    rw [Step.bind_of_ok hnew, Outcome.after_machine, serve_machine]
    change (beginWord head _).answer = _ at h
    change (beginWord head _).machine.openWords.heads = _
    rcases beginWord_cases head (serve (.newCell : Request σ) m).machine with ⟨_, -, hm⟩ | ⟨ha, -⟩
    · rw [hm]
      exact hplaced
    · rw [ha] at h
      cases h

/-- Where no other code opens or closes words, the word that a line opens is the one that is closed. -/
theorem compile_restores (hb : m.Built) (hd : m.callDepth ≤ m.settings.maxCallDepth)
    (hh : host.Keeps .wordless) (words : List String) :
    ((compile host words).start host m).machine.openWords = m.openWords := by
  refine congrArg OpenWords.mk (?_ : _ = m.openWords.heads)
  cases hopen : (openWord.start host m).answer with
  | error fault =>
    rw [start_compile, Step.bind_apply, Step.attempt_apply, Outcome.bind_ok, hopen,
      Outcome.after_machine]
    exact openWord_of_error hb hopen
  | ok _ =>
    obtain ⟨-, hb', hheads, -⟩ := openWord_laid hb hopen
    obtain ⟨-, hsettings, hdepth⟩ := (openWord.start_steady host m.settings m.callDepth).eq rfl rfl
    have hshallow : (openWord.start host m).machine.callDepth ≤
        (openWord.start host m).machine.settings.maxCallDepth := by
      rw [hsettings, hdepth]
      exact hd
    have hevents := (compileWords_keeps (Conduct.wordless_fair 0) hh words).keeps.start
      (Conduct.wordless_fair _) hh hb' hshallow
    have hmoves : Moves (fun _ => False) _ _ _ := (compileWords host words).start_moving host
      (openWord.start host m).machine
    obtain ⟨hstopped, hlayout⟩ := hb'.moves hmoves
    rw [compile_closes hopen, hstopped.endWord_heads]
    have hsame := (congrArg Layout.heads hlayout).trans (Layout.follow_heads hevents _)
    exact congrArg List.tail (hsame.trans hheads)

/-- However the compiling of a line ends, the open words are the ones from before exactly when those
opened meanwhile have been closed and no others. The last one to be closed is whichever is innermost
when the words of the line stop, so it is all in order where no native code opens or closes words. -/
theorem compile_openWords (host : Host σ) (hb : m.Built) (hd : m.callDepth ≤ m.settings.maxCallDepth)
    (words : List String) :
    let opened := openWord.start host m
    let stopped := (compileWords host words).start host opened.machine
    let o := (compile host words).start host m
    (o.machine.openWords = m.openWords ↔ Paired 0 o.events) ∧
    (opened.answer = .ok () →
      o.machine.openWords.heads = stopped.machine.openWords.heads.tail) ∧
    (host.Keeps .wordless → o.machine.openWords = m.openWords) := by
  intro opened stopped o
  refine ⟨compile_paired hb words, fun hok => ?_, fun hh => compile_restores hb hd hh words⟩
  rw [show o.machine = _ from compile_closes hok]
  exact ((hb.start host openWord).start host (compileWords host words)).endWord_heads

end Calculator

namespace Stock

/-- Defines words that open and close others while a line is compiled. -/
def brackets : Program signature Unit := do
  request (.setEntryCopy (← Words.define ":" (.native .colon)) CopyTable.immediate)
  request (.setEntryCopy (← Words.define ";" (.native .semi)) CopyTable.immediate)

/-- A machine with room for these words and a few lines. -/
def bracketed : Machine signature :=
  (brackets.start host (.create (.replicate 64 0) (.replicate 8 .empty) ⟨4, .strict⟩ none)).machine

theorem bracketed_built : bracketed.Built :=
  Machine.Built.start (.of_empty rfl rfl) host brackets

end Stock

/-- The words of the calculator may be told whatever a machine tells, and they ask for no words. -/
theorem Calculator.host_keeps {c : Conduct signature} {limit : Nat} (hf : c.Fair limit) :
    Calculator.host.Keeps c where
  procedure word := by
    have hask : ∀ r : Request signature, r.part ≠ .words → (request r).Keeps c := hf.request
    have htop : (top : Program signature Slot).Keeps c := by
      apply (hask (.nth 0) nofun).bind
      intro slot _
      cases slot with
      | none => exact hf.tells _ nofun
      | some slot => trivial
    have hdescribe : ∀ slot, (describe slot : Program signature String).Keeps c := by
      intro slot
      unfold describe
      split
      · exact (hask (.readFloat slot.value) nofun).bind fun _ _ => trivial
      · trivial
      · exact hask (.readText slot.value) nofun
      · trivial
      · trivial
    have hcombine : ∀ operation, (combine operation : Program signature Unit).Keeps c := by
      intro operation
      apply (hask .popFloat nofun).bind
      intro b _
      exact (hask .popFloat nofun).bind fun a _ => hask (.pushFloat (operation a b)) nofun
    cases word with
    | greet => exact fun _ => hask (.print greeting) nofun
    | add => exact fun _ => hcombine Single.add
    | mul => exact fun _ => hcombine Single.mul
    | dup => exact fun _ => htop.bind fun slot _ => hask (.push slot) nofun
    | print =>
      intro _
      apply htop.bind
      intro slot _
      apply (hdescribe slot).bind
      intro line _
      apply (hask (.print line) nofun).bind
      intro _ _
      exact (hask .pop nofun).bind fun _ _ => trivial
  strategy := nofun

open Machine in
/-- The line of brackets closes the word that was opened for it, and then the one within which it is
compiled is innermost. A line of the calculator leaves all open words alone. -/
theorem Calculator.compile_openWords_of_brackets :
    let line := [":", ";", "nope"]
    let o := (compile Stock.host line).start Stock.host Stock.bracketed
    let filled := ((register id).start host (machine ⟨256, 16, .strict, []⟩)).machine
    let begun := (openWord.start host filled).machine
    (o.answer = .ok (.error ⟨some "nope", .notFound⟩) ∧ Paired 0 o.events ∧
      o.machine.openWords = Stock.bracketed.openWords) ∧
    begun.openWords.heads = [⟨5⟩] ∧
    ((compile host ["1", "nope"]).start host begun).machine.openWords = begun.openWords := by
  intro line o filled begun
  have hpaired : Paired 0 o.events := by decide +kernel
  have hshallow : Stock.bracketed.callDepth ≤ Stock.bracketed.settings.maxCallDepth := by
    decide +kernel
  obtain ⟨hsame, -⟩ := compile_openWords Stock.host Stock.bracketed_built hshallow line
  have hbegun : begun.Built :=
    .start (.start (.of_empty rfl rfl) host (register id)) host openWord
  have hlow : begun.callDepth ≤ begun.settings.maxCallDepth := by decide +kernel
  obtain ⟨-, -, hrestored⟩ := compile_openWords host hbegun hlow ["1", "nope"]
  refine ⟨⟨by decide +kernel, hpaired, hsame.mpr hpaired⟩, by decide +kernel, ?_⟩
  exact hrestored (host_keeps (Conduct.wordless_fair 0))

open Stock in
/-- Where the line opens a word and leaves it open, that one is closed in the place of the line's own.
Where it closes its own word early, the word that it is compiled within is closed as well. -/
theorem Calculator.compile_unpaired :
    let o := (compile Stock.host [":", "nope"]).start Stock.host bracketed
    let begun := (openWord.start Stock.host bracketed).machine
    let o' := (compile Stock.host [";", "nope"]).start Stock.host begun
    (o.answer = .ok (.error ⟨some "nope", .notFound⟩) ∧
      bracketed.openWords.heads = [] ∧ o.machine.openWords.heads = [⟨2⟩]) ∧
    o'.answer = .ok (.error ⟨some "nope", .notFound⟩) ∧
      begun.openWords.heads = [⟨2⟩] ∧ o'.machine.openWords.heads = [] := by
  decide +kernel

end ThreadedCode
