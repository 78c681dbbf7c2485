/-!
Transcripts. A system that obeys commands leaves a transcript, every command with its answer. Two
systems that answer each command alike, on states that stay related, leave the same transcript.
-/
namespace ThreadedCode

variable {State Model Command Answer : Type}

/-- Obeys commands one after another and notes each with its answer. -/
def transcript (obey : State → Command → Answer × State) (s : State) :
    List Command → List (Command × Answer) × State
  | [] => ([], s)
  | command :: rest =>
    let now := obey s command
    let later := transcript obey now.2 rest
    ((command, now.1) :: later.1, later.2)

variable {obey : State → Command → Answer × State} {model : Model → Command → Answer × Model}

/-- What each command keeps, and what its answer adds to the past, holds of every transcript. -/
theorem transcript_invariant {I : List (Command × Answer) → State → Prop}
    (hstep : ∀ past s command, I past s →
      I (past ++ [(command, (obey s command).1)]) (obey s command).2)
    (commands : List Command) {past : List (Command × Answer)} {s : State} (h : I past s) :
    I (past ++ (transcript obey s commands).1) (transcript obey s commands).2 := by
  induction commands generalizing past s with
  | nil => simpa [transcript] using h
  | cons command rest ih => simpa [transcript] using ih (hstep past s command h)

/-- One command answered alike leads to the same transcript of many. -/
theorem transcript_eq {R : State → Model → Prop}
    (hstep : ∀ s t command, R s t →
      (obey s command).1 = (model t command).1 ∧ R (obey s command).2 (model t command).2)
    (commands : List Command) {s : State} {t : Model} (h : R s t) :
    (transcript obey s commands).1 = (transcript model t commands).1 ∧
      R (transcript obey s commands).2 (transcript model t commands).2 := by
  induction commands generalizing s t with
  | nil => exact ⟨rfl, h⟩
  | cons command rest ih =>
    obtain ⟨hanswer, hnext⟩ := hstep s t command h
    obtain ⟨hlater, hlast⟩ := ih hnext
    exact ⟨by simp only [transcript, hanswer, hlater], hlast⟩

end ThreadedCode
