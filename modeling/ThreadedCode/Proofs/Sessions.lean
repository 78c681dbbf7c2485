import ThreadedCode.Proofs.Interpretation
import ThreadedCode.Proofs.Lines
import ThreadedCode.Proofs.Operands

/-!
Sessions. Where there is room for a line, a session reports what the line means.
-/
namespace ThreadedCode

open Machine Step

variable {σ : Signature} {α : Type}

/-- The lines can be told from the events that are no records for the log. -/
theorem Outcome.lines_counted (o : Outcome σ α) :
    o.lines = (o.events.filter (·.notice?.isNone)).filterMap Event.line? := by
  rw [Outcome.lines, List.filterMap_filter]
  congr 1
  funext event
  cases event <;> rfl

namespace Calculator

variable {m n : Machine signature} {known : List Handle} {bound : Nat} {floats : List Single}
  {meaning : Meaning} {item : Item} {meanings : List Meaning} {items : List Item}
  {result : List String × Except Mishap (List Single)} {head : CellId}

namespace Reckons

variable {s t : Step signature Unit} {lines : List String}

theorem of_eq (h : Reckons t m result) (heq : s m = t m) : Reckons s m result :=
  h.congr (by rw [heq]) (by rw [heq]) (by rw [heq])

/-- A reckoning ends with a success, or with one of two faults. -/
theorem answers (h : Reckons s m result) :
    (s m).answer = .ok () ∨ ∃ mishap : Mishap, (s m).answer = .error mishap.fault := by
  obtain ⟨lines, mishap | floats⟩ := result
  · obtain ⟨n, hends⟩ := h
    exact .inr ⟨mishap, hends.answer⟩
  · obtain ⟨stack, hends, -⟩ := h
    exact .inl hends.answer

theorem cells (h : Reckons s m result) (hok : (s m).answer = .ok ()) :
    (s m).machine.cells = m.cells := by
  obtain ⟨lines, mishap | floats⟩ := result
  · obtain ⟨n, hends⟩ := h
    cases hok.symm.trans hends.answer
  · obtain ⟨stack, hends, -⟩ := h
    rw [hends.machine]

/-- One level deeper. -/
theorem nested (h : Reckons s { m with callDepth := m.callDepth + 1 } result) :
    Reckons (Machine.nested s) m result := by
  obtain ⟨lines, mishap | floats⟩ := result
  · obtain ⟨n, hends⟩ := h
    refine ⟨_, ?_, rfl, ?_⟩
    · rw [nested_apply]
      exact hends.answer
    · rw [nested_apply]
      exact hends.lines
  · obtain ⟨stack, hends, hholds⟩ := h
    refine ⟨stack, ⟨?_, ?_, ?_⟩, hholds⟩
    · rw [nested_apply]
      exact hends.answer
    · rw [nested_apply, hends.machine]
      rfl
    · rw [nested_apply]
      exact hends.lines

/-- What goes on from a reckoning, unless it has ended with a mishap. -/
theorem bind {next : Unit → Step signature Unit} {floats : List Single}
    (h : Reckons s m (lines, .ok floats))
    (h' : ∀ stack : Stack, stack.Holds m.bytes floats → Reckons (next ()) { m with stack } result) :
    Reckons (s >>= next) m (lines ++ result.1, result.2) := by
  obtain ⟨stack, hends, hholds⟩ := h
  obtain ⟨rest, mishap | floats⟩ := result
  · obtain ⟨n, hrest⟩ := h' stack hholds
    exact ⟨n, hends.bind hrest⟩
  · obtain ⟨last, hrest, hlast⟩ := h' stack hholds
    exact ⟨last, hends.bind hrest, hlast⟩

theorem called {invoke : Procedure signature → Value → Step signature Unit} {id : CellId}
    {c : Cell signature} (hget : m.cells.get id = .ok c)
    (h : Reckons (invoke c.procedure c.payload) m result) : Reckons (callWith invoke id) m result := by
  have hlogged : Reckons (log (.called id) >>= fun _ => invoke c.procedure c.payload) m result :=
    silent (.log (.called id) m) h
  exact hlogged.of_eq (callWith_of_get hget)

/-- A step that agrees with one that reckons, but for the log. -/
theorem of_agrees (h : Reckons t m result) {settings : Settings} {depth : Nat}
    (hagree : (s m).Agrees (.raised settings 0 depth) (t m)) : Reckons s m result := by
  rcases hagree with ⟨_, ⟨_, rfl⟩, hrefused⟩ | ⟨ha, hr, he⟩
  · -- A refused execution is neither a success nor a mishap.
    rcases h.answers with hok | ⟨mishap, hfault⟩
    · cases hrefused.symm.trans hok
    · cases mishap <;> cases hrefused.symm.trans hfault
  · refine h.congr ha (Lens.raised_zero hr).symm ?_
    rw [Outcome.lines_counted, Outcome.lines_counted]
    exact congrArg _ he

end Reckons

/-- An item does what it stands for. -/
theorem item_reckons (h : Means known bound m meaning item) (hs : m.stack.Holds m.bytes floats)
    (hlimit : m.callDepth < m.settings.maxCallDepth) :
    Reckons (item.run host) m (meaning.act floats) := by
  cases h with
  | @number x v hv hx =>
    cases v with
    | float a =>
      have hread : (readFloat (.float a)).Ends m [] (.ok x) m := ⟨hx, rfl, rfl⟩
      exact .silent hread (push_reckons hs (.boxed x hx))
    | _ => cases hx
  | @primitive word source hlt hget =>
    obtain ⟨body, hbody, hreckons⟩ :=
      word_reckons (m := { m with callDepth := m.callDepth + 1 }) hs word
    refine Reckons.of_eq (.nested ?_) (exec_of_lt host hlimit source)
    refine Reckons.of_eq (.called hget ?_) (execRun_of_leaf host hget rfl)
    exact (hreckons (exec host) .nil).of_eq (invokeUsing_program hbody _ _ _)

/-- Interpreting the items of a line is reckoning what they mean. -/
theorem interpret_reckons (h : List.Forall₂ (Means known bound m) meanings items)
    (hs : m.stack.Holds m.bytes floats) (hlimit : m.callDepth < m.settings.maxCallDepth) :
    Reckons (interpret host items) m (reckon meanings floats) := by
  induction meanings generalizing m items floats with
  | nil =>
    cases h
    exact ⟨m.stack, .pure () m, hs⟩
  | cons meaning rest ih =>
    cases h with
    | @cons _ item _ items hmeans hrest =>
      have hitem := item_reckons hmeans hs hlimit
      rw [interpret, List.forM_cons]
      unfold reckon
      split
      · rename_i lines mishap hact
        rw [hact] at hitem
        obtain ⟨n, hends⟩ := hitem
        exact ⟨n, hends.fail⟩
      · rename_i lines floats' hact
        rw [hact] at hitem
        refine hitem.bind fun stack hholds => ?_
        -- Only the stack has changed, so the items behind go on to stand for what they stood for.
        exact ih (Means.all_of_eq hrest rfl rfl) hholds hlimit

/-- The words of the calculator rewire no cells. -/
theorem means_undisturbed (h : List.Forall₂ (Means known bound m) meanings items)
    (hs : m.stack.Holds m.bytes floats) (hlimit : m.callDepth + 1 < m.settings.maxCallDepth)
    (head : CellId) : Undisturbed host head items m := by
  intro before item after hsplit o hok
  have hbefore : List.Forall₂ (Means known bound m) (meanings.take before.length) before := by
    have htake := List.forall₂_take before.length h
    rwa [hsplit, List.take_left] at htake
  have hreckons := interpret_reckons (m := { m with callDepth := m.callDepth + 1 })
    (Means.all_of_eq hbefore rfl rfl) hs hlimit
  have hcells : o.machine.cells = m.cells := hreckons.cells hok
  rw [hcells]
  exact ⟨rfl, fun _ _ => rfl⟩

/-- Executing the head of a compiled line is reckoning what its words mean. -/
theorem exec_reckons (hb : m.Built) (hl : Laid head items m)
    (h : List.Forall₂ (Means known bound m) meanings items) (hs : m.stack.Holds m.bytes floats)
    (hlimit : m.callDepth + 1 < m.settings.maxCallDepth) :
    Reckons (exec host head) m (reckon meanings floats) := by
  have hpasses : host.Passes Fault.IsRefusal := procedure_passes _
  have hinner := interpret_reckons (m := { m with callDepth := m.callDepth + 1 })
    (Means.all_of_eq h rfl rfl) hs hlimit
  exact hinner.nested.of_agrees (exec_interpret hpasses hb hl (means_undisturbed h hs hlimit head)
    (Nat.lt_of_succ_lt hlimit))

theorem machine_stocked (o : Options) : (machine o).Stocked [] 0 [] where
  ledger := ⟨[], .of_empty rfl rfl rfl rfl rfl (by decide : 3 ≤ CopyTable.capacity), .nil⟩
  below := Nat.zero_le _
  opened := nofun
  copies := rfl
  stack := rfl

/-- The names of the primitives take a hundred and fifteen bytes, with their records. -/
theorem storageOf_natives : Words.storageOf natives = 115 := by decide +kernel

variable {o : Options}

theorem Options.Suffices.room (h : o.Suffices) : (machine o).Room
    (Words.storageOf natives + 4 * numbers o.words) (natives.length + (o.words.length + 1)) := by
  have hcount : natives.length = 5 := rfl
  have hbytes : (machine o).bytes.capacity = o.bytes :=
    Array.size_replicate.trans Array.size_replicate
  have hcells : (machine o).cells.capacity = o.cells :=
    Array.size_replicate.trans Array.size_replicate
  have hused : (machine o).bytes.used = 0 ∧ (machine o).cells.used = 0 := ⟨rfl, rfl⟩
  obtain ⟨hb, hc, ha, hi⟩ := h
  rw [storageOf_natives, hcount]
  exact ⟨by omega, by omega, by omega, by omega⟩

/-- A machine on which the primitives are defined and a line can be compiled and executed. -/
structure Ready (o : Options) (m : Machine signature) : Prop where
  ended : ((register id).start host).Ends (machine o) [] (.ok ()) m
  stocked : ∃ bound known, m.Stocked natives bound known
  closed : m.openWords = .none
  room : m.Room (4 * numbers o.words) (o.words.length + 1)
  settings : m.settings = ⟨maxCallDepth, o.mode⟩
  resting : m.callDepth = 0

theorem Options.Suffices.ready (h : o.Suffices) : ∃ m, Ready o m := by
  obtain ⟨m, bound, known, hended, hs, hclosed, hroom⟩ :=
    Words.register_stocked (machine_stocked o) rfl natives h.room
  obtain ⟨-, hsettings, hdepth⟩ :=
    ((register (σ := signature) id).start_steady host (machine o).settings 0).eq
      (m := machine o) rfl rfl
  have hm : (((register id).start host) (machine o)).machine = m := hended.machine
  rw [hm] at hsettings hdepth
  exact ⟨m, hended, ⟨bound, known, hs⟩, hclosed, hroom, hsettings, hdepth⟩

variable {lines : List String} {k : Machine signature} {words : List String}

theorem evaluate_refused {rejection : Rejection}
    (hready : ((register id).start host).Ends m [] (.ok ()) n)
    (h : ((compile host words).start host).Ends n [] (.ok (.error rejection)) k) :
    (evaluate words).Ends m [] (.ok (.error (.compiling rejection))) k :=
  hready.attempt.silent (h.silent (.pure _ k))

theorem evaluate_executed {last : Machine signature} {answer : Except Fault Unit}
    (hready : ((register id).start host).Ends m [] (.ok ()) n)
    (h : ((compile host words).start host).Ends n [] (.ok (.ok head)) k)
    (hexec : (exec host head).Ends k lines answer last) :
    (evaluate words).Ends m lines (.ok (answer.mapError .executing)) last := by
  refine hready.attempt.silent (h.silent ?_)
  rw [← List.append_nil lines]
  refine hexec.attempt.bind ?_
  cases answer with
  | ok _ => exact .pure _ last
  | error fault => exact .pure _ last

/-- What is left on the stack is printed, the top first. -/
theorem leftovers_holds (h : m.stack.Holds m.bytes floats) :
    leftovers m = floats.map fun x => .ok x.text := by
  obtain ⟨-, hslots⟩ := h
  unfold leftovers
  generalize m.stack.active.reverse = slots at hslots
  induction hslots with
  | nil => rfl
  | cons hx _ ih =>
    rw [List.map_cons, List.map_cons, ih]
    exact congrArg (· :: _) (describe_holds hx).answer

theorem run_of_failure {failure : Failure}
    (h : (evaluate o.words).Ends (machine o) lines (.ok (.error failure)) n) :
    run o = ⟨lines, [failure.message], 1⟩ := by
  simp only [run, h.answer, h.lines]

theorem run_of_success (h : (evaluate o.words).Ends (machine o) lines (.ok (.ok ())) n)
    (hs : n.stack.Holds n.bytes floats) : run o = ⟨lines ++ floats.map Single.text, [], 0⟩ := by
  have hshown : (floats.map fun x => (.ok x.text : Except Fault String)).filterMap Except.toOption =
      floats.map Single.text := by
    rw [List.filterMap_map]
    exact congrFun (List.filterMap_eq_map (f := Single.text)) floats
  have hcomplaints :
      (floats.map fun x => (.ok x.text : Except Fault String)).filterMap complaint? = [] := by
    rw [List.filterMap_map]
    exact List.filterMap_eq_nil_iff.mpr fun _ _ => rfl
  simp only [run, h.answer, h.lines, h.machine, leftovers_holds hs, hshown, hcomplaints]

theorem notFound_message (word : String) :
    Failure.message (.compiling ⟨some word, .notFound⟩) =
      "Error compiling: " ++ word ++ ": word not found" := by
  have hmessage : ": " ++ Fault.notFound.message = ": word not found" := by decide +kernel
  rw [← hmessage]
  change "Error compiling: " ++ (word ++ ": " ++ Fault.notFound.message) = _
  rw [String.append_assoc, String.append_assoc]

/-- The first word without a meaning is all that is reported. -/
theorem run_refused (h : o.Suffices) {word : String}
    (hbad : (o.words.find? fun word => (meaning? o.mode word).isNone) = some word) :
    run o = ⟨[], ["Error compiling: " ++ word ++ ": word not found"], 1⟩ := by
  obtain ⟨m, hready⟩ := h.ready
  obtain ⟨bound, known, hs⟩ := hready.stocked
  have hmode : m.settings.mode = o.mode := by rw [hready.settings]
  obtain ⟨n, hrefused⟩ := compile_refused hs hready.closed (by rw [hmode]; exact hbad) hready.room
  rw [run_of_failure (evaluate_refused hready.ended hrefused), notFound_message]

/-- A line of words with a meaning is compiled, and its execution reckons what they mean. -/
theorem evaluate_reckons (h : o.Suffices)
    (hall : (o.words.find? fun word => (meaning? o.mode word).isNone) = none) :
    ∃ n head, Reckons (exec host head) n (reckon (o.words.filterMap (meaning? o.mode)) []) ∧
      ∀ lines answer last, (exec host head).Ends n lines answer last →
        (evaluate o.words).Ends (machine o) lines (.ok (answer.mapError .executing)) last := by
  obtain ⟨m, hready⟩ := h.ready
  obtain ⟨bound, known, hs⟩ := hready.stocked
  have hmode : m.settings.mode = o.mode := by rw [hready.settings]
  obtain ⟨n, head, items, hline⟩ :=
    compile_readied hs hready.closed (by rw [hmode]; exact hall) hready.room
  obtain ⟨known', hmeans⟩ := hline.means
  rw [hmode] at hmeans
  have hholds : n.stack.Holds n.bytes [] := by
    have hstack : n.stack = .empty := (congrArg Machine.stack hline.alike).trans hs.stack
    rw [hstack]
    exact .empty n.bytes
  obtain ⟨-, hsettings, hdepth⟩ :=
    ((compile host o.words).start_steady host m.settings 0).eq rfl hready.resting
  rw [hline.ended.machine] at hsettings hdepth
  have hlimit : n.callDepth + 1 < n.settings.maxCallDepth := by
    rw [hdepth, hsettings, hready.settings]
    exact (by decide : 0 + 1 < maxCallDepth)
  exact ⟨n, head, exec_reckons hline.built hline.laid hmeans hholds hlimit,
    fun _ _ _ hexec => evaluate_executed hready.ended hline.ended hexec⟩

/-- Where there is room for the line, a session reports what the line means: whether all its words mean
something, what is printed up to a mishap, and what is left. Nothing else can go wrong. -/
theorem run_eq_expected (o : Options) (h : o.Suffices) : run o = expected o := by
  unfold expected
  split
  · rename_i word hbad
    exact run_refused h hbad
  · rename_i hall
    obtain ⟨n, head, hreckons, hevaluate⟩ := evaluate_reckons h hall
    split
    · rename_i lines mishap hresult
      rw [hresult] at hreckons
      obtain ⟨last, hends⟩ := hreckons
      rw [run_of_failure (hevaluate _ _ _ hends)]
      cases mishap <;> rfl
    · rename_i lines floats hresult
      rw [hresult] at hreckons
      obtain ⟨stack, hends, hleft⟩ := hreckons
      exact run_of_success (hevaluate _ _ _ hends) hleft

/-- The arenas have no byte and no cell to spare. In compatible mode the first letters of a name are
enough for a word. -/
theorem run_eq_expected_of_duplicate :
    let o : Options := ⟨119, 10, .compatible, ["1", "dup", ".", "te"]⟩
    o.Suffices ∧ run o = ⟨["1", greeting, "1"], [], 0⟩ := by
  intro o
  have hs : o.Suffices := by
    refine ⟨?_, ?_, ?_, ?_⟩ <;> decide +kernel
  exact ⟨hs, (run_eq_expected o hs).trans (by decide +kernel)⟩

end Calculator
end ThreadedCode
