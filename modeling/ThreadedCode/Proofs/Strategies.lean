import ThreadedCode.Proofs.Histories
import ThreadedCode.Proofs.Renewal

/-!
Copy strategies. An id that has been handed out means the same strategy as long as the machine lives,
over all resets, and every entry has an id of these.
-/
namespace ThreadedCode

variable {σ : Signature} {allowed : Value → Prop}

/-- The machines that operations and resets lead to, each with all that has happened since it was
made. -/
inductive Life (host : Host σ) : List (Event σ) → Machine σ → Prop
  | created (bytes : Array UInt8) (cells : Array (Cell σ)) (settings : Settings)
    (verbosity : Option Level) : Life host [] (.create bytes cells settings verbosity)
  | did {life : List (Event σ)} {m : Machine σ} (h : Life host life m) (deed : Deed σ) :
    Life host (life ++ (deed.step host m).events) (deed.step host m).machine

namespace Event

/-- Whether the event is a call that registers a strategy, successful or not. -/
def isRegistration : Event σ → Bool
  | .served (.registerStrategy _) _ => true
  | _ => false

/-- The strategy that an event has put into the copy table. -/
def registers : Event σ → List (Strategy σ)
  | .served (.registerStrategy strategy) (.ok _) => [strategy]
  | _ => []

end Event

/-- The number of calls for a registration among the events. -/
def registrations (events : List (Event σ)) : Nat := events.countP Event.isRegistration

/-- The strategies registered by the events, in order. -/
def registered (events : List (Event σ)) : List (Strategy σ) := events.flatMap Event.registers

@[simp] theorem registrations_append (first rest : List (Event σ)) :
    registrations (first ++ rest) = registrations first + registrations rest := List.countP_append

@[simp] theorem registered_append (first rest : List (Event σ)) :
    registered (first ++ rest) = registered first ++ registered rest := List.flatMap_append

@[simp] theorem registrations_logged (notices : List Notice) :
    registrations (notices.map (Event.logged (σ := σ))) = 0 := by
  simp [registrations, Event.isRegistration]

@[simp] theorem registered_logged (notices : List Notice) :
    registered (notices.map (Event.logged (σ := σ))) = [] := by
  induction notices with
  | nil => rfl
  | cons notice rest ih => exact ih

/-- The answer to a registration after so many calls for one: the ids from three on, until the table is
full. -/
def CopyTable.verdict (calls : Nat) : Except Fault CopyId :=
  if calls < 13 then .ok ⟨3 + calls⟩ else .error .copyTableFull

namespace Machine

theorem reset_events (m : Machine σ) :
    ∃ notices : List Notice, (Machine.reset m).events = notices.map .logged := by
  obtain ⟨first, hfirst⟩ := Step.log_events (.cellArenaReady m.cleared.cells.capacity) m.cleared
  obtain ⟨second, hsecond⟩ := Step.log_events (.byteArenaReady m.cleared.bytes.capacity) m.cleared
  refine ⟨first ++ second, ?_⟩
  rw [List.map_append, ← hfirst, ← hsecond]
  rfl

/-- The copy table is as the machine's life tells. -/
structure Enrolled (m : Machine σ) (life : List (Event σ)) : Prop where
  rows : m.copies.rows = CopyTable.standard.rows ++ registered life
  count : (registered life).length = min 13 (registrations life)
  answers : ∀ before strategy answer after,
    life = before ++ .served (.registerStrategy strategy) answer :: after →
      answer = CopyTable.verdict (registrations before)
  named : ∀ k strategy, (registered life)[k]? = some strategy ↔
    .served (.registerStrategy strategy) (.ok ⟨3 + k⟩) ∈ life

namespace Enrolled

variable {m n : Machine σ} {life : List (Event σ)}

theorem created (bytes : Array UInt8) (cells : Array (Cell σ)) (settings : Settings)
    (verbosity : Option Level) : (Machine.create bytes cells settings verbosity).Enrolled [] where
  rows := rfl
  count := rfl
  answers _ _ _ _ h := by simp at h
  named k strategy := by simp [registered]

/-- Events that are no registrations. -/
theorem quiet (h : m.Enrolled life) (hc : n.copies = m.copies) {events : List (Event σ)}
    (he : ∀ event ∈ events, event.isRegistration = false) : n.Enrolled (life ++ events) := by
  have hregistered : registered events = [] := by
    refine List.flatMap_eq_nil_iff.mpr fun event hevent => ?_
    have hnone := he event hevent
    unfold Event.isRegistration at hnone
    split at hnone
    · cases hnone
    · rename_i hother
      unfold Event.registers
      split
      · exact absurd rfl (hother _ _)
      · rfl
  have hcount : registrations events = 0 := by
    refine List.countP_eq_zero.mpr fun event hevent => ?_
    simp [he event hevent]
  constructor
  · rw [hc, h.rows, registered_append, hregistered, List.append_nil]
  · rw [registered_append, hregistered, List.append_nil, registrations_append, hcount]
    exact h.count
  · intro before strategy answer after hsplit
    rcases List.append_eq_append_iff.mp hsplit with ⟨mid, rfl, hmid⟩ | ⟨mid, hlife, hmid⟩
    · have hbad := he (.served (.registerStrategy strategy) answer) (by simp [hmid])
      cases hbad
    · cases mid with
      | nil =>
        rw [List.nil_append] at hmid
        have hbad := he (.served (.registerStrategy strategy) answer) (hmid ▸ List.mem_cons_self ..)
        cases hbad
      | cons event mid =>
        obtain ⟨rfl, -⟩ := List.cons.inj hmid
        exact h.answers before strategy answer mid hlife
  · intro k strategy
    rw [registered_append, hregistered, List.append_nil, h.named, List.mem_append, or_iff_left]
    intro hbad
    cases he _ hbad

theorem length (h : m.Enrolled life) : m.copies.rows.length = 3 + min 13 (registrations life) := by
  rw [h.rows, List.length_append, h.count]
  rfl

/-- A call for a registration is answered by the number of the calls before it. -/
theorem register (h : m.Enrolled life) (strategy : Strategy σ) :
    (registrations life < 13 ∧
      (perform (.registerStrategy strategy) m).answer = .ok ⟨3 + registrations life⟩ ∧
      (perform (.registerStrategy strategy) m).machine.copies.rows = m.copies.rows ++ [strategy]) ∨
    (13 ≤ registrations life ∧
      (perform (.registerStrategy strategy) m).answer = .error .copyTableFull ∧
      (perform (.registerStrategy strategy) m).machine.copies.rows = m.copies.rows) := by
  have hlength := h.length
  have hcapacity : CopyTable.capacity = 16 := rfl
  rcases registerStrategy_cases strategy m with ⟨hroom, ha, hm⟩ | ⟨hfull, ha, hm⟩
  · have hnumber : m.copies.rows.length = 3 + registrations life := by omega
    exact .inl ⟨by omega, ha.trans (by rw [hnumber]), congrArg (·.copies.rows) hm⟩
  · exact .inr ⟨by omega, ha, congrArg (·.copies.rows) hm⟩

/-- The next call is answered as the calls before it tell. -/
theorem answers_append (h : m.Enrolled life) {strategy : Strategy σ} {answer : Except Fault CopyId}
    (hanswer : answer = CopyTable.verdict (registrations life)) :
    ∀ before other answer' after, life ++ [.served (.registerStrategy strategy) answer] =
      before ++ .served (.registerStrategy other) answer' :: after →
        answer' = CopyTable.verdict (registrations before) := by
  intro before other answer' after hsplit
  rcases List.eq_nil_or_concat after with rfl | ⟨after, last, rfl⟩
  · obtain ⟨rfl, hsame⟩ := List.append_inj' hsplit rfl
    obtain ⟨-, hsame⟩ := Event.served.inj (List.cons.inj hsame).1
    exact (eq_of_heq hsame).symm.trans hanswer
  · rw [List.concat_eq_append, ← List.cons_append, ← List.append_assoc] at hsplit
    exact h.answers before other answer' after (List.append_inj' hsplit rfl).1

/-- The strategy that has just been registered is told under the next number. -/
theorem named_append (h : m.Enrolled life) (strategy other : Strategy σ) (k : Nat) :
    (registered life ++ [strategy])[k]? = some other ↔
      .served (.registerStrategy other) (.ok ⟨3 + k⟩) ∈
        life ++ [.served (.registerStrategy strategy) (.ok ⟨3 + (registered life).length⟩)] := by
  have hnew : .served (.registerStrategy other) (.ok ⟨3 + k⟩) ∈
      [Event.served (.registerStrategy strategy) (.ok ⟨3 + (registered life).length⟩)] ↔
      other = strategy ∧ k = (registered life).length := by
    rw [List.mem_singleton]
    refine ⟨fun he => ?_, fun ⟨hother, hk⟩ => by rw [hother, hk]⟩
    obtain ⟨hother, hanswer⟩ := Event.served.inj he
    cases hother
    have hnumber := congrArg CopyId.number (Except.ok.inj (eq_of_heq hanswer))
    exact ⟨rfl, Nat.add_left_cancel hnumber⟩
  rw [List.mem_append, ← h.named, hnew]
  rcases Nat.lt_trichotomy k (registered life).length with hk | rfl | hk
  · rw [List.getElem?_append_left hk, or_iff_left fun he => Nat.ne_of_lt hk he.2]
  · simp [eq_comm]
  · have hnone : (registered life ++ [strategy])[k]? = none :=
      List.getElem?_eq_none (by rw [List.length_append]; exact hk)
    rw [hnone, List.getElem?_eq_none (Nat.le_of_lt hk), or_iff_left fun he => Nat.ne_of_gt hk he.2]

theorem registration (h : m.Enrolled life) (strategy : Strategy σ) :
    (perform (.registerStrategy strategy) m).machine.Enrolled
      (life ++ [.served (.registerStrategy strategy)
        (perform (.registerStrategy strategy) m).answer]) := by
  rcases h.register strategy with ⟨hroom, ha, hm⟩ | ⟨hfull, ha, hm⟩
  · have hnumber : registrations life = (registered life).length := by
      have := h.count
      omega
    rw [ha]
    constructor
    · rw [hm, h.rows, registered_append, List.append_assoc]
      rfl
    · rw [registered_append, registrations_append, List.length_append, ← hnumber]
      change _ + 1 = min 13 (_ + 1)
      omega
    · exact h.answers_append (by rw [CopyTable.verdict, if_pos hroom])
    · intro k other
      rw [registered_append, hnumber]
      exact h.named_append strategy other k
  · rw [ha]
    constructor
    · rw [hm, h.rows, registered_append]
      exact congrArg _ (List.append_nil _).symm
    · rw [registered_append, registrations_append, List.length_append, h.count]
      change _ + 0 = min 13 (_ + 1)
      omega
    · exact h.answers_append (by rw [CopyTable.verdict, if_neg (by omega)])
    · intro k other
      rw [registered_append, List.mem_append, ← h.named, or_iff_left]
      · exact iff_of_eq (congrArg (fun rows : List (Strategy σ) => rows[k]? = some other) (List.append_nil _))
      · intro hbad
        obtain ⟨-, hbad⟩ := Event.served.inj (List.mem_singleton.mp hbad)
        exact absurd (eq_of_heq hbad) nofun

theorem get_iff (h : m.Enrolled life) (k : Nat) (strategy : Strategy σ) :
    m.copies.get ⟨3 + k⟩ = .ok strategy ↔ .served (.registerStrategy strategy) (.ok ⟨3 + k⟩) ∈ life := by
  have hlength : (CopyTable.standard (σ := σ)).rows.length = 3 := rfl
  rw [← h.named]
  unfold CopyTable.get
  rw [h.rows, List.getElem?_append_right (by rw [hlength]; exact Nat.le_add_right ..), hlength,
    Nat.add_sub_cancel_left]
  cases (registered life)[k]? with
  | none => exact ⟨nofun, nofun⟩
  | some other =>
    exact ⟨fun he => congrArg some (Except.ok.inj he), fun he => congrArg Except.ok (Option.some.inj he)⟩

/-- What is in the table is standard or has been registered. -/
theorem standard_or_registered (h : m.Enrolled life) {id : CopyId} {strategy : Strategy σ}
    (hs : m.copies.get id = .ok strategy) : id ∈ CopyTable.standardIds ∨
      .served (.registerStrategy strategy) (.ok id) ∈ life := by
  obtain ⟨number⟩ := id
  match number with
  | 0 | 1 | 2 => exact .inl (by decide)
  | k + 3 =>
    rw [Nat.add_comm k 3] at hs ⊢
    exact .inr ((h.get_iff k strategy).mp hs)

theorem move {events : List (Event σ)} (h : m.Enrolled life) (hm : Move allowed m events n) :
    n.Enrolled (life ++ events) := by
  have hlogged : ∀ notices : List Notice, ∀ event ∈ notices.map (Event.logged (σ := σ)),
      event.isRegistration = false := by
    intro notices event he
    obtain ⟨notice, -, rfl⟩ := List.mem_map.mp he
    rfl
  rcases hm.quiet_or_served with ⟨notices, stack, depth, rfl, rfl⟩ | ⟨r, notices, rfl, rfl⟩
  · exact h.quiet (n := { m with stack, callDepth := depth }) rfl (hlogged notices)
  · rw [← List.append_assoc]
    have hbefore : m.Enrolled (life ++ notices.map .logged) := h.quiet rfl (hlogged notices)
    by_cases hp : r.part = .copies
    · cases r with
      | registerStrategy strategy => exact hbefore.registration strategy
      | _ => cases hp
    · refine hbefore.quiet ((perform_kept r m).copies hp) fun event he => ?_
      obtain rfl := List.mem_singleton.mp he
      cases r with
      | registerStrategy strategy => exact absurd rfl hp
      | _ => rfl

theorem moves {events : List (Event σ)} (h : m.Enrolled life) (hm : Moves allowed m events n) :
    n.Enrolled (life ++ events) :=
  hm.preserve (I := fun life m => m.Enrolled life) (fun _ _ _ _ h hm => h.move hm) life h

theorem deed {host : Host σ} (h : m.Enrolled life) (deed : Deed σ) :
    (deed.step host m).machine.Enrolled (life ++ (deed.step host m).events) := by
  cases deed with
  | operate op => exact h.moves (op.moves host m)
  | reset =>
    refine h.quiet (n := (Machine.reset m).machine) rfl fun event he => ?_
    obtain ⟨notices, hn⟩ := reset_events m
    change event ∈ (Machine.reset m).events at he
    rw [hn] at he
    obtain ⟨notice, -, rfl⟩ := List.mem_map.mp he
    rfl

end Enrolled
end Machine

theorem Life.enrolled {host : Host σ} {life : List (Event σ)} {m : Machine σ} (h : Life host life m) :
    m.Enrolled life := by
  induction h with
  | created bytes cells settings verbosity => exact .created bytes cells settings verbosity
  | did _ deed ih => exact ih.deed deed

namespace CopyTable

theorem get_eq_ok {t : CopyTable σ} {id : CopyId} {strategy : Strategy σ} :
    t.get id = .ok strategy ↔ t.rows[id.number]? = some strategy := by
  unfold get
  split
  · rename_i s hs
    rw [hs]
    exact ⟨fun h => congrArg some (Except.ok.inj h), fun h => congrArg Except.ok (Option.some.inj h)⟩
  · rename_i hs
    rw [hs]
    exact ⟨nofun, nofun⟩

theorem get_of_prefix {t u : CopyTable σ} (hp : t.rows <+: u.rows) {id : CopyId} {strategy : Strategy σ}
    (h : t.get id = .ok strategy) : u.get id = .ok strategy := by
  obtain ⟨extra, hextra⟩ := hp
  rw [get_eq_ok] at h ⊢
  rw [← hextra, List.getElem?_append_left (List.getElem?_eq_some_iff.mp h).1]
  exact h

end CopyTable

namespace Machine

variable {m n : Machine σ} {past events : List (Event σ)} {r : Request σ}

/-- The copy table only grows. -/
theorem perform_copies_extend (r : Request σ) (m : Machine σ) :
    m.copies.rows <+: (perform r m).machine.copies.rows := by
  by_cases hp : r.part = .copies
  · cases r with
    | registerStrategy strategy =>
      change m.copies.rows <+: (registerStrategy strategy m).machine.copies.rows
      rcases registerStrategy_cases strategy m with ⟨-, -, hm⟩ | ⟨-, -, hm⟩
      · rw [hm]
        exact List.prefix_append ..
      · exact ⟨[], by rw [hm, List.append_nil]⟩
    | _ => cases hp
  · exact ⟨[], by rw [List.append_nil, (perform_kept r m).copies hp]⟩

/-- The strategy that is set for an entry is in the copy table. -/
theorem get_of_setEntryCopy {id : EntryId} {copy : CopyId}
    (h : (setEntryCopy id copy m).answer = .ok ()) : ∃ strategy, m.copies.get copy = .ok strategy := by
  cases hget : m.copies.get copy with
  | ok strategy => exact ⟨strategy, rfl⟩
  | error fault =>
    simp only [setEntryCopy, Step.bind_apply, Step.get_apply, Step.lift_apply, Outcome.bind_ok, hget,
      Outcome.bind_error, Outcome.after_nil] at h
    cases h

theorem get_of_createEntry {cell : CellId} {id : EntryId} (h : (createEntry cell m).answer = .ok id) :
    ∃ c, m.cells.get cell = .ok c := by
  cases hget : m.cells.get cell with
  | ok c => exact ⟨c, rfl⟩
  | error fault =>
    simp only [createEntry, Step.bind_apply, Step.get_apply, Step.lift_apply, Outcome.bind_ok, hget,
      Outcome.bind_error, Outcome.after_nil] at h
    cases h

/-- The entries created in a past are of cells handed out, and have strategies from the copy table. -/
structure Wired (m : Machine σ) (past : List (Event σ)) : Prop where
  cells : ∀ cell id, (cell, id) ∈ creations past → cell.index < m.cells.used
  strategies : ∀ id, ∃ strategy, m.copies.get (strategyOf past id) = .ok strategy

namespace Wired

theorem served (h : m.Wired past) (hb : m.Built) (r : Request σ) :
    (perform r m).machine.Wired (past ++ [.served r (perform r m).answer]) where
  cells cell id hid := by
    have hserved : Move (fun _ => False) m (serve r m).events (serve r m).machine := .served m r
    have hgrown : m.cells.used ≤ (perform r m).machine.cells.used := hb.moves_used (.single hserved)
    rw [creations_append] at hid
    rcases List.mem_append.mp hid with hold | hnew
    · exact Nat.lt_of_lt_of_le (h.cells cell id hold) hgrown
    · obtain ⟨rfl, ha⟩ := Event.served.inj (Event.eq_of_creates (by simpa [creations] using hnew))
      obtain ⟨c, hget⟩ := get_of_createEntry (eq_of_heq ha)
      exact Nat.lt_of_lt_of_le (CellArena.get_eq_ok.mp hget).1 hgrown
  strategies id := by
    rw [strategyOf_served]
    cases hsets : (Event.served r (perform r m).answer).sets id with
    | none =>
      obtain ⟨strategy, hs⟩ := h.strategies id
      exact ⟨strategy, CopyTable.get_of_prefix (perform_copies_extend r m) hs⟩
    | some copy =>
      obtain ⟨rfl, ha⟩ := Event.served.inj (Event.eq_of_sets hsets)
      obtain ⟨strategy, hs⟩ := get_of_setEntryCopy (eq_of_heq ha)
      exact ⟨strategy, CopyTable.get_of_prefix (perform_copies_extend _ m) hs⟩

theorem move (h : m.Wired past) (hb : m.Built) (hm : Move allowed m events n) :
    n.Wired (past ++ events) := by
  have hlogged : ∀ (notices : List Notice) stack callDepth,
      Wired { m with stack, callDepth } (past ++ notices.map .logged) := by
    intro notices stack callDepth
    constructor
    · simpa using h.cells
    · simpa [strategyOf_logged] using h.strategies
  rcases hm.quiet_or_served with ⟨notices, stack, depth, rfl, rfl⟩ | ⟨r, notices, rfl, rfl⟩
  · exact hlogged notices stack depth
  · rw [← List.append_assoc]
    exact (hlogged notices m.stack m.callDepth).served hb r

end Wired
end Machine

/-- This holds in every run, whatever handles are used. -/
theorem Run.wired {host : Host σ} {past events : List (Event σ)} {m n : Machine σ}
    (h : Run host past m) (hm : Moves allowed m events n) : n.Wired (past ++ events) := by
  have hempty : ∀ m : Machine σ, m.Registered → m.Wired [] := by
    intro m hr
    refine ⟨nofun, fun id => ⟨.link, ?_⟩⟩
    exact CopyTable.get_of_prefix hr.1 (t := CopyTable.standard) rfl
  have hall : n.Built ∧ n.Wired (past ++ events) := by
    refine hm.preserve (I := fun past m => m.Built ∧ m.Wired past) ?_ past ⟨h.built.1, ?_⟩
    · exact fun past m events n hw hm => ⟨(hw.1.move hm).1, hw.2.move hw.1 hm⟩
    · refine (h.invariant (I := fun past m => m.Built ∧ m.Registered ∧ m.Wired past) ?_ ?_ ?_).2.2
      · intro bytes cells settings verbosity
        have hrun : Run host [] _ := .created bytes cells settings verbosity
        exact ⟨.of_empty rfl rfl, hrun.registered, hempty _ hrun.registered⟩
      · intro past m hw
        exact ⟨.of_empty rfl rfl, hw.2.1, hempty _ hw.2.1⟩
      · intro given past m events n hw hm
        exact ⟨(hw.1.move hm).1, hw.2.1.move hm, hw.2.2.move hw.1 hm⟩
  exact hall.2

/-- A request that leaves the machine as it is and tells the log nothing. -/
theorem serve_of_still {r : Request σ} {m : Machine σ} {a : r.Answer} (h : perform r m = ⟨.ok a, m, []⟩) :
    serve r m = ⟨.ok a, m, [.served r (.ok a)]⟩ := by
  simp only [serve, Step.bind_apply, Step.attempt_apply, h, Outcome.bind_ok, Outcome.after_nil,
    Step.emit_apply, Step.lift_apply]
  rfl

/-- To copy an entry is to read it and to run the strategy that its id stands for. -/
theorem Words.copy_run (host : Host σ) {exec : CellId → Step σ Unit} {m : Machine σ} {id : EntryId}
    {e : Entry} {strategy : Strategy σ} (he : Machine.entry id m = ⟨.ok e, m, []⟩)
    (hs : m.copies.get e.copy = .ok strategy) (dest : CellId) :
    (Words.copy host id dest).run exec m = ((strategy.program host e.cell dest).run exec m).after
      [.served (.entry id) (.ok e), .served (.strategy e.copy) (.ok strategy)] := by
  have hread : serve (.entry id) m = ⟨.ok e, m, [.served (.entry id) (.ok e)]⟩ := serve_of_still he
  have hget : serve (.strategy e.copy) m =
      ⟨.ok strategy, m, [.served (.strategy e.copy) (.ok strategy)]⟩ := by
    refine serve_of_still ?_
    simp only [perform, Step.bind_apply, Step.get_apply, Outcome.bind_ok, Outcome.after_nil,
      Step.lift_apply, hs]
  rw [Words.copy, Program.run_bind, Program.run_request, Step.bind_apply, hread, Outcome.bind_ok,
    Program.run_bind, Program.run_request, Step.bind_apply, hget, Outcome.bind_ok, Outcome.after_after]
  rfl

/-- Over the whole life of a machine, with all its resets, the first thirteen registrations are given
the ids from three on, and every later one fails. At every moment of it an id that has been given out
stands for what it was registered for. In a fresh run the id of every entry is one of these or of the
standard ones, so that to copy an entry is to run the strategy that was set last, on the cell of the
entry. -/
theorem Life.strategies {host : Host σ} {life events : List (Event σ)} {m n : Machine σ}
    (h : Life host life m) (hm : Moves allowed m events n) :
    (∀ before strategy answer after,
      life ++ events = before ++ .served (.registerStrategy strategy) answer :: after →
      answer = CopyTable.verdict (registrations before) ∧
      ∀ id, answer = .ok id → n.copies.get id = .ok strategy) ∧
    (n.copies.get CopyTable.link = .ok .link ∧ n.copies.get CopyTable.inline = .ok .inline ∧
      n.copies.get CopyTable.immediate = .ok .immediate) ∧
    ∀ past, FreshRun host past m → (∀ v, allowed v → v.handles ⊆ given past) →
      Fresh (given past) events → ∀ cell id, (cell, id) ∈ creations (past ++ events) →
      let copy := strategyOf (past ++ events) id
      ∃ strategy name, n.copies.get copy = .ok strategy ∧
        (copy ∈ CopyTable.standardIds ∨
          .served (.registerStrategy strategy) (.ok copy) ∈ life ++ events) ∧
        Machine.entry id n = ⟨.ok ⟨cell, copy, name⟩, n, []⟩ ∧
        ∀ exec dest, (Words.copy host id dest).run exec n =
          ((strategy.program host cell dest).run exec n).after
            [.served (.entry id) (.ok ⟨cell, copy, name⟩), .served (.strategy copy) (.ok strategy)] := by
  have he := h.enrolled.moves hm
  have hstandard : ∀ {id strategy}, (CopyTable.standard (σ := σ)).get id = .ok strategy →
      n.copies.get id = .ok strategy :=
    CopyTable.get_of_prefix (by rw [he.rows]; exact List.prefix_append ..)
  refine ⟨fun before strategy answer after hsplit => ?_, ⟨hstandard rfl, hstandard rfl, hstandard rfl⟩,
    fun past hrun hallowed hev cell id hid => ?_⟩
  · have ha := he.answers before strategy answer after hsplit
    refine ⟨ha, fun id hid => ?_⟩
    rw [hid, CopyTable.verdict] at ha
    split at ha
    · cases ha
      refine (he.get_iff _ strategy).mpr ?_
      rw [hsplit, hid]
      exact List.mem_append_right _ (List.mem_cons_self ..)
    · cases ha
  · obtain ⟨w, -, hread, -⟩ :=
      (hrun.chronicled hallowed hev hm).entry (hrun.ledger_amid hallowed hev hm) hid
    obtain ⟨strategy, hs⟩ := (hrun.run.wired hm).strategies id
    exact ⟨strategy, w.entry.name, hs, he.standard_or_registered hs, hread,
      fun exec dest => Words.copy_run host hread hs dest⟩

/-- A strategy is registered. -/
def Stock.enroll : Program Stock.signature Unit := do
  let _ ← request (.registerStrategy (.host Stock.Wiring.quote))

/-- An entry is given the strategy of the first id after the standard ones. -/
def Stock.quoted : Program Stock.signature Unit := do
  let cell ← request .newCell
  let entry ← request (.createEntry cell)
  request (.setEntryCopy entry ⟨3⟩)

open Stock in
/-- The strategy has been registered before a reset, and is set for an entry after it. -/
theorem Life.strategies_of_quoted :
    let m : Machine signature := .create (.replicate 20 7) (.replicate 1 .empty) ⟨1, .strict⟩ none
    let m := (Machine.reset (enroll.start host m).machine).machine
    let o := quoted.start host m
    (∃ life, Life host life m) ∧ FreshRun host [] m ∧
    Fresh (given ([] : List (Event signature))) o.events ∧
    Moves (Operation.program quoted).Gives m o.events o.machine ∧
    o.machine.copies.get ⟨3⟩ = .ok (.host Wiring.quote) ∧
    ∃ name, (Words.copy host ⟨⟨0⟩⟩ ⟨0⟩).start host o.machine =
      ((request (.bindLiteral ⟨0⟩ (.cell ⟨0⟩))).start host o.machine).after
        [.served (.entry ⟨⟨0⟩⟩) (.ok ⟨⟨0⟩, ⟨3⟩, name⟩),
          .served (.strategy ⟨3⟩) (.ok (.host Wiring.quote))] := by
  intro m₀ m o
  have hcreated : FreshRun host [] m₀ := .created (.replicate 20 7) (.replicate 1 .empty) ⟨1, .strict⟩ none
  have hrun : FreshRun host [] m :=
    .emptied (hcreated.operated (.program enroll) nofun (by decide +kernel))
  have hborn : Life host [] m₀ := .created (.replicate 20 7) (.replicate 1 .empty) ⟨1, .strict⟩ none
  have hlife : Life host ([] ++ (enroll.start host m₀).events ++ []) m :=
    (hborn.did (.operate (.program enroll))).did .reset
  have hfresh : Fresh (given ([] : List (Event signature))) o.events := by decide +kernel
  have hmoves : Moves (Operation.program quoted).Gives m o.events o.machine :=
    (Operation.program quoted).moves host m
  have hmade : (⟨0⟩, ⟨⟨0⟩⟩) ∈ creations o.events := by decide +kernel
  have hcopy : strategyOf o.events ⟨⟨0⟩⟩ = ⟨3⟩ := by decide +kernel
  have henrolled : (enroll.start host m₀).events =
      [.served (.registerStrategy (.host Wiring.quote)) (.ok ⟨3⟩)] := by with_unfolding_all rfl
  obtain ⟨hanswers, -, hentries⟩ := Life.strategies hlife hmoves
  have hget : o.machine.copies.get ⟨3⟩ = .ok (.host Wiring.quote) := by
    refine (hanswers [] (.host Wiring.quote) (.ok ⟨3⟩) o.events ?_).2 ⟨3⟩ rfl
    rw [henrolled]
    rfl
  obtain ⟨strategy, name, hs, -, -, hcopied⟩ := hentries [] hrun nofun hfresh _ _ hmade
  rw [List.nil_append, hcopy] at hs hcopied
  cases hs.symm.trans hget
  exact ⟨⟨_, hlife⟩, hrun, hfresh, hmoves, hget, name, hcopied (Machine.exec host) ⟨0⟩⟩

end ThreadedCode
