import ThreadedCode.Calculator.Compile
import ThreadedCode.Proofs.Layout

/-!
What a line is compiled to. Each word gets one cell of the run, and the cell is wired to what the word
stands for when its turn comes.
-/
namespace ThreadedCode

variable {σ : Signature} {α β : Type} {host : Host σ} {m k : Machine σ}

theorem Outcome.lines_after (events : List (Event σ)) (o : Outcome σ α) :
    (o.after events).lines = events.filterMap Event.line? ++ o.lines := List.filterMap_append

theorem lines_logged (notices : List Notice) :
    (notices.map (Event.logged (σ := σ))).filterMap Event.line? = [] := by
  induction notices with
  | nil => rfl
  | cons notice rest ih => exact ih

/-- The lines that a request puts out. -/
def Request.lines : Request σ → List String
  | .print line => [line]
  | _ => []

theorem serve_lines (r : Request σ) (m : Machine σ) : (serve r m).lines = r.lines := by
  obtain ⟨notices, he⟩ := serve_events r m
  rw [Outcome.lines, he, List.filterMap_append, lines_logged]
  cases r <;> rfl

namespace Step

/-- What has succeeded has gone on from a success. -/
theorem ok_of_bind {s : Step σ α} {next : α → Step σ β} {b : β}
    (h : ((s >>= next) m).answer = .ok b) : ∃ a, (s m).answer = .ok a ∧
      (s >>= next) m = (next a (s m).machine).after (s m).events := by
  cases ha : (s m).answer with
  | ok a => exact ⟨a, rfl, bind_of_ok ha next⟩
  | error fault =>
    rw [bind_of_error ha] at h
    cases h

end Step

theorem Program.start_request_bind (r : Request σ) (next : r.Answer → Program σ α) :
    (request r >>= next).start host = serve r >>= fun a => (next a).start host := by
  rw [Program.start, run_bind, run_request]
  rfl

theorem Program.start_attempt_bind (p : Program σ α) (next : Except Fault α → Program σ β) :
    (p.attempt >>= next).start host = (p.start host).attempt >>= fun a => (next a).start host := by
  rw [Program.start, Program.run_bind, Program.run_attempt]
  rfl

namespace CellArena

variable {a : CellArena σ} {id other : CellId} {c d : Cell σ}

theorem get_put_self (h : a.get id = .ok c) : (a.put id d).get id = .ok d :=
  get_eq_ok.mpr ⟨(get_eq_ok.mp h).1, put_lookup_self d (get_eq_ok.mp h).2⟩

theorem get_put_ne (h : other ≠ id) : (a.put id d).get other = a.get other := by
  have hne : other.index ≠ id.index := fun he => h (congrArg CellId.mk he)
  simp only [get, put_used, put_lookup_ne a d hne]

theorem put_put : (a.put id c).put id d = a.put id d := by
  simp [put]

end CellArena

namespace Machine

open Step

/-- The machine with one more cell, which every open word has taken in. -/
def extended (m : Machine σ) : Machine σ :=
  { m with cells := { m.cells.grown m.openWords.heads.reverse with used := m.cells.used + 1 } }

@[simp] theorem extended_capacity : m.extended.cells.capacity = m.cells.capacity := by
  simp [extended, CellArena.grown, CellArena.capacity]

theorem extended_last (h : m.cells.used + 1 < wordLimit) :
    m.extended.cells.last? = some ⟨m.cells.used⟩ := if_pos ⟨Nat.succ_pos _, h⟩

/-- The machines differ at most in their storage and their open words. -/
def Alike (m n : Machine σ) : Prop :=
  n = { m with bytes := n.bytes, cells := n.cells, openWords := n.openWords }

theorem Alike.refl (m : Machine σ) : m.Alike m := rfl

theorem Alike.trans {m k n : Machine σ} (h : m.Alike k) (h' : k.Alike n) : m.Alike n := by
  unfold Alike at h h'
  rw [h', h]
  exact rfl

theorem newCell_of_ok (hb : m.Built) {id : CellId} (h : (newCell m).answer = .ok id) :
    id = ⟨m.cells.used⟩ ∧ (∀ b, newCell { m with bytes := b } =
      ⟨.ok ⟨m.cells.used⟩, { m.extended with bytes := b }, []⟩) ∧
      m.extended.cells.get ⟨m.cells.used⟩ = .ok .empty := by
  by_cases hroom : m.cells.hasRoom ∧ m.cells.used + 1 < wordLimit
  · have hnew := fun b => newCell_of_room (m := { m with bytes := b }) hb.sound.allocated hroom
    rw [hnew m.bytes] at h
    refine ⟨(Except.ok.inj h).symm, hnew, CellArena.get_eq_ok.mpr ⟨Nat.lt_succ_self _, ?_⟩⟩
    have hlt : m.cells.used < m.cells.capacity := by simpa [CellArena.hasRoom] using hroom.1
    have hblank := hb.blank m.cells.used (Nat.le_refl _) hlt
    have hclosed :=
      Layout.Sound.count_closed (hb.sound.not_open_of_le (i := m.cells.used) (Nat.le_refl _))
    simp only [layout] at hclosed
    simp only [extended, CellArena.grown_lookup, hblank, List.count_reverse, hclosed]
    rfl
  · rw [(newCell_of_full hroom).1] at h
    cases h

theorem get_extended {id : CellId} {c : Cell σ} (h : m.cells.get id = .ok c) :
    m.extended.cells.get id = .ok { c with extent := c.extent + m.openWords.heads.count id } := by
  obtain ⟨hlt, hcell⟩ := CellArena.get_eq_ok.mp h
  refine CellArena.get_eq_ok.mpr ⟨Nat.lt_succ_of_lt hlt, ?_⟩
  simp only [extended, CellArena.grown_lookup, List.count_reverse, hcell]
  rfl

end Machine

namespace Calculator

open Machine Step

/-- What a compiled word stands for. -/
inductive Item where
  /-- Push this boxed number. -/
  | literal (v : Value)
  | linked (source : CellId)
  | inlined (source : CellId)
  /-- Nothing any more; the cell has been executed when the word was compiled. -/
  | immediate (source : CellId)
deriving DecidableEq

namespace Item

/-- What a word stands for if it is compiled now, by one of the standard strategies. -/
def resolve (word : String) : Step σ (Option Item) := do
  match Single.ofText? word with
  | some x => return some (.literal (← boxFloat x))
  | none =>
    let entry ← Machine.entry (← search word)
    match ← (← get).copies.get entry.copy with
    | .link => return some (.linked entry.cell)
    | .inline => return some (.inlined entry.cell)
    | .immediate => return some (.immediate entry.cell)
    | .host _ => return none

/-- The cell does what the item says. An inlined leaf is copied, anything larger is linked. -/
def Fits (a : CellArena σ) : Item → Cell σ → Prop
  | literal v, c => c = ⟨.literal, v, 1⟩
  | linked source, c => c = ⟨.link, .cell source, 1⟩
  | inlined source, c => c = ⟨.link, .cell source, 1⟩ ∨ a.get source = .ok c ∧ c.extent = 1
  | immediate _, c => c = ⟨.zero, .nil, 1⟩

theorem Fits.leaf {a : CellArena σ} {item : Item} {c : Cell σ} (h : item.Fits a c) : c.extent = 1 := by
  cases item with
  | inlined source =>
    rcases h with rfl | ⟨-, h⟩
    · rfl
    · exact h
  | _ =>
    obtain rfl := h
    rfl

end Item

/-- Executing the cell changes neither the cells nor the open words. -/
def Quiet (host : Host σ) (source : CellId) (m : Machine σ) : Prop :=
  (exec host source m).machine.cells = m.cells ∧ (exec host source m).machine.openWords = m.openWords

instance [DecidableEq σ.Native] (host : Host σ) (source : CellId) (m : Machine σ) :
    Decidable (Quiet host source m) := inferInstanceAs (Decidable (_ ∧ _))

/-- What compiling a word does to a machine, and what it puts out. -/
structure Compiled (host : Host σ) (item : Item) (m : Machine σ) (o : Outcome σ Unit) : Prop where
  placed : (newCell m).machine = m.extended
  fresh : m.extended.cells.get ⟨m.cells.used⟩ = .ok .empty
  cells : ∃ c, item.Fits m.extended.cells c ∧
    o.machine.cells = m.extended.cells.put ⟨m.cells.used⟩ c
  words : o.machine.openWords = m.openWords
  executed : ∀ source, item = .immediate source → (exec host source m.extended).answer = .ok () ∧
    (exec host source m.extended).machine.Alike o.machine ∧
    o.lines = (exec host source m.extended).lines
  other : (∀ source, item ≠ .immediate source) → m.Alike o.machine ∧ o.lines = []

theorem bindLiteral_of_get {dest : CellId} {c : Cell σ} (hg : m.cells.get dest = .ok c) (v : Value) :
    bindLiteral dest v m =
      ⟨.ok (), { m with cells := m.cells.put dest ⟨.literal, v, c.extent⟩ }, []⟩ := by
  have hput := CellArena.get_put_self (d := c.bound .literal) hg
  have hbind : Machine.bind dest .literal m = ⟨.ok (), { m with
      cells := m.cells.put dest (c.bound .literal) }, []⟩ := changeCell_of_get hg _
  have hset : setPayload dest v { m with cells := m.cells.put dest (c.bound .literal) } =
      ⟨.ok (), { m with
        cells := (m.cells.put dest (c.bound .literal)).put dest ⟨.literal, v, c.extent⟩ },
        []⟩ :=
    changeCell_of_get (m := { m with cells := m.cells.put dest (c.bound .literal) }) hput _
  rw [bindLiteral, bind_of_ok (by rw [hbind]), hbind, hset, CellArena.put_put, Outcome.after_nil]

theorem start_number {word : String} {x : Single} (hx : Single.ofText? word = some x) :
    (compileWord host word).start host = (do
      let v ← serve (.boxFloat x)
      let dest ← serve .newCell
      serve (.bindLiteral dest v)) := by
  simp only [compileWord, hx]
  refine (Program.start_request_bind (.boxFloat x) _).trans (congrArg _ (funext fun v => ?_))
  refine (Program.start_request_bind .newCell _).trans (congrArg _ (funext fun dest => ?_))
  exact Program.run_request _ _

theorem start_name {word : String} (hx : Single.ofText? word = none) :
    (compileWord host word).start host = (do
      let id ← serve (.search word)
      let dest ← serve .newCell
      let entry ← serve (.entry id)
      let strategy ← serve (.strategy entry.copy)
      (strategy.program host entry.cell dest).start host) := by
  simp only [compileWord, hx]
  refine (Program.start_request_bind (.search word) _).trans (congrArg _ (funext fun id => ?_))
  refine (Program.start_request_bind .newCell _).trans (congrArg _ (funext fun dest => ?_))
  refine (Program.start_request_bind (.entry id) _).trans (congrArg _ (funext fun entry => ?_))
  exact Program.start_request_bind (.strategy entry.copy) _

/-- What comes before the wiring puts out nothing. -/
theorem Compiled.of_bind {item : Item} {s : Step σ α} {next : α → Step σ Unit} {n : Machine σ}
    (hs : (s n).lines = []) (hok : ((s >>= next) n).answer = .ok ())
    (h : ∀ a, (s n).answer = .ok a → (next a (s n).machine).answer = .ok () →
      Compiled host item m (next a (s n).machine)) : Compiled host item m ((s >>= next) n) := by
  obtain ⟨a, ha, hrest⟩ := ok_of_bind hok
  rw [hrest, Outcome.after_answer] at hok
  have hc := h a ha hok
  have hlines : ((s n).events.filterMap Event.line?) = [] := hs
  rw [hrest]
  refine ⟨hc.placed, hc.fresh, hc.cells, hc.words, fun source hi => ?_, fun hi => ?_⟩
  · rw [Outcome.lines_after, hlines]
    exact hc.executed source hi
  · rw [Outcome.lines_after, hlines]
    exact hc.other hi

/-- What leaves everything but the cells alone has not executed anything. -/
theorem Compiled.of_wired (item : Item) (hitem : ∀ source, item ≠ .immediate source) {c : Cell σ}
    (hplaced : (newCell m).machine = m.extended)
    (hfresh : m.extended.cells.get ⟨m.cells.used⟩ = .ok .empty)
    (hfits : item.Fits m.extended.cells c) {o : Outcome σ Unit} (hlines : o.lines = [])
    (hcells : o.machine.cells = m.extended.cells.put ⟨m.cells.used⟩ c)
    (hwords : o.machine.openWords = m.openWords) (halike : m.Alike o.machine) :
    Compiled host item m o :=
  ⟨hplaced, hfresh, ⟨c, hfits, hcells⟩, hwords, fun source hs => absurd hs (hitem source),
    fun _ => ⟨halike, hlines⟩⟩

theorem compileWord_number (hb : m.Built) {word : String} {x : Single}
    (hx : Single.ofText? word = some x) {item : Item}
    (hitem : (Item.resolve word m).answer = .ok (some item))
    (hok : ((compileWord host word).start host m).answer = .ok ()) :
    Compiled host item m ((compileWord host word).start host m) := by
  simp only [Item.resolve, hx] at hitem
  obtain ⟨v, hv, hbox⟩ := ok_of_bind hitem
  rw [hbox] at hitem
  cases hitem
  rw [start_number hx] at hok ⊢
  apply Compiled.of_bind (serve_lines (.boxFloat x) m) hok
  intro v' hv' hok
  obtain rfl : v' = v := Except.ok.inj (hv'.symm.trans hv)
  obtain ⟨b, hm⟩ := (boxFloat_within (m := m) x).frames
  have hmachine : (serve (.boxFloat x) m).machine = { m with bytes := b } := hm
  rw [hmachine] at hok ⊢
  have hbuilt := (hb.untouched (n := { m with bytes := b }) rfl rfl).1
  apply Compiled.of_bind (serve_lines .newCell _) hok
  intro dest hdest _
  obtain ⟨rfl, hnew, hget⟩ := newCell_of_ok hbuilt hdest
  have hplaced : (serve (.newCell : Request σ) { m with bytes := b }).machine =
      { m.extended with bytes := b } := congrArg Outcome.machine (hnew b)
  rw [hplaced]
  have hbound := bindLiteral_of_get (m := { m.extended with bytes := b }) hget v'
  have hwired : (serve (.bindLiteral ⟨m.cells.used⟩ v') { m.extended with bytes := b }).machine = _ :=
    (congrArg Outcome.machine hbound :)
  refine Compiled.of_wired (.literal v') (c := ⟨.literal, v', 1⟩) nofun
    (congrArg Outcome.machine (hnew m.bytes)) hget rfl (serve_lines _ _) ?_ ?_ ?_
  · rw [hwired]
    rfl
  · rw [hwired]
    rfl
  · rw [hwired]
    rfl

/-- The item of a name tells the entry and the strategy that the name stands for. -/
theorem resolve_name {word : String} (hx : Single.ofText? word = none) {item : Item}
    (hitem : (Item.resolve word m).answer = .ok (some item)) : ∃ id entry strategy,
      (search word m).answer = .ok id ∧ (Machine.entry id m).answer = .ok entry ∧
      m.copies.get entry.copy = .ok strategy ∧
      (strategy = .link ∧ item = .linked entry.cell ∨ strategy = .inline ∧ item = .inlined entry.cell ∨
        strategy = .immediate ∧ item = .immediate entry.cell) := by
  simp only [Item.resolve, hx] at hitem
  obtain ⟨id, hid, hrest⟩ := ok_of_bind hitem
  rw [hrest, Outcome.after_answer] at hitem
  obtain ⟨entry, hentry, hrest⟩ := ok_of_bind hitem
  rw [hrest, Outcome.after_answer] at hitem
  obtain ⟨n, hn, hrest⟩ := ok_of_bind hitem
  cases hn
  rw [hrest, Outcome.after_answer] at hitem
  obtain ⟨strategy, hstrategy, hrest⟩ := ok_of_bind hitem
  rw [hrest, Outcome.after_answer] at hitem
  refine ⟨id, entry, strategy, hid, hentry, hstrategy, ?_⟩
  cases strategy with
  | link =>
    cases hitem
    exact .inl ⟨rfl, rfl⟩
  | inline =>
    cases hitem
    exact .inr (.inl ⟨rfl, rfl⟩)
  | immediate =>
    cases hitem
    exact .inr (.inr ⟨rfl, rfl⟩)
  | host name => cases hitem

theorem bind_of_get {dest : CellId} {d : Cell σ} (hd : m.cells.get dest = .ok d)
    (procedure : Procedure σ) : (Machine.bind dest procedure m).machine =
      { m with cells := m.cells.put dest (d.bound procedure) } := by
  rw [Machine.bind, changeCell_of_get hd]

theorem link_of_get {source dest : CellId} {c d : Cell σ} (hs : m.cells.get source = .ok c)
    (hd : m.cells.get dest = .ok d) : link source dest m =
      ⟨.ok (), { m with cells := m.cells.put dest (d.linked source) }, []⟩ := by
  simp only [link, bind_apply, get_apply, lift_apply, Outcome.bind_ok, Outcome.after_nil, hs,
    changeCell_of_get hd]

theorem link_of_ok {source dest : CellId} {d : Cell σ} (hd : m.cells.get dest = .ok d)
    (h : (link source dest m).answer = .ok ()) :
    (link source dest m).machine = { m with cells := m.cells.put dest (d.linked source) } := by
  cases hs : m.cells.get source with
  | error fault =>
    simp only [link, bind_apply, get_apply, lift_apply, Outcome.bind_ok, Outcome.after_nil, hs] at h
    cases h
  | ok c => rw [link_of_get hs hd]

theorem inline_of_ok {source dest : CellId} {d : Cell σ} (hd : m.cells.get dest = .ok d)
    (h : (Machine.inline source dest m).answer = .ok ()) :
    (Machine.inline source dest m).machine = { m with cells := m.cells.put dest (d.linked source) } ∨
    ∃ c, m.cells.get source = .ok c ∧ c.extent = 1 ∧ (Machine.inline source dest m).machine =
      { m with cells := m.cells.put dest ⟨c.procedure, c.payload, d.extent⟩ } := by
  simp only [Machine.inline, bind_apply, get_apply, lift_apply, Outcome.bind_ok,
    Outcome.after_nil] at h ⊢
  cases hs : m.cells.get source with
  | error fault =>
    rw [hs] at h
    cases h
  | ok c =>
    rw [hs, Outcome.bind_ok, Outcome.after_nil] at h
    rw [Outcome.bind_ok, Outcome.after_nil]
    split
    · rename_i hleaf
      refine .inr ⟨c, rfl, by simpa [Cell.isLeaf] using hleaf, ?_⟩
      rw [changeCell_of_get hd]
    · rename_i hword
      rw [if_neg hword] at h
      exact .inl (link_of_ok hd h)

/-- Wiring the new cell by one of the standard strategies. -/
theorem strategy_compiled {strategy : Strategy σ} {source : CellId} {item : Item}
    (hcases : strategy = .link ∧ item = .linked source ∨ strategy = .inline ∧ item = .inlined source ∨
      strategy = .immediate ∧ item = .immediate source)
    (hplaced : (newCell m).machine = m.extended)
    (hget : m.extended.cells.get ⟨m.cells.used⟩ = .ok .empty)
    (hquiet : ∀ source, item = .immediate source → Quiet host source (newCell m).machine)
    (hok : ((strategy.program host source ⟨m.cells.used⟩).start host m.extended).answer = .ok ()) :
    Compiled host item m ((strategy.program host source ⟨m.cells.used⟩).start host m.extended) := by
  rcases hcases with ⟨rfl, rfl⟩ | ⟨rfl, rfl⟩ | ⟨rfl, rfl⟩
  · rw [Strategy.program, Program.start, Program.run_request] at hok ⊢
    have hm : (serve (.link source ⟨m.cells.used⟩) m.extended).machine = _ := link_of_ok hget hok
    exact .of_wired (.linked source) (c := ⟨.link, .cell source, 1⟩) nofun hplaced
      hget rfl (serve_lines _ _) (by rw [hm]; rfl) (by rw [hm]; rfl) (by rw [hm]; rfl)
  · rw [Strategy.program, Program.start, Program.run_request] at hok ⊢
    rcases inline_of_ok hget hok with hlink | ⟨c, hs, hleaf, hcopy⟩
    · have hm : (serve (.inline source ⟨m.cells.used⟩) m.extended).machine = _ := hlink
      exact .of_wired (.inlined source) (c := ⟨.link, .cell source, 1⟩) nofun hplaced
        hget (.inl rfl) (serve_lines _ _) (by rw [hm]; rfl) (by rw [hm]; rfl) (by rw [hm]; rfl)
    · have hm : (serve (.inline source ⟨m.cells.used⟩) m.extended).machine = _ := hcopy
      have hc : (⟨c.procedure, c.payload, (Cell.empty : Cell σ).extent⟩ : Cell σ) = c := by
        obtain ⟨procedure, payload, extent⟩ := c
        obtain rfl : extent = 1 := hleaf
        rfl
      rw [hc] at hm
      exact .of_wired (.inlined source) nofun hplaced hget (.inr ⟨hs, hleaf⟩)
        (serve_lines _ _) (by rw [hm]) (by rw [hm]; rfl) (by rw [hm]; rfl)
  · have hstart : ((Strategy.immediate : Strategy σ).program host source ⟨m.cells.used⟩).start host =
        exec host source >>= fun _ => serve (.bind ⟨m.cells.used⟩ .zero) := by
      rw [Strategy.program, Program.start, Program.run_bind, Program.run_execute]
      exact congrArg _ (funext fun _ => Program.run_request _ _)
    rw [hstart] at hok ⊢
    obtain ⟨_, hexec, hrest⟩ := ok_of_bind hok
    obtain ⟨hcells, hwords⟩ := hplaced ▸ hquiet source rfl
    have hm : (serve (.bind ⟨m.cells.used⟩ .zero) (exec host source m.extended).machine).machine = _ :=
      bind_of_get (hcells ▸ hget) .zero
    rw [hrest]
    refine ⟨hplaced, hget, ⟨⟨.zero, .nil, 1⟩, rfl, ?_⟩, ?_, ?_, fun h => absurd rfl (h source)⟩
    · rw [Outcome.after_machine, hm, hcells]
      rfl
    · rw [Outcome.after_machine, hm]
      exact hwords
    · rintro _ ⟨⟩
      refine ⟨hexec, by rw [Outcome.after_machine, hm]; rfl, ?_⟩
      have hsilent : (serve (.bind ⟨m.cells.used⟩ .zero)
          (exec host source m.extended).machine).lines = [] := serve_lines _ _
      rw [Outcome.lines_after, hsilent, List.append_nil]
      rfl

/-- A name is compiled by the strategy of its entry, once its cell has been handed out. -/
theorem compileWord_name (hb : m.Built) {word : String} (hx : Single.ofText? word = none)
    {item : Item} (hitem : (Item.resolve word m).answer = .ok (some item))
    (hquiet : ∀ source, item = .immediate source → Quiet host source (newCell m).machine)
    (hok : ((compileWord host word).start host m).answer = .ok ()) :
    Compiled host item m ((compileWord host word).start host m) := by
  obtain ⟨id, entry, strategy, hid, hentry, hstrategy, hcases⟩ := resolve_name hx hitem
  rw [start_name hx] at hok ⊢
  apply Compiled.of_bind (serve_lines (.search word) m) hok
  intro id' hid' hok
  obtain rfl : id' = id := Except.ok.inj (hid'.symm.trans hid)
  refine Compiled.of_bind (serve_lines .newCell m) hok fun dest hdest hok => ?_
  obtain ⟨rfl, hnew, hget⟩ := newCell_of_ok hb hdest
  have hplaced : (newCell m).machine = m.extended := congrArg Outcome.machine (hnew m.bytes)
  have hserved : (serve (.newCell : Request σ) (serve (.search word : Request σ) m).machine).machine =
      m.extended := hplaced
  rw [hserved] at hok ⊢
  apply Compiled.of_bind (serve_lines (.entry id') m.extended) hok
  intro entry' hentry' hok
  obtain rfl : entry' = entry := Except.ok.inj (hentry'.symm.trans hentry)
  refine Compiled.of_bind (serve_lines (.strategy entry'.copy) m.extended) hok
    fun strategy' hstrategy' hok => ?_
  obtain rfl : strategy' = strategy := Except.ok.inj (hstrategy'.symm.trans hstrategy)
  exact strategy_compiled hcases hplaced hget hquiet hok

theorem compileWord_compiled (hb : m.Built) {word : String} {item : Item}
    (hitem : (Item.resolve word m).answer = .ok (some item))
    (hquiet : ∀ source, item = .immediate source → Quiet host source (newCell m).machine)
    (hok : ((compileWord host word).start host m).answer = .ok ()) :
    Compiled host item m ((compileWord host word).start host m) := by
  cases hx : Single.ofText? word with
  | some x => exact compileWord_number hb hx hitem hok
  | none => exact compileWord_name hb hx hitem hquiet hok

end Calculator
end ThreadedCode
