import ThreadedCode.Proofs.Room

/-!
Primitives. Where there is room for a table of native words, all of them are defined, and whatever is
built on the machine later, each name goes on to stand for its word.
-/
namespace ThreadedCode

variable {σ : Signature} {α β : Type}

/-- The step ends with this answer, puts out these lines and leaves this machine. -/
structure Step.Ends (s : Step σ α) (m : Machine σ) (lines : List String) (answer : Except Fault α)
    (n : Machine σ) : Prop where
  answer : (s m).answer = answer
  machine : (s m).machine = n
  lines : (s m).lines = lines

namespace Step.Ends

variable {s : Step σ α} {next : α → Step σ β} {m n k : Machine σ} {first rest : List String}

theorem bind {a : α} {answer : Except Fault β} (h : s.Ends m first (.ok a) k)
    (h' : (next a).Ends k rest answer n) : (s >>= next).Ends m (first ++ rest) answer n := by
  have hrun := bind_of_ok h.answer next
  rw [h.machine] at hrun
  refine ⟨?_, ?_, ?_⟩
  · rw [hrun]
    exact h'.answer
  · rw [hrun]
    exact h'.machine
  · rw [hrun, Outcome.lines_after, h'.lines]
    exact congrArg (· ++ rest) h.lines

/-- What goes on from a step without output puts out all the lines. -/
theorem silent {a : α} {answer : Except Fault β} (h : s.Ends m [] (.ok a) k)
    (h' : (next a).Ends k rest answer n) : (s >>= next).Ends m rest answer n := h.bind h'

theorem fail {fault : Fault} (h : s.Ends m first (.error fault) k) :
    (s >>= next).Ends m first (.error fault) k := by
  have hrun := bind_of_error h.answer next
  refine ⟨?_, ?_, ?_⟩
  · rw [hrun]
  · rw [hrun]
    exact h.machine
  · rw [hrun]
    exact h.lines

theorem attempt {answer : Except Fault α} (h : s.Ends m first answer n) :
    s.attempt.Ends m first (.ok answer) n :=
  ⟨congrArg Except.ok h.answer, h.machine, h.lines⟩

theorem pure (a : α) (m : Machine σ) : (Pure.pure a : Step σ α).Ends m [] (.ok a) m :=
  ⟨rfl, rfl, rfl⟩

theorem serve {r : Request σ} {answer : Except Fault r.Answer} (ha : (perform r m).answer = answer)
    (hm : (perform r m).machine = n) : (ThreadedCode.serve r).Ends m r.lines answer n :=
  ⟨ha, hm, serve_lines r m⟩

/-- Records for the log are no output. -/
theorem log (notice : Notice) (m : Machine σ) : (Step.log notice).Ends m [] (.ok ()) m := by
  obtain ⟨notices, he⟩ := log_events notice m
  refine ⟨rfl, rfl, ?_⟩
  rw [Outcome.lines, he, lines_logged]

end Step.Ends

namespace Machine

variable {m n : Machine σ} {known : List Handle} {defs : Definitions} {bound : Nat}
  {procedure : Procedure σ} {id : EntryId} {r : Request σ}

/-- The innermost word can be closed. -/
theorem endWord_ends (hb : m.Built) {head : CellId} {outer : List CellId}
    (hopen : m.openWords.heads = head :: outer) :
    (serve .endWord).Ends m [] (.ok head) { m with openWords := ⟨outer⟩ } := by
  rcases endWord_cases hb with ⟨hnone, -⟩ | ⟨_, _, hheads, ha, hm⟩
  · rw [hopen] at hnone
    cases hnone
  · rw [hopen] at hheads
    cases hheads
    exact .serve (r := .endWord) ha hm

/-- The entry links, and its cell, which lies below the bound, is a leaf with this procedure. -/
def Provides (m : Machine σ) (bound : Nat) (procedure : Procedure σ) (id : EntryId) : Prop :=
  ∃ e, (entry id m).answer = .ok e ∧ e.copy = CopyTable.link ∧ e.cell.index < bound ∧
    m.cells.get e.cell = .ok ⟨procedure, .nil, 1⟩

/-- The cells below the bound stay as they are. -/
def Spares (bound : Nat) (m n : Machine σ) : Prop :=
  ∀ cell c, cell.index < bound → m.cells.get cell = .ok c → n.cells.get cell = .ok c

theorem Spares.trans {k : Machine σ} (h : Spares bound m n) (h' : Spares bound n k) :
    Spares bound m k := fun cell c hlt hget => h' cell c hlt (h cell c hlt hget)

theorem spares_put {dest : CellId} (hdest : bound ≤ dest.index) (c : Cell σ) :
    Spares bound m { m with cells := m.cells.put dest c } := by
  intro cell d hlt hget
  have hne : cell ≠ dest := by
    rintro rfl
    omega
  rw [CellArena.get_put_ne hne]
  exact hget

theorem Provides.kept (h : m.Provides bound procedure id) (hl : m.Ledger known defs)
    (hid : .entry id ∈ known) (hr : r.handles ⊆ known) (hcopy : ∀ copy, r ≠ .setEntryCopy id copy)
    (hspares : Spares bound m (perform r m).machine) :
    (perform r m).machine.Provides bound procedure id := by
  obtain ⟨e, he, hlink, hlt, hcell⟩ := h
  obtain ⟨e', he', hcell', hcopy'⟩ := hl.entry_kept hid hr hcopy he
  refine ⟨e', he', hcopy'.trans hlink, hcell' ▸ hlt, ?_⟩
  rw [hcell']
  exact hspares e.cell _ hlt hcell

theorem Provides.mono (h : m.Provides bound procedure id) {higher : Nat} (hle : bound ≤ higher) :
    m.Provides higher procedure id := by
  obtain ⟨e, he, hlink, hlt, hcell⟩ := h
  exact ⟨e, he, hlink, Nat.lt_of_lt_of_le hlt hle, hcell⟩

/-- The definitions are those of a table: under each name an entry that provides its procedure. -/
def Tabled (table : List (String × Procedure σ)) (bound : Nat) (known : List Handle)
    (defs : Definitions) (m : Machine σ) : Prop :=
  List.Forall₂ (fun t d => d.1 = t.1 ∧ .entry d.2 ∈ known ∧ m.Provides bound t.2 d.2) table defs

/-- A machine with nothing on its stack, on which a table of native words has been defined and nothing
else. Their cells lie below the bound, and whatever is under construction does not. -/
structure Stocked (table : List (String × Procedure σ)) (bound : Nat) (known : List Handle)
    (m : Machine σ) : Prop where
  ledger : ∃ defs, m.Ledger known defs ∧ Tabled table bound known defs m
  below : bound ≤ m.cells.used
  opened : ∀ head ∈ m.openWords.heads, bound ≤ head.index
  copies : m.copies = .standard
  stack : m.stack = .empty

namespace Stocked

variable {table : List (String × Procedure σ)}

theorem built (h : m.Stocked table bound known) : m.Built := by
  obtain ⟨defs, hl, -⟩ := h.ledger
  exact hl.built

/-- Requests that only take storage, wire cells above the bound and open or close words there leave
the primitives as they are. -/
theorem perform (h : m.Stocked table bound known) (hr : r.handles ⊆ known)
    (hnames : r.part ≠ .names) (hcopy : ∀ id copy, r ≠ .setEntryCopy id copy)
    (hm : (ThreadedCode.perform r m).machine = n) (halike : m.Alike n) (hspares : Spares bound m n)
    (hused : m.cells.used ≤ n.cells.used) (hopened : ∀ head ∈ n.openWords.heads, bound ≤ head.index) :
    n.Stocked table bound (known ++ (Event.served r (ThreadedCode.perform r m).answer).gives) := by
  subst hm
  obtain ⟨defs, hl, ht⟩ := h.ledger
  have hposted := hl.perform hr
  rw [Posted, Event.defines_of_part hnames, List.append_nil] at hposted
  refine ⟨⟨defs, hposted, ?_⟩, Nat.le_trans h.below hused, hopened,
    (congrArg Machine.copies halike).trans h.copies, (congrArg Machine.stack halike).trans h.stack⟩
  apply List.Forall₂.imp _ ht
  rintro t d ⟨hname, hid, hp⟩
  exact ⟨hname, List.mem_append_left _ hid, hp.kept hl hid hr (hcopy _) hspares⟩

theorem spares_extended (h : m.Stocked table bound known) : Spares bound m m.extended := by
  intro cell c hlt hget
  have hcount : m.openWords.heads.count cell = 0 := by
    refine List.count_eq_zero.mpr fun hmem => ?_
    have := h.opened cell hmem
    omega
  rw [get_extended hget, hcount]
  rfl

/-- The next cell is handed out. -/
theorem newCell (h : m.Stocked table bound known) {size count : Nat}
    (hroom : m.Room size (count + 1)) :
    (serve .newCell).Ends m [] (.ok ⟨m.cells.used⟩) m.extended ∧
    m.extended.Stocked table bound known ∧ m.extended.Room size count ∧
    m.extended.cells.get ⟨m.cells.used⟩ = .ok .empty := by
  obtain ⟨ha, hm, hget⟩ := hroom.newCell h.built
  have hnew := h.perform (r := .newCell) (List.nil_subset _) nofun nofun hm rfl h.spares_extended
    (Nat.le_succ _) h.opened
  rw [Event.gives_of_part (.inl rfl), List.append_nil] at hnew
  exact ⟨.serve ha hm, hnew, hroom.extended, hget⟩

/-- A cell above the bound is wired. -/
theorem put (h : m.Stocked table bound known) (hr : r.handles ⊆ known) (hpart : r.part = .cells)
    {dest : CellId} (hdest : bound ≤ dest.index) {c : Cell σ}
    (hm : (ThreadedCode.perform r m).machine = { m with cells := m.cells.put dest c }) :
    Stocked table bound known { m with cells := m.cells.put dest c } := by
  have hnew := h.perform hr (by simp [hpart]) (by rintro id copy rfl; cases hpart) hm rfl
    (spares_put hdest c) (Nat.le_refl _) h.opened
  rwa [Event.gives_of_part (.inl hpart), List.append_nil] at hnew

/-- Bytes have been handed out, and perhaps a handle. -/
theorem rebyte (h : m.Stocked table bound known) (hr : r.handles ⊆ known) (hnames : r.part ≠ .names)
    (hcopy : ∀ id copy, r ≠ .setEntryCopy id copy) {b : ByteArena}
    (hm : (ThreadedCode.perform r m).machine = { m with bytes := b }) :
    Stocked table bound (known ++ (Event.served r (ThreadedCode.perform r m).answer).gives)
      { m with bytes := b } :=
  h.perform hr hnames hcopy hm rfl (fun _ _ _ hget => hget) (Nat.le_refl _) h.opened

/-- An entry that links to a leaf is named, and is a primitive from then on. -/
theorem named (h : m.Stocked table bound known) (hopen : m.openWords = .none) {name : String}
    {cell : CellId} {size count : Nat} (hid : .entry id ∈ known)
    (hroom : m.Room (name.toUTF8.toList.length + 1 + size) count)
    (he : (entry id m).answer = .ok ⟨cell, CopyTable.link, .nil⟩)
    (hget : m.cells.get cell = .ok ⟨procedure, .nil, 1⟩) :
    ∃ n, (serve (.define name id)).Ends m [] (.ok ()) n ∧
      n.Stocked (table ++ [(name, procedure)]) n.cells.used known ∧ n.openWords = .none ∧
      n.Room size count := by
  obtain ⟨defs, hl, ht⟩ := h.ledger
  obtain ⟨ha, hroom'⟩ := hroom.define hl hid he rfl
  have hr : (Request.define (σ := σ) name id).handles ⊆ known :=
    fun x hx => List.mem_singleton.mp hx ▸ hid
  have hcopy : ∀ other copy, Request.define (σ := σ) name id ≠ .setEntryCopy other copy := by
    intro other copy hsame
    cases hsame
  obtain ⟨b, d, hm⟩ := (perform_within (.define name id) m).frames
  let n : Machine σ := { m with bytes := b, dictionary := d }
  have hposted : n.Ledger (known ++ []) (defs ++ [(name, id)]) := by
    have hposted := hl.perform hr
    rw [Posted, ha, hm] at hposted
    exact hposted
  have hkept : ∀ procedure other, .entry other ∈ known → m.Provides m.cells.used procedure other →
      n.Provides n.cells.used procedure other := by
    intro procedure other hmem hp
    have hkept := hp.kept hl hmem hr (hcopy other) (by rw [hm]; exact fun _ _ _ hget => hget)
    rwa [hm] at hkept
  have hold : Tabled table n.cells.used known defs n := by
    apply List.Forall₂.imp _ ht
    rintro t e ⟨hname, hmem, hp⟩
    exact ⟨hname, hmem, hkept _ _ hmem (hp.mono h.below)⟩
  have hnew : n.Provides n.cells.used procedure id :=
    hkept _ _ hid ⟨_, he, rfl, (CellArena.get_eq_ok.mp hget).1, hget⟩
  have htable : Tabled (table ++ [(name, procedure)]) n.cells.used known (defs ++ [(name, id)]) n :=
    List.rel_append hold (.cons ⟨rfl, hid, hnew⟩ .nil)
  rw [List.append_nil] at hposted
  rw [hm] at hroom'
  refine ⟨n, .serve ha hm, ⟨⟨_, hposted, htable⟩, Nat.le_refl _, ?_, h.copies, h.stack⟩, hopen, hroom'⟩
  intro head hmem
  rw [show n.openWords = .none from hopen] at hmem
  cases hmem

end Stocked
end Machine

namespace Words

open Machine

variable {host : Host σ} {m : Machine σ} {known : List Handle} {bound size count : Nat}
  {table : List (String × Procedure σ)}

theorem start_define (name : String) (procedure : Procedure σ) :
    (define name procedure).start host = (do
      let cell ← serve .newCell
      serve (.bind cell procedure)
      let entry ← serve (.createEntry cell)
      serve (.define name entry)
      return entry) := by
  refine (Program.start_request_bind .newCell _).trans (congrArg _ (funext fun cell => ?_))
  refine (Program.start_request_bind (.bind cell procedure) _).trans (congrArg _ (funext fun _ => ?_))
  refine (Program.start_request_bind (.createEntry cell) _).trans
    (congrArg _ (funext fun entry => ?_))
  exact Program.start_request_bind (.define name entry) _

/-- The bytes that a definition takes: a record, and the name with the zero behind it. -/
def storage (name : String) : Nat := Entry.size + (name.toUTF8.toList.length + 1)

/-- Where there is room for it, a native word is defined. -/
theorem define_stocked (h : m.Stocked table bound known) (hopen : m.openWords = .none)
    {name : String} (procedure : Procedure σ) (hroom : m.Room (storage name + size) (count + 1)) :
    ∃ id n known', ((define name procedure).start host).Ends m [] (.ok id) n ∧
      n.Stocked (table ++ [(name, procedure)]) n.cells.used known' ∧ n.openWords = .none ∧
      n.Room size count := by
  obtain ⟨hnew, hs1, hroom1, hget1⟩ := h.newCell hroom
  let cell : CellId := ⟨m.cells.used⟩
  let m2 : Machine σ := { m.extended with
    cells := m.extended.cells.put cell (Cell.empty.bound procedure) }
  have hbind : perform (.bind cell procedure) m.extended = ⟨.ok (), m2, []⟩ :=
    changeCell_of_get hget1 _
  have hs2 : m2.Stocked table bound known := hs1.put (r := .bind cell procedure) (List.nil_subset _)
    rfl h.below (congrArg Outcome.machine hbind)
  have hroom2 : m2.Room (Entry.size + (name.toUTF8.toList.length + 1 + size)) count := by
    rw [storage, Nat.add_assoc] at hroom1
    exact hroom1.keep rfl rfl (CellArena.put_capacity ..)
  have hget2 : m2.cells.get cell = .ok ⟨procedure, .nil, 1⟩ := CellArena.get_put_self hget1
  obtain ⟨defs2, hl2, -⟩ := hs2.ledger
  obtain ⟨id, b, ha3, hm3, hroom3, hentry3⟩ := hroom2.createEntry hl2 hget2
  let m3 : Machine σ := { m2 with bytes := b }
  have hs3 := hs2.rebyte (r := .createEntry cell) (List.nil_subset _) nofun nofun hm3
  rw [ha3] at hs3
  have hid : Handle.entry id ∈ known ++ (Event.served (σ := σ) (.createEntry cell) (.ok id)).gives :=
    List.mem_append_right _ (List.mem_singleton_self _)
  obtain ⟨n, hnamed, hs, hwords, hroom'⟩ := hs3.named hopen hid hroom3 hentry3 hget2
  refine ⟨id, n, _, ?_, hs, hwords, hroom'⟩
  rw [start_define]
  have hbound := Step.Ends.serve (congrArg Outcome.answer hbind) (congrArg Outcome.machine hbind)
  exact hnew.bind (hbound.bind ((Step.Ends.serve ha3 hm3).bind (hnamed.bind (.pure id n))))

/-- The bytes that a table takes. -/
def storageOf : List (String × Procedure σ) → Nat
  | [] => 0
  | (name, _) :: rest => storage name + storageOf rest

/-- The definitions of a table, one after another. -/
def defineAll (table : List (String × Procedure σ)) : Program σ Unit :=
  table.forM fun (name, procedure) => do
    let _ ← define name procedure

theorem start_register (host : Host σ) (table : List (String × Procedure σ)) :
    (register table).start host = (do
      (defineAll table).start host
      serve (.noteRegistered table.length)) := by
  refine (Program.run_bind _ _ _).trans (congrArg _ (funext fun _ => ?_))
  exact Program.run_request _ _

theorem start_defineAll_cons (host : Host σ) (name : String) (procedure : Procedure σ)
    (rest : List (String × Procedure σ)) :
    (defineAll ((name, procedure) :: rest)).start host = (do
      let _ ← (define name procedure).start host
      (defineAll rest).start host) := by
  refine (Program.run_bind _ _ _).trans ?_
  rw [Program.run_bind, bind_assoc]
  rfl

theorem defineAll_stocked (host : Host σ) (h : m.Stocked table bound known)
    (hopen : m.openWords = .none) (more : List (String × Procedure σ))
    (hroom : m.Room (storageOf more + size) (more.length + count)) :
    ∃ n bound' known', ((defineAll more).start host).Ends m [] (.ok ()) n ∧
      n.Stocked (table ++ more) bound' known' ∧ n.openWords = .none ∧ n.Room size count := by
  induction more generalizing table bound known m with
  | nil =>
    rw [List.append_nil]
    simp only [storageOf, List.length_nil, Nat.zero_add] at hroom
    exact ⟨m, bound, known, .pure () m, h, hopen, hroom⟩
  | cons entry rest ih =>
    obtain ⟨name, procedure⟩ := entry
    simp only [storageOf, List.length_cons, Nat.add_assoc, Nat.add_right_comm rest.length] at hroom
    obtain ⟨id, k, known', hfirst, hs, hwords, hroom'⟩ := define_stocked h hopen procedure hroom
    obtain ⟨n, bound'', known'', hrest, hs', hlast⟩ := ih hs hwords hroom'
    rw [List.append_assoc] at hs'
    rw [start_defineAll_cons]
    exact ⟨n, bound'', known'', hfirst.bind hrest, hs', hlast⟩

/-- Where there is room for all of them, a table of native words is defined. -/
theorem register_stocked (h : m.Stocked table bound known) (hopen : m.openWords = .none)
    (more : List (String × Procedure σ)) (hroom : m.Room (storageOf more + size) (more.length + count)) :
    ∃ n bound' known', ((register more).start host).Ends m [] (.ok ()) n ∧
      n.Stocked (table ++ more) bound' known' ∧ n.openWords = .none ∧ n.Room size count := by
  obtain ⟨n, bound', known', hdone, hs, hlast⟩ := defineAll_stocked host h hopen more hroom
  rw [start_register]
  exact ⟨n, bound', known', hdone.bind (.serve rfl rfl), hs, hlast⟩

end Words
end ThreadedCode
