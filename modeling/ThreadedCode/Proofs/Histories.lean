import ThreadedCode.Proofs.Atomicity
import ThreadedCode.Proofs.Boxes
import ThreadedCode.Proofs.Revisions

/-!
The histories of entries. In a fresh run the record of an entry goes on to tell what has been done to
that entry, whatever is done besides.
-/
namespace ThreadedCode

variable {σ : Signature} {allowed : Value → Prop}

/-- What holds before anything has happened, takes no notice of the stack and is kept by every request
that uses known handles only holds at every moment of a fresh run. -/
theorem FreshRun.amid {host : Host σ} {I : List (Event σ) → Machine σ → Prop} (hempty : ∀ m, I [] m)
    (hquiet : ∀ past (m : Machine σ) (notices : List Notice) stack callDepth, I past m →
      I (past ++ notices.map .logged) { m with stack, callDepth })
    (hserved : ∀ past (m : Machine σ) (r : Request σ), m.Ledger (given past) (definitions past) →
      I past m → r.handles ⊆ given past →
      I (past ++ [.served r (perform r m).answer]) (perform r m).machine)
    {past events : List (Event σ)} {m n : Machine σ} (h : FreshRun host past m)
    (hallowed : ∀ v, allowed v → v.handles ⊆ given past) (hev : Fresh (given past) events)
    (hm : Moves allowed m events n) : I (past ++ events) n := by
  have hmove : ∀ allowed past (m : Machine σ) events n, (∀ v, allowed v → v.handles ⊆ given past) →
      (m.Ledger (given past) (definitions past) ∧ I past m) → Fresh (given past) events →
      Move allowed m events n →
      n.Ledger (given (past ++ events)) (definitions (past ++ events)) ∧ I (past ++ events) n := by
    intro allowed past m events n hallowed ⟨hl, hi⟩ hev hm
    refine ⟨by rw [given_append, definitions_append]; exact (hl.move hallowed hev hm).1, ?_⟩
    rcases hm.quiet_or_served with ⟨notices, stack, depth, rfl, rfl⟩ | ⟨r, notices, rfl, rfl⟩
    · exact hquiet past m notices stack depth hi
    · have hsame : given (past ++ notices.map (Event.logged (σ := σ))) = given past := by
        rw [given_append, given_logged, List.append_nil]
      have hdefs : definitions (past ++ notices.map (Event.logged (σ := σ))) = definitions past := by
        rw [definitions_append, definitions_logged, List.append_nil]
      have hr := ((fresh_append ..).mp hev).2.1
      rw [given_logged, List.append_nil] at hr
      rw [← List.append_assoc]
      refine hserved _ m r ?_ (hquiet past m notices m.stack m.callDepth hi) ?_
      · rw [hsame, hdefs]
        exact hl
      · rw [hsame]
        exact hr
  have hstart : m.Ledger (given past) (definitions past) ∧ I past m := by
    refine ⟨h.ledger.1, (h.invariant (I := fun past m => m.Ledger (given past) (definitions past) ∧
      I past m) ?_ ?_ hmove).2⟩
    · intro bytes cells settings verbosity
      have hrun : FreshRun host [] _ := .created bytes cells settings verbosity
      exact ⟨hrun.ledger.1, hempty _⟩
    · intro past m hm
      exact ⟨.of_empty rfl rfl rfl rfl rfl hm.1.copies, hempty _⟩
  exact (hm.preserve_fresh (hmove allowed) past hallowed hstart hev).2

/-- The entry that an event creates, and the cell that it is for. -/
def Event.creates : Event σ → List (CellId × EntryId)
  | .served (.createEntry cell) (.ok id) => [(cell, id)]
  | _ => []

/-- The entries created in a past, in order. -/
def creations (past : List (Event σ)) : List (CellId × EntryId) := past.flatMap Event.creates

@[simp] theorem creations_append (first rest : List (Event σ)) :
    creations (first ++ rest) = creations first ++ creations rest := List.flatMap_append

@[simp] theorem creations_logged (notices : List Notice) :
    creations (notices.map (Event.logged (σ := σ))) = [] := by
  induction notices with
  | nil => rfl
  | cons notice rest ih => exact ih

theorem Event.eq_of_creates {event : Event σ} {cell : CellId} {id : EntryId}
    (h : (cell, id) ∈ event.creates) : event = .served (.createEntry cell) (.ok id) := by
  unfold creates at h
  split at h
  · cases List.mem_singleton.mp h
    rfl
  · cases h

theorem given_of_creations {past : List (Event σ)} {cell : CellId} {id : EntryId}
    (h : (cell, id) ∈ creations past) : .entry id ∈ given past := by
  obtain ⟨event, hevent, hcreates⟩ := List.mem_flatMap.mp h
  rw [Event.eq_of_creates hcreates] at hevent
  exact gives_subset hevent (List.mem_singleton_self _)

/-- The strategy of an entry: the one set last, and at first a link. -/
def strategyOf (past : List (Event σ)) (id : EntryId) : CopyId :=
  (past.reverse.findSome? (Event.sets id)).getD CopyTable.link

theorem strategyOf_served (past : List (Event σ)) (event : Event σ) (id : EntryId) :
    strategyOf (past ++ [event]) id = (event.sets id).getD (strategyOf past id) := by
  simp only [strategyOf, List.reverse_append, List.reverse_singleton, List.singleton_append,
    List.findSome?_cons]
  cases event.sets id <;> rfl

theorem strategyOf_logged (past : List (Event σ)) (notices : List Notice) (id : EntryId) :
    strategyOf (past ++ notices.map .logged) id = strategyOf past id := by
  have hnone : (notices.map (Event.logged (σ := σ))).reverse.findSome? (Event.sets id) = none := by
    simp [List.findSome?_eq_none_iff, Event.sets]
  rw [strategyOf, List.reverse_append, List.findSome?_append, hnone, Option.none_or]
  rfl

namespace Event

variable {event : Event σ} {id : EntryId}

theorem eq_of_sets {copy : CopyId} (h : event.sets id = some copy) :
    event = .served (.setEntryCopy id copy) (.ok ()) := by
  unfold sets at h
  split at h
  · split at h
    · rename_i he
      cases h
      rw [he]
    · cases h
  · cases h

/-- What is defined has been known before. -/
theorem uses_of_defines (h : id ∈ event.defines.map Prod.snd) : .entry id ∈ event.uses := by
  unfold defines at h
  split at h
  · obtain rfl : id = _ := List.mem_singleton.mp h
    exact List.mem_singleton_self _
  · cases h

end Event

namespace Machine

/-- The entries are as their past tells. -/
structure Chronicled (m : Machine σ) (past : List (Event σ)) : Prop where
  created : ∀ id, .entry id ∈ given past → ∃ cell, (cell, id) ∈ creations past
  defined : ∀ id ∈ (definitions past).map Prod.snd, .entry id ∈ given past
  linking : ∀ id, .entry id ∉ given past → strategyOf past id = CopyTable.link
  told : ∀ cell id, (cell, id) ∈ creations past → ∃ w, m.bytes.Files id w ∧
    w .cell = cell.number ∧ w .copy = (strategyOf past id).number ∧
    (id ∉ (definitions past).map Prod.snd → w .nameLength = 0)

namespace Chronicled

variable {m n : Machine σ} {past : List (Event σ)} {r : Request σ}

theorem empty (m : Machine σ) : m.Chronicled [] where
  created := nofun
  defined := nofun
  linking _ _ := rfl
  told := nofun

theorem logged (h : m.Chronicled past) (hb : n.bytes = m.bytes) (notices : List Notice) :
    n.Chronicled (past ++ notices.map .logged) := by
  constructor
  · simpa using h.created
  · simpa using h.defined
  · simpa [strategyOf_logged] using h.linking
  · simpa [strategyOf_logged, hb] using h.told

section
variable (hl : m.Ledger (given past) (definitions past)) (h : m.Chronicled past)
  (hr : r.handles ⊆ given past)
include hl h hr

theorem served_created (id : EntryId)
    (hid : .entry id ∈ given (past ++ [Event.served r (perform r m).answer])) :
    ∃ cell, (cell, id) ∈ creations (past ++ [Event.served r (perform r m).answer]) := by
  have hold : .entry id ∈ given past →
      ∃ cell, (cell, id) ∈ creations (past ++ [Event.served r (perform r m).answer]) := by
    intro hid
    obtain ⟨cell, hcell⟩ := h.created id hid
    rw [creations_append]
    exact ⟨cell, List.mem_append_left _ hcell⟩
  rw [Boxes.given_served] at hid
  rcases List.mem_append.mp hid with hid | hid
  · exact hold hid
  · rcases Event.gives_entry hid with ⟨cell, he⟩ | ⟨query, he⟩
    · refine ⟨cell, ?_⟩
      rw [he, creations_append]
      exact List.mem_append_right _ (List.mem_singleton_self _)
    · -- What is found has been defined, and so it has been known.
      obtain ⟨rfl, ha⟩ := Event.served.inj he
      obtain ⟨name, hname⟩ := hl.found (eq_of_heq ha)
      exact hold (h.defined id (List.mem_map.mpr ⟨_, hname, rfl⟩))

/-- A new entry tells its cell, and links. -/
theorem served_new {cell : CellId} {id : EntryId}
    (hid : (cell, id) ∈ (Event.served r (perform r m).answer).creates) :
    (perform r m).machine.bytes.Files id (.unnamed cell) ∧ strategyOf past id = CopyTable.link := by
  obtain ⟨rfl, ha⟩ := Event.served.inj (Event.eq_of_creates hid)
  have ha : (Machine.createEntry cell m).answer = .ok id := eq_of_heq ha
  obtain ⟨heap, ho⟩ := hl.accounts
  rcases createEntry_cases ho.stores cell with
    ⟨fault, hfault, -, -⟩ | ⟨b, heap', hok, hm, hs, hrep, -, hlt⟩
  · exact absurd (ha.symm.trans hfault) nofun
  · cases ha.symm.trans hok
    have hnumber : cell.number < wordLimit := by
      have := hl.built.numbered
      change cell.index + 1 < wordLimit
      omega
    refine ⟨?_, h.linking _ (hl.created_unknown hok)⟩
    change (Machine.createEntry cell m).machine.bytes.Files _ _
    rw [hm]
    exact hs.files hrep.self (Record.sound_unnamed hnumber)

theorem served_told (cell : CellId) (id : EntryId)
    (hid : (cell, id) ∈ creations (past ++ [Event.served r (perform r m).answer])) :
    ∃ w, (perform r m).machine.bytes.Files id w ∧ w .cell = cell.number ∧
      w .copy = (strategyOf (past ++ [Event.served r (perform r m).answer]) id).number ∧
      (id ∉ (definitions (past ++ [Event.served r (perform r m).answer])).map Prod.snd →
        w .nameLength = 0) := by
  rw [strategyOf_served, definitions_append]
  rw [creations_append] at hid
  rcases List.mem_append.mp hid with hold | hnew
  · obtain ⟨w, hw, hcell, hcopy, hlength⟩ := h.told cell id hold
    refine ⟨_, hl.revises (given_of_creations hold) hr hw, (Event.revised_cell _).trans hcell, ?_,
      fun hnone => ?_⟩
    · rw [Event.revised_copy, hcopy]
      cases (Event.served r (perform r m).answer).sets id <;> rfl
    · rw [List.map_append, List.mem_append, not_or] at hnone
      rw [Event.revised_nameLength (by simpa [definitions] using hnone.2)]
      exact hlength hnone.1
  · have hnew : (cell, id) ∈ (Event.served r (perform r m).answer).creates := by
      simpa [creations] using hnew
    obtain ⟨hfiles, hlink⟩ := served_new hl h hr hnew
    refine ⟨_, hfiles, rfl, ?_, fun _ => rfl⟩
    rw [Event.eq_of_creates hnew, hlink]
    rfl

theorem served : (perform r m).machine.Chronicled (past ++ [.served r (perform r m).answer]) where
  created := served_created hl h hr
  defined id hid := by
    rw [Boxes.given_served]
    rw [definitions_append, List.map_append] at hid
    rcases List.mem_append.mp hid with hid | hid
    · exact List.mem_append_left _ (h.defined id hid)
    · exact List.mem_append_left _ (hr (Event.uses_of_defines (by simpa [definitions] using hid)))
  linking id hid := by
    rw [Boxes.given_served, List.mem_append, not_or] at hid
    rw [strategyOf_served]
    cases hsets : (Event.served r (perform r m).answer).sets id with
    | none => exact h.linking id hid.1
    | some copy =>
      obtain ⟨rfl, -⟩ := Event.served.inj (Event.eq_of_sets hsets)
      exact absurd (hr (List.mem_singleton_self _)) hid.1
  told := served_told hl h hr

omit hr in
/-- An entry is read as its past tells. -/
theorem entry {cell : CellId} {id : EntryId} (hid : (cell, id) ∈ creations past) :
    ∃ w : Record, m.bytes.Files id w ∧
      Machine.entry id m = ⟨.ok ⟨cell, strategyOf past id, w.entry.name⟩, m, []⟩ ∧
      m.bytes.read id.address.offset Entry.size = .ok (Object.record w).bytes ∧
      w .cell = cell.number ∧ w .copy = (strategyOf past id).number ∧
      (id ∉ (definitions past).map Prod.snd → w .nameLength = 0) := by
  obtain ⟨w, hw, hcell, hcopy, hlength⟩ := h.told cell id hid
  obtain ⟨v, hread, hv, -, hbytes⟩ := hl.read_entry (given_of_creations hid)
  obtain rfl := hw.unique hv
  have hentry : w.entry = ⟨cell, strategyOf past id, w.entry.name⟩ := by
    simp [Record.entry, hcell, hcopy, CellId.number]
  exact ⟨w, hw, hentry ▸ hread, hbytes, hcell, hcopy, hlength⟩

end
end Chronicled
end Machine

theorem FreshRun.chronicled {host : Host σ} {past events : List (Event σ)} {m n : Machine σ}
    (h : FreshRun host past m) (hallowed : ∀ v, allowed v → v.handles ⊆ given past)
    (hev : Fresh (given past) events) (hm : Moves allowed m events n) : n.Chronicled (past ++ events) :=
  h.amid (I := fun past m => m.Chronicled past) .empty
    (fun _ m notices stack callDepth hc => hc.logged (n := { m with stack, callDepth }) rfl notices)
    (fun _ _ _ hl hc hr => hc.served hl hr) hallowed hev hm

/-- The record and the name of an entry that has not been defined. -/
structure Record.Spare (w : Record) (v : Value) : Prop where
  value : v = .nil
  name : w .name = 0
  length : w .nameLength = 0
  next : w .next = 0

/-- The record and the name of an entry that has been defined by this name, with the entry defined
next in the same bucket. -/
structure Record.Named (w : Record) (b : ByteArena) (v : Value) (name : String)
    (next? : Option EntryId) : Prop where
  shows : b.Shows v name
  value : ∃ address : Address, v = .string address (w .nameLength) ∧ w .name = address.number
  length : w .nameLength = name.toUTF8.toList.length
  next : w .next = EntryId.link next?

open Definitions

namespace Machine

variable {m n : Machine σ} {known : List Handle} {defs : Definitions} {id : EntryId} {w : Record}

theorem Ledger.spare (h : m.Ledger known defs) (hid : .entry id ∈ known) (hw : m.bytes.Files id w)
    (hnone : id ∉ defs.map Prod.snd) : w .name = 0 ∧ w .next = 0 := by
  obtain ⟨heap, ho⟩ := h.accounts
  obtain ⟨v, hv⟩ := ho.refers _ hid
  obtain rfl := hw.unique (ho.stores.files hv (ho.sound _ _ hv))
  exact ho.filed.spare _ _ hv hnone

theorem Ledger.named (h : m.Ledger known defs) (hw : m.bytes.Files id w) {before after : Definitions}
    {name : String} (hdefs : defs = before ++ (name, id) :: after) :
    w.Named m.bytes w.entry.name name (first m.settings.mode (bucket m.settings.mode name) after) ∧
      id ∉ (before ++ after).map Prod.snd := by
  obtain ⟨heap, ho⟩ := h.accounts
  obtain ⟨v, address, hv, hname, hlength, ht⟩ := ho.filed.named name id (by simp [hdefs])
  obtain rfl := hw.unique (ho.stores.files hv (ho.sound _ _ hv))
  have hvalue : w.entry.name = .string address name.toUTF8.toList.length := by
    simp only [Record.entry, hname, Address.ofNumber?_number, hlength]
  refine ⟨⟨?_, ⟨address, ?_, hname⟩, hlength, ?_⟩, ?_⟩
  · rw [hvalue]
    exact ho.stores.shows ht
  · rw [hvalue, hlength]
  · rw [← h.mode]
    exact ho.filed.linked before name id after w hdefs hv
  · have hd := ho.filed.distinct
    rw [hdefs, List.map_append, List.map_cons, List.nodup_middle] at hd
    rw [List.map_append]
    exact (List.nodup_cons.mp hd).1

/-- A named entry cannot be defined again, whatever its name is. -/
theorem define_again {e : Entry} (he : Machine.entry id m = ⟨.ok e, m, []⟩)
    (hname : e.name.isNil = false) (again : String) : (Machine.define again id m).answer = .error .alreadyDefined ∧
      (Machine.define again id m).machine = m := by
  rw [define, Step.bind_of_ok (by rw [he]), he, if_neg (by rw [hname]; decide)]
  exact ⟨rfl, rfl⟩

/-- A move that uses known handles only revises the record of a known entry as its events tell. -/
theorem Ledger.move_revises (h : m.Ledger known defs) (hid : .entry id ∈ known)
    (hallowed : ∀ v, allowed v → v.handles ⊆ known) {events : List (Event σ)}
    (hev : Fresh known events) (hm : Move allowed m events n) (hw : m.bytes.Files id w) :
    n.bytes.read id.address.offset Entry.size =
      .ok (Object.record (events.foldl (Event.revised m id) w)).bytes := by
  obtain ⟨v, -, hv, -, hread⟩ := (h.move hallowed hev hm).1.read_entry (List.mem_append_left _ hid)
  have hlogged : ∀ notices : List Notice,
      (notices.map (Event.logged (σ := σ))).foldl (Event.revised m id) w = w := by
    intro notices
    induction notices with
    | nil => rfl
    | cons notice rest ih => exact ih
  rw [hread]
  refine congrArg (fun w => Except.ok (Object.record w).bytes) (hv.unique ?_)
  rcases hm.quiet_or_served with ⟨notices, stack, depth, rfl, rfl⟩ | ⟨r, notices, rfl, rfl⟩
  · rw [hlogged]
    exact hw
  · rw [List.foldl_append, hlogged]
    have hr := ((fresh_append ..).mp hev).2.1
    rw [given_logged, List.append_nil] at hr
    exact h.revises hid hr hw

end Machine

/-- At every moment of a fresh run an entry that has been created since the last reset can be read. It
tells the cell that it was created for, the strategy that was set last, and after its definition the
name that it was defined by, which it cannot be a second time. Its record is these as five words, of
which the last one is the entry defined next in the same bucket. No request changes a record but those
on its entry and the definition of this next one. -/
theorem FreshRun.entry_records {host : Host σ} {past events : List (Event σ)} {m n : Machine σ}
    (h : FreshRun host past m) (hallowed : ∀ v, allowed v → v.handles ⊆ given past)
    (hev : Fresh (given past) events) (hm : Moves allowed m events n) {cell : CellId} {id : EntryId}
    (hid : (cell, id) ∈ creations (past ++ events)) :
    ∃ (w : Record) (name : Value),
      Machine.entry id n = ⟨.ok ⟨cell, strategyOf (past ++ events) id, name⟩, n, []⟩ ∧
      n.bytes.read id.address.offset Entry.size = .ok (Object.record w).bytes ∧
      w .cell = cell.number ∧ w .copy = (strategyOf (past ++ events) id).number ∧
      (id ∉ (definitions (past ++ events)).map Prod.snd → w.Spare name) ∧
      (∀ before text after, definitions (past ++ events) = before ++ (text, id) :: after →
        w.Named n.bytes name text (first n.settings.mode (bucket n.settings.mode text) after) ∧
        id ∉ (before ++ after).map Prod.snd ∧
        ∀ again, (Machine.define again id n).answer = .error .alreadyDefined ∧
          (Machine.define again id n).machine = n) ∧
      ∀ (handed : Value → Prop) more o, (∀ v, handed v → v.handles ⊆ given (past ++ events)) →
        Fresh (given (past ++ events)) more → Move handed n more o →
        o.bytes.read id.address.offset Entry.size =
          .ok (Object.record (more.foldl (Event.revised n id) w)).bytes := by
  have hl := h.ledger_amid hallowed hev hm
  have hknown := given_of_creations hid
  obtain ⟨w, hw, hread, hbytes, hcell, hcopy, hlength⟩ :=
    (h.chronicled hallowed hev hm).entry hl hid
  refine ⟨w, w.entry.name, hread, hbytes, hcell, hcopy, fun hnone => ?_, ?_, ?_⟩
  · obtain ⟨hname, hnext⟩ := hl.spare hknown hw hnone
    exact ⟨by simp [Record.entry, hname, Address.ofNumber?], hname, hlength hnone, hnext⟩
  · intro before text after hdefs
    obtain ⟨hnamed, hunique⟩ := hl.named hw hdefs
    refine ⟨hnamed, hunique, Machine.define_again hread ?_⟩
    obtain ⟨address, hvalue, -⟩ := hnamed.value
    rw [hvalue]
    rfl
  · exact fun handed more o hhanded hmore hmove => hl.move_revises hknown hhanded hmore hmove hw

/-- Two entries of one bucket, both with an empty name, the first of them to be copied. -/
def Stock.twoEmptyNames : Program Stock.signature Unit := do
  let cell ← request .newCell
  let older ← request (.createEntry cell)
  request (.setEntryCopy older CopyTable.inline)
  request (.define "" older)
  let newer ← request (.createEntry cell)
  request (.define "" newer)

open Stock in
/-- The records lie at 0 and at 21. -/
theorem FreshRun.entry_records_of_twoEmptyNames :
    let m : Machine signature := .create (.replicate 48 7) (.replicate 1 .empty) ⟨1, .strict⟩ none
    let o := twoEmptyNames.start host m
    FreshRun host [] m ∧ Fresh (given ([] : List (Event signature))) o.events ∧
    Moves (Operation.program twoEmptyNames).Gives m o.events o.machine ∧
    ∃ (w : Record) (name : Value),
      Machine.entry ⟨⟨0⟩⟩ o.machine = ⟨.ok ⟨⟨0⟩, CopyTable.inline, name⟩, o.machine, []⟩ ∧
      o.machine.bytes.Shows name "" ∧ w .next = 22 ∧
      o.machine.bytes.read 0 Entry.size = .ok (Object.record w).bytes ∧
      (Machine.define "x" ⟨⟨0⟩⟩ o.machine).answer = .error .alreadyDefined := by
  intro m o
  have hrun : FreshRun host [] m := .created (.replicate 48 7) (.replicate 1 .empty) ⟨1, .strict⟩ none
  have hfresh : Fresh (given ([] : List (Event signature))) o.events := by decide +kernel
  have hmoves := (Operation.program twoEmptyNames).moves host m
  have hdefs : definitions o.events = [] ++ ("", ⟨⟨0⟩⟩) :: [("", ⟨⟨21⟩⟩)] := by decide +kernel
  have hcopy : strategyOf o.events ⟨⟨0⟩⟩ = CopyTable.inline := by decide +kernel
  have hmade : (⟨0⟩, ⟨⟨0⟩⟩) ∈ creations o.events := by decide +kernel
  obtain ⟨w, name, hentry, hbytes, -, -, -, hnamed, -⟩ :=
    FreshRun.entry_records hrun nofun hfresh hmoves hmade
  obtain ⟨hname, -, hagain⟩ := hnamed _ _ _ hdefs
  refine ⟨hrun, hfresh, hmoves, w, name, ?_, hname.shows, ?_, hbytes, (hagain "x").1⟩
  · rw [← hcopy]
    exact hentry
  · exact hname.next.trans (by decide +kernel)

end ThreadedCode
