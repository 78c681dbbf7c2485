import ThreadedCode.Proofs.Atomicity
import ThreadedCode.Proofs.Listeners
import ThreadedCode.Proofs.Lodgings
import ThreadedCode.Proofs.Primitives

/-!
Registration. A table of native words is defined row by row until a row does not fit. Of that row
an unnamed entry is left at most, and everything is as if the table had ended before it.
-/
namespace ThreadedCode

variable {σ : Signature} {α : Type}

namespace ByteArena

variable {a : ByteArena} {size : Nat}

/-- In a buffer whose every byte can be named in a word only room can be missing. -/
theorem gives_iff (hsmall : a.capacity + 1 < wordLimit) (hpos : 0 < size) :
    a.Gives size ↔ a.used + size ≤ a.capacity := by
  have hlimits : wordLimit < sizeLimit := by decide
  unfold Gives
  rw [hasRoom_iff]
  omega

theorem checkText_iff (hsmall : a.capacity + 1 < wordLimit) (text : String) :
    a.checkText text = .ok () ↔ a.used + (text.toUTF8.toList.length + 1) ≤ a.capacity := by
  rw [← gives_iff hsmall (Nat.succ_pos _)]
  by_cases hlen : text.toUTF8.toList.length < wordLimit
  · simp only [checkText, hlen, if_true]
    by_cases hroom : a.Gives (text.toUTF8.toList.length + 1)
    · simp only [allocate, show (_ ∧ _) from hroom, hroom]
      exact ⟨fun _ => trivial, fun _ => rfl⟩
    · simp only [allocate_error hroom, hroom]
      exact iff_of_false (fun h => by cases h) id
  · have hfull : ¬ a.Gives (text.toUTF8.toList.length + 1) := by
      rw [gives_iff hsmall (Nat.succ_pos _)]
      omega
    simp only [checkText, hlen, if_false, hfull]
    exact iff_of_false (fun h => by cases h) id

theorem checkText_error {text : String} {fault : Fault} (h : a.checkText text = .error fault) :
    ∃ size, fault = a.full size := by
  by_cases hlen : text.toUTF8.toList.length < wordLimit
  · by_cases hroom : a.Gives (text.toUTF8.toList.length + 1)
    · simp only [checkText, hlen, if_true, allocate, show (_ ∧ _) from hroom] at h
      cases h
    · simp only [checkText, hlen, if_true, allocate_error hroom] at h
      cases h
      exact ⟨_, rfl⟩
  · simp only [checkText, hlen, if_false] at h
    cases h
    exact ⟨_, rfl⟩

end ByteArena

namespace Machine

variable {m : Machine σ} {id : CellId} {c d : Cell σ}

/-- The machine with one more cell, and what is in it. -/
def furnished (m : Machine σ) (c : Cell σ) : Machine σ :=
  { m.extended with cells := m.extended.cells.put ⟨m.cells.used⟩ c }

theorem newCell_ends_full (hfull : m.cells.capacity ≤ m.cells.used) :
    (serve .newCell).Ends m [] (.error (.cellArenaFull m.cells.capacity)) m := by
  have hnot : ¬ (m.cells.hasRoom ∧ m.cells.used + 1 < wordLimit) := fun h =>
    Nat.not_lt_of_le hfull (of_decide_eq_true h.1)
  obtain ⟨ha, hmachine⟩ := newCell_of_full hnot
  exact .serve (r := .newCell) ha hmachine

theorem newCell_ends (hb : m.Built) (hroom : m.cells.used < m.cells.capacity)
    (hword : m.cells.used + 1 < wordLimit) :
    (serve .newCell).Ends m [] (.ok ⟨m.cells.used⟩) m.extended ∧
      m.extended.cells.get ⟨m.cells.used⟩ = .ok .empty := by
  have hnew := newCell_of_room hb.sound.allocated ⟨decide_eq_true hroom, hword⟩
  have hok : (newCell m).answer = .ok ⟨m.cells.used⟩ := by rw [hnew]
  refine ⟨.serve hok ?_, (newCell_of_ok hb hok).2.2⟩
  change (newCell m).machine = _
  rw [hnew]
  rfl

theorem furnished_get (hget : m.extended.cells.get ⟨m.cells.used⟩ = .ok d) (c : Cell σ) :
    (m.furnished c).cells.get ⟨m.cells.used⟩ = .ok c := CellArena.get_put_self hget

theorem bind_ends (hb : m.Built) (hroom : m.cells.used < m.cells.capacity)
    (hword : m.cells.used + 1 < wordLimit) (procedure : Procedure σ) :
    (serve (.bind ⟨m.cells.used⟩ procedure)).Ends m.extended [] (.ok ())
      (m.furnished ⟨procedure, .nil, 1⟩) := by
  have hbound : Machine.bind ⟨m.cells.used⟩ procedure m.extended = _ :=
    changeCell_of_get (newCell_ends hb hroom hword).2 fun c => c.bound procedure
  exact .serve (congrArg Outcome.answer hbound) (congrArg Outcome.machine hbound)

theorem furnished_kept (hg : m.cells.get id = .ok d) : (m.furnished c).cells.get id =
    .ok { d with extent := d.extent + m.openWords.heads.count id } := by
  have hne : id ≠ ⟨m.cells.used⟩ := by
    rintro rfl
    exact Nat.lt_irrefl _ (CellArena.get_eq_ok.mp hg).1
  exact (CellArena.get_put_ne hne).trans (get_extended hg)

@[simp] theorem furnished_used : (m.furnished c).cells.used = m.cells.used + 1 := rfl

@[simp] theorem furnished_capacity : (m.furnished c).cells.capacity = m.cells.capacity := by
  rw [furnished, CellArena.put_capacity, extended_capacity]

end Machine

namespace Words

open Machine

/-- What is left of a row that does not fit, and the fault. -/
inductive Leftover (name : String) (procedure : Procedure σ) (m : Machine σ) :
    Fault → Machine σ → Prop
  /-- Nothing is left where there is no cell. -/
  | nothing (hfull : m.cells.capacity ≤ m.cells.used) :
    Leftover name procedure m (.cellArenaFull m.cells.capacity) m
  /-- The cell alone, bound to the procedure, where there is no room for a record. -/
  | cell (hroom : m.cells.used < m.cells.capacity)
    (hfull : m.bytes.capacity < m.bytes.used + Entry.size) :
    Leftover name procedure m (m.bytes.full Entry.size) (m.furnished ⟨procedure, .nil, 1⟩)
  /-- The cell and the record of an entry for it, where there is no room for the name. -/
  | entry {data : List UInt8} {b : ByteArena} {size : Nat}
    (hroom : m.cells.used < m.cells.capacity)
    (hfits : m.bytes.used + Entry.size ≤ m.bytes.capacity)
    (hfull : m.bytes.capacity < m.bytes.used + storage name) (hold : m.bytes.Holds data)
    (hnew : b.Holds (data ++ (Object.record (.unnamed ⟨m.cells.used⟩)).bytes))
    (hgrown : m.bytes.Grown b Entry.size) (hfault : b.checkText name = .error (b.full size)) :
    Leftover name procedure m (b.full size) { m.furnished ⟨procedure, .nil, 1⟩ with bytes := b }

/-- All rows of a table have been defined. Each has taken a cell and its storage. -/
structure Took (table : List (String × Procedure σ)) (m n : Machine σ) : Prop where
  frame : n = { m with bytes := n.bytes, cells := n.cells, dictionary := n.dictionary }
  used : n.cells.used = m.cells.used + table.length
  capacity : n.cells.capacity = m.cells.capacity
  grown : m.bytes.Grown n.bytes (storageOf table)
  count : n.dictionary.count = m.dictionary.count + table.length
  /-- Only the open words have grown. -/
  kept : ∀ id c, m.cells.get id = .ok c → n.cells.get id =
    .ok { c with extent := c.extent + m.openWords.heads.count id * table.length }
  rows : ∀ i name procedure, table[i]? = some (name, procedure) →
    n.cells.get ⟨m.cells.used + i⟩ = .ok ⟨procedure, .nil, 1⟩

variable {host : Host σ} {m k n : Machine σ} {name : String} {procedure : Procedure σ}
  {table more : List (String × Procedure σ)}

theorem Took.nil (m : Machine σ) : Took [] m m where
  frame := rfl
  used := rfl
  capacity := rfl
  grown := ⟨rfl, rfl⟩
  count := rfl
  kept id c h := h
  rows i name procedure h := by simp at h

theorem storageOf_append (table more : List (String × Procedure σ)) :
    storageOf (table ++ more) = storageOf table + storageOf more := by
  induction table with
  | nil => exact (Nat.zero_add _).symm
  | cons row rest ih =>
    change storage row.1 + storageOf (rest ++ more) = storage row.1 + storageOf rest + storageOf more
    omega

/-- What one table has put into place the next one leaves there. -/
theorem Took.append (hb : m.Built) (h : Took table m k) (h' : Took more k n) :
    Took (table ++ more) m n := by
  have hwords : k.openWords = m.openWords := by rw [h.frame]
  constructor
  · rw [h'.frame, h.frame]
  · rw [h'.used, h.used, List.length_append, Nat.add_assoc]
  · rw [h'.capacity, h.capacity]
  · rw [storageOf_append]
    exact h.grown.trans h'.grown
  · rw [h'.count, h.count, List.length_append, Nat.add_assoc]
  · intro id c hc
    rw [h'.kept id _ (h.kept id c hc), hwords, List.length_append, Nat.mul_add, Nat.add_assoc]
  · intro i name procedure hi
    by_cases hlt : i < table.length
    · rw [List.getElem?_append_left hlt] at hi
      have hclosed : m.openWords.heads.count ⟨m.cells.used + i⟩ = 0 :=
        List.count_eq_zero.mpr (hb.sound.not_open_of_le (Nat.le_add_right ..))
      rw [h'.kept _ _ (h.rows i name procedure hi), hwords, hclosed, Nat.zero_mul]
    · rw [List.getElem?_append_right (by omega)] at hi
      have hlast := h'.rows _ name procedure hi
      rw [h.used, Nat.add_assoc, Nat.add_sub_cancel' (by omega)] at hlast
      exact hlast

theorem Took.row (hb : m.Built) (hroom : m.cells.used < m.cells.capacity)
    (hword : m.cells.used + 1 < wordLimit) {b : ByteArena} (hgrown : m.bytes.Grown b (storage name))
    (index : Fin Dictionary.bucketCount) (id : EntryId) : Took [(name, procedure)] m
      { m.furnished ⟨procedure, .nil, 1⟩ with bytes := b, dictionary := m.dictionary.append index id } where
  frame := rfl
  used := rfl
  capacity := furnished_capacity
  grown := hgrown
  count := rfl
  kept id c hc := by
    rw [List.length_singleton, Nat.mul_one]
    exact furnished_kept hc
  rows i name procedure hi := by
    obtain ⟨hi, hrow⟩ := List.getElem?_eq_some_iff.mp hi
    obtain rfl : i = 0 := by simpa using hi
    cases hrow
    exact furnished_get (newCell_ends hb hroom hword).2 _

/-- Makes an entry for a cell and defines it. -/
def enter (name : String) (cell : CellId) : Step σ EntryId := do
  let entry ← serve (.createEntry cell)
  serve (.define name entry)
  return entry

/-- An entry without a name can get any name that there is room for. -/
theorem checkName_unnamed {b : ByteArena} {data : List UInt8} {cell : CellId}
    (h : b.Holds (data ++ (Object.record (.unnamed cell)).bytes)) (hnumber : cell.number < wordLimit)
    (name : String) : b.checkName name ⟨⟨data.length⟩⟩ = b.checkText name := by
  have hsound := Record.sound_unnamed hnumber
  have hread : Entry.read b ⟨⟨data.length⟩⟩ = .ok (Record.entry (.unnamed cell)) := by
    refine ByteArena.read_of_fields hsound.cell fun field => ?_
    rw [← List.append_nil (data ++ _)] at h
    exact h.readField rfl field (hsound.bounded field)
  rw [ByteArena.checkName, hread]
  rfl

/-- The records that the definition of a new entry writes to have all their bytes. -/
theorem lodges_new (hm : m.Moored 0) {b : ByteArena} {data : List UInt8} (h : m.bytes.Holds data)
    (hgrown : m.bytes.Grown b Entry.size) (name : String) :
    Lodges { m with bytes := b } (.define name ⟨⟨data.length⟩⟩) := by
  have hused := hgrown.used
  have hheld := h.used
  refine ⟨?_, fun e he => ?_⟩
  · change data.length + Entry.size ≤ b.used
    omega
  · have hnewest : e.address.offset + 16 ≤ m.bytes.used := hm.newest _ e he
    have hsize : Entry.size = 20 := rfl
    change e.address.offset + Entry.size ≤ b.used
    omega

/-- Only room can be missing for an entry: for its record, or for its name when the record is there
already. -/
theorem enter_cases (hm : m.Moored 0) (hbytes : m.bytes.capacity + 1 < wordLimit) {cell : CellId}
    {c : Cell σ} (hg : m.cells.get cell = .ok c) (hnumber : cell.number < wordLimit) (name : String) :
    (m.bytes.capacity < m.bytes.used + Entry.size ∧
      (enter name cell).Ends m [] (.error (m.bytes.full Entry.size)) m) ∨
    (∃ data b size, m.bytes.used + Entry.size ≤ m.bytes.capacity ∧
      m.bytes.capacity < m.bytes.used + storage name ∧ m.bytes.Holds data ∧
      b.Holds (data ++ (Object.record (.unnamed cell)).bytes) ∧ m.bytes.Grown b Entry.size ∧
      b.checkText name = .error (b.full size) ∧
      (enter name cell).Ends m [] (.error (b.full size)) { m with bytes := b }) ∨
    ∃ b id, m.bytes.used + storage name ≤ m.bytes.capacity ∧ m.bytes.Grown b (storage name) ∧
      (enter name cell).Ends m [] (.ok id) { m with
        bytes := b
        dictionary := m.dictionary.append (Definitions.bucket m.dictionary.mode name) id } := by
  obtain ⟨data, hdata⟩ := hm.held
  have hused := hdata.used
  rcases createEntry_held hdata cell with
    ⟨fault, ha, hmachine, hfull⟩ | ⟨b, ha, hmachine, hheld, hgrown, -⟩
  · have hfull : ¬ m.bytes.Gives Entry.size := fun h => hfull ⟨⟨_, hg⟩, h⟩
    obtain ⟨hcheck, -⟩ := (createEntry_checked cell).fault ha
    rw [hg, ByteArena.allocate_error hfull] at hcheck
    cases hcheck
    rw [ByteArena.gives_iff hbytes (by decide)] at hfull
    exact .inl ⟨by omega, (Step.Ends.serve (r := .createEntry cell) ha hmachine).fail⟩
  have hmade := Step.Ends.serve (r := .createEntry cell) ha hmachine
  have hbused : b.used = m.bytes.used + Entry.size := hgrown.used
  have hbcapacity : b.capacity = m.bytes.capacity := hgrown.capacity
  have hfits := hheld.fits
  have hstorage : storage name = Entry.size + (name.toUTF8.toList.length + 1) := rfl
  have hchecked := define_checked (lodges_new hm hdata hgrown name)
  rw [checkName_unnamed hheld hnumber] at hchecked
  have hroom := ByteArena.checkText_iff (a := b) (by rw [hbcapacity]; exact hbytes) name
  cases htext : b.checkText name with
  | error fault =>
    obtain ⟨size, rfl⟩ := ByteArena.checkText_error htext
    obtain ⟨hfault, hkept⟩ := hchecked.refused _ htext
    have hnot : ¬ b.used + (name.toUTF8.toList.length + 1) ≤ b.capacity := by
      rw [← hroom, htext]
      nofun
    refine .inr (.inl ⟨data, b, size, by omega, by omega, hdata, hheld, hgrown, htext, ?_⟩)
    exact hmade.bind (Step.Ends.serve (r := .define name ⟨⟨data.length⟩⟩) hfault hkept).fail
  | ok done =>
    obtain ⟨_, hok⟩ := hchecked.granted htext
    obtain ⟨b', hdefined, hgrown'⟩ := define_of_ok (m := { m with bytes := b }) hheld hok
    have hle := hroom.mp htext
    refine .inr (.inr ⟨b', ⟨⟨data.length⟩⟩, by omega, hgrown.trans hgrown', ?_⟩)
    exact hmade.bind
      ((Step.Ends.serve (r := .define name ⟨⟨data.length⟩⟩) hok hdefined).bind (.pure _ _))

/-- A row is defined, or it does not fit. -/
theorem define_row (host : Host σ) (hb : m.Built) (hm : m.Moored 0)
    (hcells : m.cells.capacity + 1 < wordLimit) (hbytes : m.bytes.capacity + 1 < wordLimit)
    (name : String) (procedure : Procedure σ) :
    let o := (define name procedure).start host m
    (∃ fault, o.answer = .error fault ∧ Leftover name procedure m fault o.machine) ∨
    ∃ id, o.answer = .ok id ∧ Took [(name, procedure)] m o.machine := by
  intro o
  by_cases hroom : m.cells.used < m.cells.capacity
  swap
  · have hfull := Nat.le_of_not_lt hroom
    have hends : ((define name procedure).start host).Ends m []
        (.error (.cellArenaFull m.cells.capacity)) m := by
      rw [start_define]
      exact (newCell_ends_full hfull).fail
    refine .inl ⟨_, hends.answer, ?_⟩
    rw [hends.machine]
    exact .nothing hfull
  have hword : m.cells.used + 1 < wordLimit := by omega
  have hstart : ∀ {answer n},
      (enter name ⟨m.cells.used⟩).Ends (m.furnished ⟨procedure, .nil, 1⟩) [] answer n →
      ((define name procedure).start host).Ends m [] answer n := by
    intro answer n henter
    rw [start_define]
    exact (newCell_ends hb hroom hword).1.bind ((bind_ends hb hroom hword procedure).bind henter)
  have hmoored : (m.furnished ⟨procedure, .nil, 1⟩).Moored 0 := hm.of_eq rfl rfl
  rcases enter_cases hmoored hbytes (furnished_get (newCell_ends hb hroom hword).2 _) hword name with
    ⟨hfull, henter⟩ | ⟨data, b, size, hfits, hfull, hdata, hheld, hgrown, hfault, henter⟩ |
    ⟨b, id, -, hgrown, henter⟩
  · refine .inl ⟨_, (hstart henter).answer, ?_⟩
    rw [(hstart henter).machine]
    exact .cell hroom hfull
  · refine .inl ⟨_, (hstart henter).answer, ?_⟩
    rw [(hstart henter).machine]
    exact .entry hroom hfits hfull hdata hheld hgrown hfault
  · refine .inr ⟨_, (hstart henter).answer, ?_⟩
    rw [(hstart henter).machine]
    exact .row hb hroom hword hgrown _ _

/-- What is left of a row leaves the rest as it was. -/
theorem Leftover.kept {fault : Fault} (h : Leftover name procedure m fault n) :
    n = { m with bytes := n.bytes, cells := n.cells } ∧ m.cells.used ≤ n.cells.used ∧
    ∀ id c, m.cells.get id = .ok c → n.cells.get id =
      .ok { c with extent := c.extent + m.openWords.heads.count id * (n.cells.used - m.cells.used) } := by
  have hone : m.cells.used + 1 - m.cells.used = 1 := Nat.add_sub_cancel_left ..
  cases h with
  | nothing => exact ⟨rfl, Nat.le_refl _, fun id c hc => by simpa using hc⟩
  | cell =>
    refine ⟨rfl, Nat.le_succ _, fun id c hc => ?_⟩
    rw [furnished_used, hone, Nat.mul_one]
    exact furnished_kept hc
  | entry =>
    refine ⟨rfl, Nat.le_succ _, fun id c hc => ?_⟩
    rw [show ({ m.furnished ⟨procedure, .nil, 1⟩ with bytes := _ } : Machine σ).cells.used = m.cells.used + 1
      from rfl, hone, Nat.mul_one]
    exact furnished_kept hc

/-- All rows of a table are defined, or those before the first one that does not fit. -/
theorem defineAll_cases (host : Host σ) (hb : m.Built) (hm : m.Moored 0)
    (hcells : m.cells.capacity + 1 < wordLimit) (hbytes : m.bytes.capacity + 1 < wordLimit)
    (table : List (String × Procedure σ)) :
    let o := (defineAll table).start host m
    (o.answer = .ok () ∧ Took table m o.machine) ∨
    ∃ done name procedure rest fault, table = done ++ (name, procedure) :: rest ∧
      let p := (defineAll done).start host m
      let last := (define name procedure).start host p.machine
      p.answer = .ok () ∧ Took done m p.machine ∧ last.answer = .error fault ∧
      Leftover name procedure p.machine fault last.machine ∧
      o.answer = .error fault ∧ o.machine = last.machine := by
  induction table generalizing m with
  | nil => exact .inl ⟨rfl, .nil m⟩
  | cons row table ih =>
    obtain ⟨name, procedure⟩ := row
    rcases define_row host hb hm hcells hbytes name procedure with
      ⟨fault, ha, hleft⟩ | ⟨id, ha, htook⟩
    · refine .inr ⟨[], name, procedure, table, fault, rfl, rfl, .nil m, ha, hleft, ?_, ?_⟩
      · rw [start_defineAll_cons, Step.bind_of_error ha]
      · rw [start_defineAll_cons, Step.bind_of_error ha]
        rfl
    · have hstart : ∀ table, (defineAll ((name, procedure) :: table)).start host m =
          ((defineAll table).start host ((define name procedure).start host m).machine).after
            ((define name procedure).start host m).events := by
        intro table
        rw [start_defineAll_cons, Step.bind_of_ok ha]
      have hcells' : ((define name procedure).start host m).machine.cells.capacity + 1 < wordLimit := by
        rw [htook.capacity]
        exact hcells
      have hbytes' : ((define name procedure).start host m).machine.bytes.capacity + 1 < wordLimit := by
        rw [htook.grown.capacity]
        exact hbytes
      have hb' := hb.start host (define name procedure)
      rcases ih hb' (hm.start host _) hcells' hbytes' with
        ⟨hok, hall⟩ | ⟨done, last, procedure', rest, fault, rfl, hok, hall, hfails, hleft, ho, hmo⟩
      · refine .inl ⟨?_, ?_⟩
        · rw [hstart]
          exact hok
        · rw [hstart]
          exact htook.append hb hall
      · refine .inr ⟨(name, procedure) :: done, last, procedure', rest, fault, rfl, ?_⟩
        simp only [hstart, Outcome.after_answer, Outcome.after_machine]
        exact ⟨hok, htook.append hb hall, hfails, hleft, ho, hmo⟩

/-- The note at the end changes nothing. -/
theorem register_eq_defineAll (host : Host σ) (table : List (String × Procedure σ)) (m : Machine σ) :
    ((register table).start host m).answer = ((defineAll table).start host m).answer ∧
    ((register table).start host m).machine = ((defineAll table).start host m).machine := by
  rw [start_register]
  cases ha : ((defineAll table).start host m).answer with
  | ok done =>
    rw [Step.bind_of_ok ha]
    exact ⟨rfl, rfl⟩
  | error fault =>
    rw [Step.bind_of_error ha]
    exact ⟨rfl, rfl⟩

/-- Where not all rows are defined, they do not all fit. -/
theorem Leftover.scarce {done rest : List (String × Procedure σ)} {fault : Fault}
    (hb : m.Built) (htook : Took done m k) (h : Leftover name procedure k fault n) :
    ¬ ((done ++ (name, procedure) :: rest).length ≤ m.cells.capacity - m.cells.used ∧
      storageOf (done ++ (name, procedure) :: rest) ≤ m.bytes.remaining) := by
  rintro ⟨hcells, hbytes⟩
  have hused := htook.used
  have hcapacity := htook.capacity
  have hbused := htook.grown.used
  have hbcapacity := htook.grown.capacity
  have hroom := hb.room
  have hsize : Entry.size ≤ storage name := Nat.le_add_right ..
  have hpos : 0 < Entry.size := by decide
  rw [storageOf_append] at hbytes
  simp only [List.length_append, List.length_cons, storageOf, ByteArena.remaining] at hcells hbytes
  cases h with
  | nothing hfull => omega
  | cell _ hfull => omega
  | entry _ _ hfull => omega

/-- Where all rows are defined, they all fit. -/
theorem Took.fits (h : Took table m n) (hb : n.Built) (hm : n.Moored 0) :
    table.length ≤ m.cells.capacity - m.cells.used ∧ storageOf table ≤ m.bytes.remaining := by
  have hroom := hb.room
  obtain ⟨data, hdata⟩ := hm.held
  have hfits := hdata.fits
  rw [h.used, h.capacity] at hroom
  rw [h.grown.used, h.grown.capacity] at hfits
  exact ⟨Nat.le_sub_of_add_le' hroom, Nat.le_sub_of_add_le' hfits⟩

/-- Only the open words have grown, by the cells that the rows and what is left have taken. -/
theorem Leftover.grown {done : List (String × Procedure σ)} {fault : Fault} (htook : Took done m k)
    (h : Leftover name procedure k fault n) {id : CellId} {c : Cell σ} (hc : m.cells.get id = .ok c) :
    n.cells.get id = .ok { c with
      extent := c.extent + m.openWords.heads.count id * (n.cells.used - m.cells.used) } := by
  obtain ⟨-, hmore, hkept⟩ := h.kept
  have hused := htook.used
  have hwords : k.openWords = m.openWords := by rw [htook.frame]
  have hsum : n.cells.used - m.cells.used = done.length + (n.cells.used - k.cells.used) := by omega
  rw [hkept id _ (htook.kept id c hc), hsum, Nat.mul_add, ← Nat.add_assoc, hwords]

/-- A name is defined if the outcome is a success, and whatever was known reads the same. -/
structure Entered (known : List Handle) (defs : Definitions) (name : String) (m : Machine σ)
    (o : Outcome σ EntryId) : Prop where
  ledger : (∃ id, o.answer = .ok id ∧
      o.machine.Ledger (known ++ [.entry id]) (defs ++ [(name, id)])) ∨
    ∃ fault more, o.answer = .error fault ∧ o.machine.Ledger (known ++ more) defs
  reads : Reads known m o.machine

section

variable {known : List Handle} {defs : Definitions}

theorem Entered.failed (h : n.Ledger known defs) (hreads : Reads known m n) (fault : Fault)
    (events : List (Event σ)) : Entered known defs name m ⟨.error fault, n, events⟩ :=
  ⟨.inr ⟨fault, [], rfl, by rw [List.append_nil]; exact h⟩, hreads⟩

theorem Entered.later {o : Outcome σ EntryId} (h : Entered known defs name k o)
    (hreads : Reads known m k) (events : List (Event σ)) : Entered known defs name m (o.after events) :=
  ⟨h.ledger, hreads.trans h.reads⟩

/-- A name that is not defined is not found. -/
theorem Entered.search {o : Outcome σ EntryId} (h : Entered known defs name m o)
    (hl : m.Ledger known defs) {fault : Fault} (hfail : o.answer = .error fault)
    (hsettings : o.machine.settings = m.settings) (query : String) :
    (Machine.search query o.machine).answer = (Machine.search query m).answer := by
  rcases h.ledger with ⟨id, hok, -⟩ | ⟨fault, more, -, hl'⟩
  · cases hfail.symm.trans hok
  · rw [hl'.search_answer, hl.search_answer, hsettings]

/-- An entry that has not been known gets a name. -/
theorem named_entered {id : EntryId} (h : m.Ledger (known ++ [.entry id]) defs)
    (hunknown : .entry id ∉ known) (name : String) :
    Entered known defs name m ((do serve (.define name id); return id : Step σ EntryId) m) := by
  have hid : Request.handles (σ := σ) (.define name id) ⊆ known ++ [.entry id] :=
    List.subset_append_right ..
  have hreads : Reads known m (serve (.define name id) m).machine := by
    refine h.reads (r := .define name id) (List.subset_append_left ..) hid (fun _ _ => rfl)
      (fun _ _ => rfl) fun other hother hmem => ?_
    cases hd : (perform (.define name id) m).answer with
    | error fault =>
      rw [hd] at hmem
      exact List.not_mem_nil hmem
    | ok done =>
      rw [hd] at hmem
      cases List.mem_singleton.mp hmem
      exact hunknown hother
  have hposted := h.perform hid
  cases hd : (serve (.define name id) m).answer with
  | error fault =>
    rw [Posted, ← serve_answer, hd, Event.gives_error, Event.defines_error, List.append_nil,
      List.append_nil] at hposted
    rw [Step.bind_of_error hd]
    exact ⟨.inr ⟨fault, _, rfl, hposted⟩, hreads⟩
  | ok done =>
    rw [Posted, ← serve_answer, hd] at hposted
    rw [Step.bind_of_ok hd]
    refine ⟨.inl ⟨id, rfl, ?_⟩, hreads⟩
    rw [← List.append_nil (known ++ _)]
    exact hposted

theorem enter_entered (h : m.Ledger known defs) (name : String) (cell : CellId) :
    Entered known defs name m (enter name cell m) := by
  have hreads : Reads known m (serve (.createEntry cell) m).machine :=
    h.reads (r := .createEntry cell) (List.Subset.refl _) (List.nil_subset _) (fun _ _ => rfl)
      (fun _ _ => rfl) fun _ _ => List.not_mem_nil
  have hposted := h.perform (r := .createEntry cell) (List.nil_subset _)
  rw [Posted, show (Event.served (.createEntry cell) _).defines = [] from rfl,
    List.append_nil] at hposted
  rw [enter]
  cases ha : (serve (.createEntry cell) m).answer with
  | error fault =>
    rw [← serve_answer, ha, Event.gives_error, List.append_nil] at hposted
    rw [Step.bind_of_error ha]
    exact .failed hposted hreads fault _
  | ok id =>
  rw [← serve_answer, ha] at hposted
  have hl : (serve (.createEntry cell) m).machine.Ledger (known ++ [.entry id]) defs := hposted
  rw [Step.bind_of_ok ha]
  exact (named_entered hl (h.created_unknown ha) name).later hreads _

/-- A row defines its name if it is defined at all, and whatever is known reads the same after it. -/
theorem define_entered (host : Host σ) (h : m.Ledger known defs) (name : String)
    (procedure : Procedure σ) :
    Entered known defs name m ((define name procedure).start host m) := by
  have hcells : ∀ {m : Machine σ} (r : Request σ), r.part = .cells → r.handles ⊆ known →
      m.Ledger known defs →
      (perform r m).machine.Ledger known defs ∧ Reads known m (perform r m).machine := by
    intro m r hp hr hl
    have hdefines := Event.defines_of_part (by rw [hp]; nofun) (perform r m).answer
    have hposted := hl.perform hr
    rw [Posted, Event.gives_of_part (.inl hp), hdefines, List.append_nil, List.append_nil] at hposted
    refine ⟨hposted, hl.reads (List.Subset.refl _) hr (fun v _ => ?_) (fun id _ => ?_) fun id _ => ?_⟩
    · cases r <;> first | rfl | cases hp
    · cases r <;> first | rfl | cases hp
    · rw [hdefines]
      exact List.not_mem_nil
  rw [start_define]
  obtain ⟨hl1, hreads1⟩ := hcells .newCell rfl (List.nil_subset _) h
  cases hcell : (serve (.newCell : Request σ) m).answer with
  | error fault =>
    rw [Step.bind_of_error hcell]
    exact .failed hl1 hreads1 fault _
  | ok cell =>
  rw [Step.bind_of_ok hcell, serve_machine]
  refine Entered.later (k := (perform .newCell m).machine) ?_ hreads1 _
  obtain ⟨hl2, hreads2⟩ := hcells (.bind cell procedure) rfl (List.nil_subset _) hl1
  cases hbound : (serve (.bind cell procedure) (perform .newCell m).machine).answer with
  | error fault =>
    rw [Step.bind_of_error hbound]
    exact .failed hl2 hreads2 fault _
  | ok bound =>
    rw [Step.bind_of_ok hbound, serve_machine]
    exact (enter_entered hl2 name cell).later hreads2 _

/-- Whatever becomes of a table, there is a ledger for it, and whatever was known reads the same. -/
theorem defineAll_ledger (host : Host σ) (h : m.Ledger known defs)
    (table : List (String × Procedure σ)) :
    (∃ more new, ((defineAll table).start host m).machine.Ledger (known ++ more) (defs ++ new)) ∧
    Reads known m ((defineAll table).start host m).machine := by
  induction table generalizing m known defs with
  | nil => exact ⟨⟨[], [], by rw [List.append_nil, List.append_nil]; exact h⟩, .refl known m⟩
  | cons row table ih =>
    obtain ⟨name, procedure⟩ := row
    obtain ⟨⟨id, ha, hl⟩ | ⟨fault, more, ha, hl⟩, hreads⟩ := define_entered host h name procedure
    · rw [start_defineAll_cons, Step.bind_of_ok ha]
      obtain ⟨⟨more, new, hl'⟩, hreads'⟩ := ih hl
      rw [List.append_assoc, List.append_assoc] at hl'
      exact ⟨⟨_, _, hl'⟩, hreads.trans (hreads'.mono (List.subset_append_left ..))⟩
    · rw [start_defineAll_cons, Step.bind_of_error ha]
      exact ⟨⟨more, [], by rw [List.append_nil]; exact hl⟩, hreads⟩

end

/-- All rows of a table are registered, or those before the first one that does not fit, and no search
finds what is left of that. -/
theorem register_cases (host : Host σ) (hb : m.Built) (hm : m.Moored 0)
    (hcells : m.cells.capacity + 1 < wordLimit) (hbytes : m.bytes.capacity + 1 < wordLimit)
    (table : List (String × Procedure σ)) :
    let o := (register table).start host m
    (o.answer = .ok () ∧ Took table m o.machine) ∨
    ∃ done name procedure rest fault, table = done ++ (name, procedure) :: rest ∧
      let p := (register done).start host m
      p.answer = .ok () ∧ Took done m p.machine ∧ o.answer = .error fault ∧
      Leftover name procedure p.machine fault o.machine ∧
      ∀ {known defs}, m.Ledger known defs → ∀ query,
        (Machine.search query o.machine).answer = (Machine.search query p.machine).answer := by
  simp only [register_eq_defineAll]
  rcases defineAll_cases host hb hm hcells hbytes table with hall |
    ⟨done, name, procedure, rest, fault, rfl, hp, htook, hlast, hleft, hfails, hends⟩
  · exact .inl hall
  · refine .inr ⟨done, name, procedure, rest, fault, rfl, hp, htook, hfails, ?_, ?_⟩
    · rw [hends]
      exact hleft
    · intro known defs hl query
      obtain ⟨⟨_, _, hl'⟩, -⟩ := defineAll_ledger host hl done
      rw [hends]
      refine (define_entered host hl' name procedure).search hl' hlast ?_ query
      rw [hleft.kept.1]

end Words

/-- At every moment of every run a table is registered exactly where there are cells and bytes enough
for it. Otherwise the rows before the first one that does not fit are defined, and of this row an
unnamed entry is left at most, which no search of a fresh run finds. The open words, of which none is
open twice, grow by the cells that this takes; nothing else that there is changes, and in a fresh run
nothing reads otherwise. -/
theorem Run.registers_rows {host : Host σ} {past events : List (Event σ)} {m n : Machine σ}
    {allowed : Value → Prop} (h : Run host past m) (hm : Moves allowed m events n)
    (hcells : n.cells.capacity + 1 < wordLimit) (hbytes : n.bytes.capacity + 1 < wordLimit)
    (table : List (String × Procedure σ)) :
    let o := (Words.register table).start host n
    (o.answer = .ok () ↔ table.length ≤ n.cells.capacity - n.cells.used ∧
      Words.storageOf table ≤ n.bytes.remaining) ∧
    (o.answer = .ok () → Words.Took table n o.machine) ∧
    (∀ fault, o.answer = .error fault → ∃ done name procedure rest,
      table = done ++ (name, procedure) :: rest ∧
      let p := (Words.register done).start host n
      p.answer = .ok () ∧ Words.Took done n p.machine ∧
      Words.Leftover name procedure p.machine fault o.machine ∧
      o.machine.dictionary = p.machine.dictionary ∧
      (FreshRun host past m → (∀ v, allowed v → v.handles ⊆ given past) →
        Fresh (given past) events → ∀ query,
        (Machine.search query o.machine).answer = (Machine.search query p.machine).answer)) ∧
    o.machine = { n with
      bytes := o.machine.bytes, cells := o.machine.cells, dictionary := o.machine.dictionary } ∧
    n.openWords.heads.Nodup ∧
    (∀ id c, n.cells.get id = .ok c → o.machine.cells.get id = .ok { c with
      extent := c.extent + n.openWords.heads.count id * (o.machine.cells.used - n.cells.used) }) ∧
    (FreshRun host past m → (∀ v, allowed v → v.handles ⊆ given past) →
      Fresh (given past) events → n.Reads (given (past ++ events)) o.machine) := by
  intro o
  have hb : n.Built := (h.built.1.moves hm).1
  have hmoored := h.moored hm
  have hnodup : n.openWords.heads.Nodup := hb.sound.nodup
  have hreads : FreshRun host past m → (∀ v, allowed v → v.handles ⊆ given past) →
      Fresh (given past) events → n.Reads (given (past ++ events)) o.machine := by
    intro hrun hallowed hev
    rw [(Words.register_eq_defineAll host table n).2]
    exact (Words.defineAll_ledger host (hrun.ledger_amid hallowed hev hm) table).2
  rcases Words.register_cases host hb hmoored hcells hbytes table with
    ⟨hok, htook⟩ | ⟨done, name, procedure, rest, fault, rfl, hp, htook, hfails, hleft, hsearch⟩
  · have hfits := htook.fits (hb.start host (Words.register table))
      (hmoored.start host (Words.register table))
    refine ⟨iff_of_true hok hfits, fun _ => htook, fun fault hfault => ?_, htook.frame, hnodup, ?_,
      hreads⟩
    · cases hok.symm.trans hfault
    · intro id c hc
      rw [htook.used, Nat.add_sub_cancel_left]
      exact htook.kept id c hc
  · have hnot : o.answer ≠ .ok () := fun hok => by cases hok.symm.trans hfails
    have hframe := hleft.kept.1
    refine ⟨iff_of_false hnot (hleft.scarce hb htook), fun hok => absurd hok hnot, ?_, ?_, hnodup,
      fun id c hc => hleft.grown htook hc, hreads⟩
    · intro fault' hfault'
      cases hfails.symm.trans hfault'
      exact ⟨done, name, procedure, rest, rfl, hp, htook, hleft, by rw [hframe],
        fun hrun hallowed hev => hsearch (hrun.ledger_amid hallowed hev hm)⟩
    · rw [hframe, htook.frame]

/-- Two rows, of which 42 bytes hold all but the name of the second one. -/
def Stock.twoRows : List (String × Procedure Stock.signature) :=
  [("a", .native Stock.Word.push1), ("bc", .native Stock.Word.push2)]

open Stock in
/-- A word is open, and there is no room for the second name. -/
theorem Run.registers_of_twoRows :
    let m : Machine signature := .create (.replicate 42 7) (.replicate 4 .empty) ⟨1, .strict⟩ none
    let opened := openedCell.start host m
    let n := opened.machine
    let o := (Words.register twoRows).start host n
    Run host [] m ∧ Moves (Operation.program openedCell).Gives m opened.events n ∧
    n.cells.capacity + 1 < wordLimit ∧ n.bytes.capacity + 1 < wordLimit ∧
    o.answer = .error (.byteArenaFull 3 42 42) ∧
    (∃ done name procedure rest, twoRows = done ++ (name, procedure) :: rest ∧
      let p := (Words.register done).start host n
      Words.Took done n p.machine ∧
      Words.Leftover name procedure p.machine (.byteArenaFull 3 42 42) o.machine ∧
      ∀ query, (Machine.search query o.machine).answer = (Machine.search query p.machine).answer) ∧
    o.machine.cells.get ⟨0⟩ = .ok ⟨.zero, .nil, 3⟩ ∧ n.Reads (given opened.events) o.machine := by
  intro m opened n o
  have hrun : FreshRun host [] m := .created (.replicate 42 7) (.replicate 4 .empty) ⟨1, .strict⟩ none
  have hmoves : Moves (Operation.program openedCell).Gives m opened.events n :=
    (Operation.program openedCell).moves host m
  have hfresh : Fresh (given ([] : List (Event signature))) opened.events := by decide +kernel
  have hcells : n.cells.capacity + 1 < wordLimit := by decide +kernel
  have hbytes : n.bytes.capacity + 1 < wordLimit := by decide +kernel
  have hfails : o.answer = .error (.byteArenaFull 3 42 42) := by decide +kernel
  have hhead : n.cells.get ⟨0⟩ = .ok ⟨.zero, .nil, 1⟩ := by decide +kernel
  obtain ⟨-, -, hfailed, -, -, hgrown, hreads⟩ :=
    Run.registers_rows hrun.run hmoves hcells hbytes twoRows
  rw [List.nil_append] at hreads
  obtain ⟨done, name, procedure, rest, htable, -, htook, hleft, -, hsearch⟩ := hfailed _ hfails
  have hget : o.machine.cells.get ⟨0⟩ = .ok ⟨.zero, .nil, 3⟩ := by
    refine (hgrown ⟨0⟩ _ hhead).trans ?_
    have hused : o.machine.cells.used = 3 := by decide +kernel
    have hopen : n.openWords.heads.count ⟨0⟩ = 1 := by decide +kernel
    have hold : n.cells.used = 1 := by decide +kernel
    rw [hused, hopen, hold]
  refine ⟨hrun.run, hmoves, hcells, hbytes, hfails,
    ⟨done, name, procedure, rest, htable, htook, hleft, hsearch hrun nofun hfresh⟩, hget,
    hreads hrun nofun hfresh⟩

/-- Floats in place of the first record, of which one is taken for the number of its cell, and a name
for it. -/
def Stock.misfiled (number : UInt32) : Program Stock.signature Unit := do
  let _ ← request (.boxFloat ⟨number⟩)
  let _ ← request (.boxFloat .zero)
  let _ ← request (.boxFloat .zero)
  let _ ← request (.boxFloat .zero)
  let _ ← request (.boxFloat .zero)
  request (.define "x" ⟨⟨0⟩⟩)

/-- The last of these floats is made the address of an entry that is not there yet. -/
def Stock.misled : Program Stock.signature Unit := do
  Stock.misfiled 1
  let _ ← Words.define "x" (.native Stock.Word.push2)
  request (.storeFloat (.float ⟨16⟩) ⟨45⟩)

open Stock in
/-- Where a handle from before a reset has been used, a registration can overwrite a float, and what a
row that does not fit has left can be come upon by a search. -/
theorem Run.registers_overwriting :
    let m : Machine signature := .create (.replicate 64 7) (.replicate 8 .empty) ⟨1, .strict⟩ none
    let emptied := (Machine.reset (oneEntry.start host m).machine).machine
    let n := ((misfiled 1).start host emptied).machine
    let o := (Words.register [("x", .native Word.push1)]).start host n
    let n' := (misled.start host emptied).machine
    let o' := (Words.register [("long", .native Word.push1)]).start host n'
    m.cells.capacity + 1 < wordLimit ∧ m.bytes.capacity + 1 < wordLimit ∧
    (∃ past, Run host past n) ∧ o.answer = .ok () ∧
    n.bytes.readFloat (.float ⟨16⟩) = .ok .zero ∧
    o.machine.bytes.readFloat (.float ⟨16⟩) = .ok ⟨23⟩ ∧
    (∃ past, Run host past n') ∧ o'.answer = .error (.byteArenaFull 5 64 64) ∧
    (Machine.search "x" n').answer = .error .invalidHandle ∧
    (Machine.search "x" o'.machine).answer = .error (.typeMismatch .string .nil) := by
  intro m emptied n o n' o'
  have hcreated : Run host [] m := .created (.replicate 64 7) (.replicate 8 .empty) ⟨1, .strict⟩ none
  have hemptied : Run host [] emptied := (hcreated.operated (.program oneEntry)).emptied
  exact ⟨by decide +kernel, by decide +kernel,
    ⟨_, hemptied.operated (.program (misfiled 1))⟩, by decide +kernel, by decide +kernel,
    by decide +kernel, ⟨_, hemptied.operated (.program misled)⟩, by decide +kernel,
    by decide +kernel, by decide +kernel⟩

end ThreadedCode
