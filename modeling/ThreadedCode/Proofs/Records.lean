import ThreadedCode.Proofs.Filing
import ThreadedCode.Proofs.Steps

/-!
What the steps on the byte arena do to the objects that it stores. Each of them either fails and
changes nothing, or does the whole of what it is for.
-/
namespace ThreadedCode

/-- The record of a new entry. -/
def Record.unnamed (cell : CellId) : Record :=
  Record.set (Record.set (fun _ => 0) .cell cell.number) .copy CopyTable.link.number

namespace Machine

open Step Heap

variable {σ : Signature} {m : Machine σ} {heap : Heap} {data : List UInt8} {id : EntryId} {w : Record}

theorem warnUnlessRoom_apply (size : Nat) (m : Machine σ) :
    ∃ events, warnUnlessRoom size m = ⟨.ok (), m, events⟩ := by
  simp only [warnUnlessRoom, bind_apply, get_apply, Outcome.bind_ok, Outcome.after_nil]
  split
  · exact ⟨_, rfl⟩
  · exact ⟨_, rfl⟩

theorem allocate_cases (h : m.bytes.Holds data) (size : Nat) :
    (¬ m.bytes.Gives size ∧ ∃ fault events, allocate size m = ⟨.error fault, m, events⟩) ∨
    ∃ b events, allocate size m = ⟨.ok ⟨data.length⟩, { m with bytes := b }, events⟩ ∧
      b.Holds (data ++ List.replicate size 0) ∧ m.bytes.Grown b size ∧
      data.length + 1 < wordLimit := by
  obtain ⟨events, hwarn⟩ := warnUnlessRoom_apply size m
  simp only [allocate, bind_apply, hwarn, Outcome.bind_ok, get_apply, Outcome.after_nil, lift_apply]
  by_cases hroom : m.bytes.Gives size
  · obtain ⟨b, hb, hheld, hgrown⟩ := h.allocate hroom
    refine .inr ⟨b, events, ?_, hheld, hgrown, by rw [← h.used]; exact hroom.2⟩
    rw [hb]
    exact Outcome.ext rfl rfl (List.append_nil events)
  · refine .inl ⟨hroom, m.bytes.full size, events, ?_⟩
    rw [ByteArena.allocate_error hroom]
    exact Outcome.ext rfl rfl (List.append_nil events)

theorem allocateCopy_cases (h : m.bytes.Holds data) (new : List UInt8) :
    (¬ m.bytes.Gives new.length ∧ ∃ fault events, allocateCopy new m = ⟨.error fault, m, events⟩) ∨
    ∃ b events, allocateCopy new m = ⟨.ok ⟨data.length⟩, { m with bytes := b }, events⟩ ∧
      b.Holds (data ++ new) ∧ m.bytes.Grown b new.length ∧ data.length + 1 < wordLimit := by
  obtain ⟨events, hwarn⟩ := warnUnlessRoom_apply new.length m
  simp only [allocateCopy, bind_apply, hwarn, Outcome.bind_ok, get_apply, Outcome.after_nil]
  rcases h.allocateCopy new with ⟨hfull, fault, hfail⟩ | ⟨b, hb, hheld, hgrown, hlt⟩
  · refine .inl ⟨hfull, fault, events, ?_⟩
    rw [hfail]
    exact Outcome.ext rfl rfl (List.append_nil events)
  · refine .inr ⟨b, events, ?_, hheld, hgrown, hlt⟩
    rw [hb]
    exact Outcome.ext rfl rfl (List.append_nil events)

theorem write_of_ok {address : Address} {b : ByteArena}
    (h : m.bytes.write address.offset data = .ok b) :
    write address data m = ⟨.ok (), { m with bytes := b }, []⟩ := by
  simp only [write, bind_apply, get_apply, Outcome.bind_ok, Outcome.after_nil, lift_apply, h,
    modify_apply]

/-- A new float comes to lie at the end of the heap. -/
theorem boxFloat_cases (hs : m.bytes.Stores heap) (x : Single) :
    (∃ fault, (boxFloat x m).answer = .error fault ∧ (boxFloat x m).machine = m ∧
      ¬ m.bytes.Gives Word.size) ∨
    ∃ b, (boxFloat x m).answer = .ok (.float ⟨heap.bytes.length⟩) ∧
      (boxFloat x m).machine = { m with bytes := b } ∧ b.Stores (heap ++ [.float x]) ∧
      m.bytes.Grown b Word.size := by
  rcases allocateCopy_cases hs x.encode with
    ⟨hfull, fault, events, hfail⟩ | ⟨b, events, hok, hheld, hgrown, -⟩
  · refine .inl ⟨fault, ?_⟩
    rw [boxFloat, bind_of_error (by rw [hfail]), hfail]
    exact ⟨rfl, rfl, hfull⟩
  · refine .inr ⟨b, ?_⟩
    rw [boxFloat, bind_of_ok (by rw [hok]), hok]
    exact ⟨rfl, rfl, by simpa [ByteArena.Stores, Object.bytes] using hheld, hgrown⟩

/-- A string is put behind everything else, with a zero byte behind it. -/
theorem boxText_held (h : m.bytes.Holds data) (s : String) :
    (∃ fault, (boxText s m).answer = .error fault ∧ (boxText s m).machine = m ∧
      ¬ (s.toUTF8.toList.length < wordLimit ∧ m.bytes.Gives (s.toUTF8.toList.length + 1))) ∨
    ∃ b, (boxText s m).answer = .ok (.string ⟨data.length⟩ s.toUTF8.toList.length) ∧
      (boxText s m).machine = { m with bytes := b } ∧ b.Holds (data ++ (Object.text s).bytes) ∧
      m.bytes.Grown b (s.toUTF8.toList.length + 1) ∧
      s.toUTF8.toList.length < wordLimit ∧ data.length + 1 < wordLimit := by
  by_cases hlen : s.toUTF8.toList.length < wordLimit
  · rcases allocate_cases h (s.toUTF8.toList.length + 1) with
      ⟨hfull, fault, events, hfail⟩ | ⟨b, events, hok, hheld, hgrown, hlt⟩
    · refine .inl ⟨fault, ?_⟩
      simp only [boxText, hlen, if_true]
      rw [bind_of_error (by rw [hfail]), hfail]
      exact ⟨rfl, rfl, fun h => hfull h.2⟩
    · have hzeros : b.Holds (data ++ List.replicate s.toUTF8.toList.length 0 ++ [0]) := by
        rw [List.append_assoc, ← List.replicate_succ']
        exact hheld
      have hlength : s.toUTF8.toList.length =
          (List.replicate s.toUTF8.toList.length (0 : UInt8)).length := List.length_replicate.symm
      obtain ⟨c, hc, hnew, -⟩ := hzeros.write hlength
      have hwrite : write ⟨data.length⟩ s.toUTF8.toList { m with bytes := b } =
          ⟨.ok (), { m with bytes := c }, []⟩ := write_of_ok (m := { m with bytes := b }) hc
      refine .inr ⟨c, ?_⟩
      simp only [boxText, hlen, if_true]
      rw [bind_of_ok (by rw [hok]), hok, bind_of_ok (by rw [hwrite]), hwrite]
      exact ⟨rfl, rfl, by simpa [Object.bytes] using hnew,
        hgrown.trans (ByteArena.grown_write hc), trivial, hlt⟩
  · refine .inl ⟨m.bytes.full s.toUTF8.toList.length, ?_⟩
    simp only [boxText, hlen, if_false]
    exact ⟨rfl, rfl, fun h => h.1⟩

/-- A new string comes to lie at the end of the heap. -/
theorem boxText_cases (hs : m.bytes.Stores heap) (s : String) :
    (∃ fault, (boxText s m).answer = .error fault ∧ (boxText s m).machine = m ∧
      ¬ (s.toUTF8.toList.length < wordLimit ∧ m.bytes.Gives (s.toUTF8.toList.length + 1))) ∨
    ∃ b, (boxText s m).answer = .ok (.string ⟨heap.bytes.length⟩ s.toUTF8.toList.length) ∧
      (boxText s m).machine = { m with bytes := b } ∧ b.Stores (heap ++ [.text s]) ∧
      m.bytes.Grown b (s.toUTF8.toList.length + 1) ∧
      s.toUTF8.toList.length < wordLimit ∧ heap.bytes.length + 1 < wordLimit := by
  refine (boxText_held hs s).imp_right fun ⟨b, ha, hm, hheld, hrest⟩ => ⟨b, ha, hm, ?_, hrest⟩
  simpa [ByteArena.Stores] using hheld

theorem writeField_of_record (id : EntryId) (hs : m.bytes.Stores heap)
    (hp : heap.Places id.address (.record w)) (field : Entry.Field) (value : Nat) :
    ∃ b heap', writeField id field value m =
      ⟨.ok (), { m with bytes := b }, []⟩ ∧ b.Stores heap' ∧
      Replaced heap id.address (.record (w.set field value)) heap' ∧ m.bytes.Grown b 0 := by
  obtain ⟨b, heap', hb, hs', hr⟩ := hs.writeField hp field value
  exact ⟨b, heap', by simp [writeField, bind_apply, hb], hs', hr, ByteArena.grown_write hb⟩

theorem writeField_of_held (id : EntryId) {pre post : List UInt8}
    (h : m.bytes.Holds (pre ++ (Object.record w).bytes ++ post)) (hid : id.address.offset = pre.length)
    (field : Entry.Field) (value : Nat) : ∃ b, writeField id field value m =
      ⟨.ok (), { m with bytes := b }, []⟩ ∧
      b.Holds (pre ++ (Object.record (w.set field value)).bytes ++ post) ∧ m.bytes.Grown b 0 := by
  obtain ⟨b, hb, hheld⟩ := h.writeField hid field value
  exact ⟨b, by simp [writeField, bind_apply, hb], hheld, ByteArena.grown_write hb⟩

/-- A new record is put behind everything else. It has no name and no successor. -/
theorem createEntry_held (h : m.bytes.Holds data) (cell : CellId) :
    (∃ fault, (createEntry cell m).answer = .error fault ∧ (createEntry cell m).machine = m ∧
      ¬ ((∃ c, m.cells.get cell = .ok c) ∧ m.bytes.Gives Entry.size)) ∨
    ∃ b, (createEntry cell m).answer = .ok ⟨⟨data.length⟩⟩ ∧
      (createEntry cell m).machine = { m with bytes := b } ∧
      b.Holds (data ++ (Object.record (.unnamed cell)).bytes) ∧
      m.bytes.Grown b Entry.size ∧ cell.index < m.cells.used := by
  simp only [createEntry, bind_apply, get_apply, Outcome.bind_ok, Outcome.after_nil, lift_apply]
  cases hcell : m.cells.get cell with
  | error fault => exact .inl ⟨fault, rfl, rfl, nofun⟩
  | ok c =>
    have hused : cell.index < m.cells.used := by
      unfold CellArena.get at hcell
      split at hcell
      · assumption
      · cases hcell
    simp only [Outcome.bind_ok, Outcome.after_nil]
    rcases allocate_cases h Entry.size with
      ⟨hfull, fault, events, hfail⟩ | ⟨b, events, hok, hheld, hgrown, -⟩
    · refine .inl ⟨fault, ?_⟩
      rw [bind_of_error (by rw [hfail]), hfail]
      exact ⟨rfl, rfl, fun h => hfull h.2⟩
    · have hzeros : b.Holds (data ++ (Object.record fun _ => 0).bytes ++ []) := by
        rw [List.append_nil]
        exact hheld
      obtain ⟨c, hc, hheld', hgrown'⟩ := writeField_of_held ⟨⟨data.length⟩⟩
        (m := { m with bytes := b }) hzeros rfl .cell cell.number
      obtain ⟨e, he, hheld'', hgrown''⟩ := writeField_of_held ⟨⟨data.length⟩⟩
        (m := { m with bytes := c }) hheld' rfl .copy CopyTable.link.number
      refine .inr ⟨e, ?_⟩
      rw [bind_of_ok (by rw [hok]), hok, bind_of_ok (by rw [hc]), hc, bind_of_ok (by rw [he]), he]
      rw [List.append_nil] at hheld''
      exact ⟨rfl, rfl, hheld'', (hgrown.trans hgrown').trans hgrown'', hused⟩

/-- A new record comes to lie at the end of the heap. -/
theorem createEntry_cases (hs : m.bytes.Stores heap) (cell : CellId) :
    (∃ fault, (createEntry cell m).answer = .error fault ∧ (createEntry cell m).machine = m ∧
      ¬ ((∃ c, m.cells.get cell = .ok c) ∧ m.bytes.Gives Entry.size)) ∨
    ∃ b heap', (createEntry cell m).answer = .ok ⟨⟨heap.bytes.length⟩⟩ ∧
      (createEntry cell m).machine = { m with bytes := b } ∧ b.Stores heap' ∧
      Replaced heap ⟨heap.bytes.length⟩ (.record (.unnamed cell)) heap' ∧
      m.bytes.Grown b Entry.size ∧ cell.index < m.cells.used := by
  refine (createEntry_held hs cell).imp_right fun ⟨b, ha, hm, hheld, hrest⟩ =>
    ⟨b, heap ++ [.record (.unnamed cell)], ha, hm, ?_, replaced_append heap _, hrest⟩
  simpa [ByteArena.Stores] using hheld

theorem setEntryCopy_cases (hs : m.bytes.Stores heap) (hp : heap.Places id.address (.record w))
    (copy : CopyId) :
    (∃ fault, (setEntryCopy id copy m).answer = .error fault ∧ (setEntryCopy id copy m).machine = m) ∨
    ∃ b heap', (setEntryCopy id copy m).answer = .ok () ∧
      (setEntryCopy id copy m).machine = { m with bytes := b } ∧ b.Stores heap' ∧
      Replaced heap id.address (.record (w.set .copy copy.number)) heap' ∧
      copy.number < m.copies.rows.length := by
  simp only [setEntryCopy, bind_apply, get_apply, Outcome.bind_ok, Outcome.after_nil, lift_apply]
  cases hrow : m.copies.get copy with
  | error fault => exact .inl ⟨fault, rfl, rfl⟩
  | ok row =>
    obtain ⟨b, heap', hb, hs', hr, -⟩ := writeField_of_record _ hs hp .copy copy.number
    refine .inr ⟨b, heap', ?_⟩
    rw [Outcome.bind_ok, Outcome.after_nil, hb]
    refine ⟨rfl, rfl, hs', hr, ?_⟩
    unfold CopyTable.get at hrow
    split at hrow
    · rename_i hsome
      exact (List.getElem?_eq_some_iff.mp hsome).1
    · cases hrow

theorem storeFloat_cases (hs : m.bytes.Stores heap) {value : Value}
    (hv : ∀ a, value = .float a → ∃ y, heap.Places a (.float y)) (x : Single) :
    (∃ fault, (storeFloat value x m).answer = .error fault ∧ (storeFloat value x m).machine = m) ∨
    ∃ a y b heap', value = .float a ∧ heap.Places a (.float y) ∧
      (storeFloat value x m).answer = .ok () ∧ (storeFloat value x m).machine = { m with bytes := b } ∧
      b.Stores heap' ∧ Replaced heap a (.float x) heap' := by
  simp only [storeFloat, bind_apply, get_apply, Outcome.bind_ok, Outcome.after_nil, lift_apply]
  cases value with
  | float a =>
    obtain ⟨y, hy⟩ := hv a rfl
    obtain ⟨b, heap', hb, hs', hr, -⟩ := hs.storeFloat hy x
    refine .inr ⟨a, y, b, heap', rfl, hy, ?_⟩
    rw [hb]
    exact ⟨rfl, rfl, hs', hr⟩
  | nil => exact .inl ⟨_, rfl, rfl⟩
  | string a length => exact .inl ⟨_, rfl, rfl⟩
  | cell c => exact .inl ⟨_, rfl, rfl⟩

theorem entry_of_record (hs : m.bytes.Stores heap) (hp : heap.Places id.address (.record w))
    (hw : w.Sound) : entry id m = ⟨.ok w.entry, m, []⟩ := by
  simp [entry, bind_apply, hs.readEntry hp hw]

/-- Whether an entry has a name is told by its record. -/
theorem isNil_name (w : Record) : w.entry.name.isNil = true ↔ w .name = 0 := by
  simp only [Record.entry]
  cases w .name with
  | zero => simp [Address.ofNumber?, Value.isNil]
  | succ k => simp [Address.ofNumber?, Value.isNil]

/-- The record of a name's newest entry gets its link, if there is one. -/
theorem link_newest (hs : m.bytes.Stores heap) (newest : Option EntryId) (number : Nat)
    (hn : ∀ e, newest = some e → ∃ v, heap.Places e.address (.record v)) :
    ∃ b heap', (∀ e, newest = some e →
        writeField e .next number m = ⟨.ok (), { m with bytes := b }, []⟩) ∧
      (newest = none → b = m.bytes) ∧ b.Stores heap' ∧ m.bytes.Grown b 0 ∧
      Evolves heap heap' ∧ ∀ a o, heap'.Places a o → (newest = some ⟨a⟩ ∧ ∃ v,
        heap.Places a (.record v) ∧ o = .record (v.set .next number)) ∨
        (newest ≠ some ⟨a⟩ ∧ heap.Places a o) := by
  cases newest with
  | none =>
    exact ⟨m.bytes, heap, nofun, fun _ => rfl, hs, ⟨rfl, rfl⟩, .refl heap,
      fun a o h => .inr ⟨nofun, h⟩⟩
  | some e =>
    obtain ⟨v, hv⟩ := hn e rfl
    obtain ⟨b, heap', hb, hs', hr, hgrown⟩ := writeField_of_record _ hs hv .next number
    refine ⟨b, heap', ?_, nofun, hs', hgrown, .of_record hv hr, fun a o h => ?_⟩
    · rintro _ ⟨⟩
      exact hb
    by_cases ha : a = e.address
    · subst ha
      exact .inl ⟨rfl, v, hv, (hr.self.unique h).symm⟩
    · refine .inr ⟨?_, (hr.others a ha o).mp h⟩
      rintro he
      cases he
      exact ha rfl

/-- A definition fails and changes nothing, or names an entry that had no name, links it to the
newest entry of its bucket and makes it the newest one. -/
theorem define_cases (hs : m.bytes.Stores heap) (hp : heap.Places id.address (.record w))
    (hw : w.Sound) (name : String)
    (hnewest : ∀ e, m.dictionary.newest (Definitions.bucket m.dictionary.mode name) = some e →
      ∃ v, heap.Places e.address (.record v)) :
    (∃ fault, (define name id m).answer = .error fault ∧ (define name id m).machine = m ∧
      ¬ (w .name = 0 ∧ name.toUTF8.toList.length < wordLimit ∧
        m.bytes.Gives (name.toUTF8.toList.length + 1))) ∨
    ∃ b heap2 heap', w .name = 0 ∧ (define name id m).answer = .ok () ∧
      (define name id m).machine = { m with
        bytes := b
        dictionary := m.dictionary.append (Definitions.bucket m.dictionary.mode name) id } ∧
      Replaced (heap ++ [.text name]) id.address (.record ((w.set .name
        (Address.mk heap.bytes.length).number).set .nameLength name.toUTF8.toList.length)) heap2 ∧
      b.Stores heap' ∧ Evolves heap2 heap' ∧
      (∀ a o, heap'.Places a o →
        (m.dictionary.newest (Definitions.bucket m.dictionary.mode name) = some ⟨a⟩ ∧ ∃ v,
          heap2.Places a (.record v) ∧ o = .record (v.set .next id.address.number)) ∨
        (m.dictionary.newest (Definitions.bucket m.dictionary.mode name) ≠ some ⟨a⟩ ∧
          heap2.Places a o)) ∧
      name.toUTF8.toList.length < wordLimit ∧ heap.bytes.length + 1 < wordLimit ∧
      m.bytes.Grown b (name.toUTF8.toList.length + 1) := by
  have hentry := entry_of_record hs hp hw
  rw [define, bind_of_ok (by rw [hentry]), hentry]
  by_cases hname : w .name = 0
  · rw [if_pos ((isNil_name w).mpr hname)]
    simp only [bind_apply, get_apply, Outcome.bind_ok, Outcome.after_nil]
    rcases boxText_cases hs name with ⟨fault, ha, hm, hfull⟩ | ⟨b, ha, hm, hs1, hgrown, hlen, hlt⟩
    · refine .inl ⟨fault, ?_⟩
      rw [← bind_apply, bind_of_error ha, hm]
      exact ⟨rfl, rfl, fun h => hfull h.2⟩
    · obtain ⟨b1, heap2, hb1, hs2, hr1, hgrown1⟩ := writeField_of_record _ (m := { m with bytes := b }) hs1
        (hp.append [.text name]) .name (Address.mk heap.bytes.length).number
      obtain ⟨b2, heap3, hb2, hs3, hr2, hgrown2⟩ := writeField_of_record _ (m := { m with bytes := b1 }) hs2
        hr1.self .nameLength name.toUTF8.toList.length
      have he : Evolves heap heap3 := (Evolves.of_fresh (not_places_end heap)
        (replaced_append heap (.text name))).trans (.of_record (hp.append _) (hr1.trans hr2))
      obtain ⟨b3, heap4, hsome, hnone, hs4, hgrown3, he4, hplaces⟩ :=
        link_newest (m := { m with bytes := b2 }) hs3
        (m.dictionary.newest (Definitions.bucket m.dictionary.mode name)) id.address.number
        fun e hnew => by
          obtain ⟨v, hv⟩ := hnewest e hnew
          exact he.records _ v hv
      refine .inr ⟨b3, heap3, heap4, hname, ?_⟩
      rw [← bind_apply, bind_of_ok ha, hm]
      simp only [Value.asString, bind_apply, lift_apply, Outcome.bind_ok, Outcome.after_nil, hb1, hb2,
        Outcome.after_answer, Outcome.after_machine, get_apply]
      refine ⟨?_, ?_, hr1.trans hr2, hs4, he4, hplaces, hlen, hlt,
        ((hgrown.trans hgrown1).trans hgrown2).trans hgrown3⟩
      · cases hn : m.dictionary.newest (Dictionary.bucketOf m.dictionary.mode name.toUTF8.toList) with
        | none => rfl
        | some e => simp only [bind_apply, hsome e hn, Outcome.bind_ok, modify_apply, Outcome.after_nil,
            log_answer]
      · cases hn : m.dictionary.newest (Dictionary.bucketOf m.dictionary.mode name.toUTF8.toList) with
        | none =>
          obtain rfl : b3 = b2 := hnone hn
          rfl
        | some e =>
          simp only [bind_apply, hsome e hn, Outcome.bind_ok, modify_apply, Outcome.after_nil,
            log_machine]
          rfl
  · refine .inl ⟨.alreadyDefined, ?_⟩
    rw [if_neg (fun h => hname ((isNil_name w).mp h))]
    exact ⟨rfl, rfl, fun h => hname h.1⟩

end Machine
end ThreadedCode
