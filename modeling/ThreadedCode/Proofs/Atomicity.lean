import ThreadedCode.Proofs.Lookups

/-!
A request is served whole or not at all. Whatever can refuse it is looked at before its first write,
so that a fault leaves the machine as it was. Only a definition relies on more than the layout: its
own record, and the one of the newest entry in its bucket, have to lie in the bytes handed out.
-/
namespace ThreadedCode

variable {σ : Signature} {α β : Type}

namespace Step

/-- On this machine the step cannot fail. -/
def Sure (s : Step σ α) (m : Machine σ) : Prop := ∃ a, (s m).answer = .ok a

/-- On this machine the step fails exactly when the check does, with the same fault, and then it
changes nothing. -/
structure Checked (check : Except Fault Unit) (s : Step σ α) (m : Machine σ) : Prop where
  refused : ∀ fault, check = .error fault → (s m).answer = .error fault ∧ (s m).machine = m
  granted : check = .ok () → s.Sure m

variable {m : Machine σ}

theorem checked_refused {s : Step σ α} {fault : Fault} (ha : (s m).answer = .error fault)
    (hm : (s m).machine = m) : s.Checked (.error fault) m where
  refused := by
    rintro _ ⟨⟩
    exact ⟨ha, hm⟩
  granted := nofun

theorem checked_granted {s : Step σ α} (h : s.Sure m) : s.Checked (.ok ()) m :=
  ⟨nofun, fun _ => h⟩

theorem Checked.fault {check : Except Fault Unit} {s : Step σ α} (h : s.Checked check m)
    {fault : Fault} (hf : (s m).answer = .error fault) : check = .error fault ∧ (s m).machine = m := by
  cases hc : check with
  | ok _ =>
    obtain ⟨a, ha⟩ := h.granted hc
    rw [ha] at hf
    cases hf
  | error other =>
    obtain ⟨ha, hm⟩ := h.refused other hc
    rw [ha] at hf
    cases hf
    exact ⟨rfl, hm⟩

theorem sure_bind {s : Step σ α} {next : α → Step σ β} {a : α} (hs : (s m).answer = .ok a)
    (hn : (next a).Sure (s m).machine) : (s >>= next).Sure m := by
  obtain ⟨b, hb⟩ := hn
  exact ⟨b, by rw [bind_of_ok hs]; exact hb⟩

theorem sure_bind_of_eq {s : Step σ α} {next : α → Step σ β} {a : α} {n : Machine σ}
    {events : List (Event σ)} (hs : s m = ⟨.ok a, n, events⟩) (hn : (next a).Sure n) :
    (s >>= next).Sure m :=
  sure_bind (by rw [hs]) (by rw [hs]; exact hn)

theorem sure_lift_bind {a : α} {next : α → Step σ β} (hn : (next a).Sure m) :
    (liftM (.ok a : Except Fault α) >>= next).Sure m := hn

theorem checked_get_bind {check : Except Fault Unit} {next : Machine σ → Step σ α}
    (h : (next m).Checked check m) : (get >>= next).Checked check m :=
  ⟨h.refused, h.granted⟩

/-- Checks follow one another as the steps do that make them. -/
theorem checked_lift_bind {answer : Except Fault α} {rest : α → Except Fault Unit}
    {next : α → Step σ β} (h : ∀ a, answer = .ok a → (next a).Checked (rest a) m) :
    (liftM answer >>= next).Checked (answer >>= rest) m := by
  cases answer with
  | error fault => exact checked_refused rfl rfl
  | ok a => exact h a rfl

end Step

namespace ByteArena

/-- A range of the bytes handed out can be written. -/
theorem write_of_le {a : ByteArena} {start : Nat} {data : List UInt8}
    (h : start + data.length ≤ a.used) (hs : a.used < sizeLimit) :
    a.write start data = .ok { a with buffer := overwrite a.buffer start data } :=
  if_pos (covers_iff.mpr ⟨h, by omega⟩)

/-- Whether a string can be boxed. -/
def checkText (a : ByteArena) (text : String) : Except Fault Unit := do
  let length := text.toUTF8.toList.length
  unless length < wordLimit do
    throw (a.full length)
  let _ ← a.allocate (length + 1)

/-- Whether an entry can get this name. -/
def checkName (a : ByteArena) (name : String) (id : EntryId) : Except Fault Unit := do
  unless (← Entry.read a id).name.isNil do
    throw .alreadyDefined
  a.checkText name

/-- The record of an entry lies within the bytes handed out. -/
def Lodges (a : ByteArena) (id : EntryId) : Prop := id.address.offset + Entry.size ≤ a.used

theorem Lodges.mono {a b : ByteArena} {id : EntryId} (h : a.Lodges id) (hle : a.used ≤ b.used) :
    b.Lodges id :=
  Nat.le_trans h hle

end ByteArena

namespace Machine

open Step

variable {m : Machine σ}

/-- The records that a request writes lie within the bytes handed out. -/
def Lodges (m : Machine σ) : Request σ → Prop
  | .define name id => m.bytes.Lodges id ∧
    ∀ e, m.dictionary.newest (Definitions.bucket m.dictionary.mode name) = some e → m.bytes.Lodges e
  | _ => True

/-- Whatever is asked of the byte arena, it either refuses, and nothing changes, or hands out the
next bytes. -/
theorem allocate_checks (size : Nat) (m : Machine σ) :
    (∃ fault, m.bytes.allocate size = .error fault ∧ (allocate size m).answer = .error fault ∧
      (allocate size m).machine = m) ∨
    ∃ b, m.bytes.allocate size = .ok (⟨m.bytes.used⟩, b) ∧
      (allocate size m).answer = .ok ⟨m.bytes.used⟩ ∧
      (allocate size m).machine = { m with bytes := b } ∧ m.bytes.Grown b size ∧
      b.used < sizeLimit := by
  obtain ⟨events, hwarn⟩ := warnUnlessRoom_apply size m
  simp only [allocate, bind_apply, hwarn, Outcome.bind_ok, get_apply, Outcome.after_nil, lift_apply]
  cases ha : m.bytes.allocate size with
  | error fault => exact .inl ⟨fault, rfl, rfl, rfl⟩
  | ok handed =>
    obtain ⟨address, b⟩ := handed
    obtain ⟨hg, rfl, rfl⟩ := ByteArena.allocate_eq_ok ha
    exact .inr ⟨_, rfl, rfl, rfl, ⟨rfl, rfl⟩, (ByteArena.hasRoom_iff.mp hg.1).2⟩

theorem write_of_le {address : Address} {data : List UInt8}
    (h : address.offset + data.length ≤ m.bytes.used) (hs : m.bytes.used < sizeLimit) :
    ∃ b, write address data m = ⟨.ok (), { m with bytes := b }, []⟩ ∧ m.bytes.Grown b 0 := by
  have hw := ByteArena.write_of_le h hs
  exact ⟨_, write_of_ok hw, ByteArena.grown_write hw⟩

theorem writeField_of_lodges {id : EntryId} (h : m.bytes.Lodges id) (hs : m.bytes.used < sizeLimit)
    (field : Entry.Field) (value : Nat) :
    ∃ b, writeField id field value m = ⟨.ok (), { m with bytes := b }, []⟩ ∧ m.bytes.Grown b 0 := by
  have hle : id.address.offset + field.place + (Word.encode value).length ≤ m.bytes.used := by
    have hplace : field.place + Word.size ≤ Entry.size := by cases field <;> decide
    rw [Word.length_encode]
    unfold ByteArena.Lodges at h
    omega
  have hw : Entry.writeField m.bytes id field value = .ok _ := ByteArena.write_of_le hle hs
  exact ⟨_, by simp only [writeField, bind_apply, get_apply, Outcome.bind_ok, Outcome.after_nil,
    lift_apply, hw, modify_apply], ByteArena.grown_write hw⟩

/-- A string is boxed if it passes the check, and then so many bytes more have been handed out. -/
theorem boxText_checks (text : String) (m : Machine σ) :
    (∃ fault, m.bytes.checkText text = .error fault ∧ (boxText text m).answer = .error fault ∧
      (boxText text m).machine = m) ∨
    ∃ address length b, m.bytes.checkText text = .ok () ∧
      (boxText text m).answer = .ok (.string address length) ∧
      (boxText text m).machine = { m with bytes := b } ∧ m.bytes.used ≤ b.used ∧
      b.used < sizeLimit := by
  by_cases hlen : text.toUTF8.toList.length < wordLimit
  · simp only [boxText, ByteArena.checkText, hlen, if_true]
    rcases allocate_checks (text.toUTF8.toList.length + 1) m with
      ⟨fault, hc, ha, hm⟩ | ⟨b, hc, ha, hm, hgrown, hs⟩
    · refine .inl ⟨fault, by rw [hc]; rfl, ?_⟩
      rw [bind_of_error ha]
      exact ⟨rfl, hm⟩
    · have hle : (Address.mk m.bytes.used).offset + text.toUTF8.toList.length ≤ b.used := by
        rw [hgrown.used]
        exact Nat.add_le_add_left (Nat.le_succ _) _
      obtain ⟨c, hw, hgrown'⟩ := write_of_le (m := { m with bytes := b }) hle hs
      refine .inr ⟨⟨m.bytes.used⟩, text.toUTF8.toList.length, c, by rw [hc]; rfl, ?_⟩
      rw [bind_of_ok ha, hm, bind_of_ok (by rw [hw]), hw]
      have hused : c.used = b.used := hgrown'.used
      have hmore := hgrown.used
      exact ⟨rfl, rfl, by omega, by omega⟩
  · refine .inl ⟨m.bytes.full text.toUTF8.toList.length, ?_⟩
    simp only [boxText, ByteArena.checkText, hlen, if_false]
    exact ⟨rfl, rfl, rfl⟩

theorem createEntry_checked (cell : CellId) : (createEntry cell).Checked
    (m.cells.get cell >>= fun _ => m.bytes.allocate Entry.size >>= fun _ => pure ()) m := by
  refine checked_get_bind (checked_lift_bind fun _ _ => ?_)
  rcases allocate_checks Entry.size m with ⟨fault, hc, ha, hm⟩ | ⟨b, hc, ha, hm, hgrown, hs⟩
  · rw [hc]
    refine checked_refused ?_ ?_ <;> rw [bind_of_error ha]
    exact hm
  · rw [hc]
    refine checked_granted (sure_bind ha ?_)
    rw [hm]
    have hl : b.Lodges ⟨⟨m.bytes.used⟩⟩ := Nat.le_of_eq hgrown.used.symm
    obtain ⟨c, hw, hgrown'⟩ := writeField_of_lodges (m := { m with bytes := b }) hl hs .cell cell.number
    refine sure_bind_of_eq hw ?_
    have hused : c.used = b.used := hgrown'.used
    obtain ⟨d, hw', -⟩ := writeField_of_lodges (m := { m with bytes := c })
      (hl.mono (Nat.le_of_eq hused.symm)) (Nat.lt_of_le_of_lt (Nat.le_of_eq hused) hs)
      .copy CopyTable.link.number
    exact sure_bind_of_eq hw' ⟨_, rfl⟩

/-- Once a string has been boxed, the records that a definition writes can be written. -/
theorem define_checked {name : String} {id : EntryId} (hl : m.Lodges (.define name id)) :
    (define name id).Checked (m.bytes.checkName name id) m := by
  obtain ⟨hid, hnewest⟩ := hl
  rw [define, entry, bind_assoc]
  refine checked_get_bind (checked_lift_bind fun record _ => ?_)
  cases record.name.isNil with
  | false => exact checked_refused rfl rfl
  | true =>
    refine checked_get_bind ?_
    change Checked (m.bytes.checkText name) _ m
    rcases boxText_checks name m with
      ⟨fault, hc, ha, hm⟩ | ⟨address, length, b, hc, ha, hm, hle, hs⟩
    · rw [hc]
      refine checked_refused ?_ ?_ <;> rw [bind_of_error ha]
      exact hm
    · rw [hc]
      refine checked_granted (sure_bind ha ?_)
      -- The string is boxed already, so nothing that follows may fail.
      have hlodged : ∀ c : ByteArena, c.used = b.used → ∀ e, m.bytes.Lodges e →
          ∀ field value, ∃ d : ByteArena, writeField e field value { m with bytes := c } =
            ⟨.ok (), { m with bytes := d }, []⟩ ∧ d.used = b.used := by
        intro c hc e he field value
        obtain ⟨d, hw, hgrown⟩ := writeField_of_lodges (m := { m with bytes := c })
          (he.mono (Nat.le_trans hle (Nat.le_of_eq hc.symm))) (by rw [hc]; exact hs) field value
        exact ⟨d, hw, hgrown.used.trans hc⟩
      obtain ⟨c, hw, hc⟩ := hlodged b rfl id hid .name address.number
      obtain ⟨d, hw', hd⟩ := hlodged c hc id hid .nameLength length
      rw [hm]
      refine sure_lift_bind (a := (address, length)) ?_
      refine sure_bind_of_eq hw (sure_bind_of_eq hw' (sure_bind (a := { m with bytes := d }) rfl ?_))
      rw [get_apply]
      unfold Definitions.bucket at hnewest
      cases hn : m.dictionary.newest (Dictionary.bucketOf m.dictionary.mode name.toUTF8.toList) with
      | none => exact ⟨_, rfl⟩
      | some e =>
        obtain ⟨f, hlink, -⟩ := hlodged d hd e (hnewest e hn) .next id.address.number
        exact sure_bind_of_eq hlink ⟨_, rfl⟩

end Machine

/-- The ledger holds in the middle of an operation as well. -/
theorem FreshRun.ledger_amid {host : Host σ} {past events : List (Event σ)} {m n : Machine σ}
    {allowed : Value → Prop} (h : FreshRun host past m)
    (hallowed : ∀ v, allowed v → v.handles ⊆ given past) (hev : Fresh (given past) events)
    (hm : Moves allowed m events n) :
    n.Ledger (given (past ++ events)) (definitions (past ++ events)) := by
  refine hm.preserve_fresh (I := fun past m => m.Ledger (given past) (definitions past))
    ?_ past hallowed h.ledger.1 hev
  intro past m events n hallowed hl hev hmove
  rw [given_append, definitions_append]
  exact (hl.move hallowed hev hmove).1

/-- An entry without a name. -/
def Stock.oneEntry : Program Stock.signature Unit := do
  let cell ← request .newCell
  let _ ← request (.createEntry cell)

end ThreadedCode
