import ThreadedCode.Proofs.Lookups

/-!
What each request does to the records of entries. A record that a request is not about stays as it is,
but for one link in the chains of the dictionary.
-/
namespace ThreadedCode

variable {σ : Signature}

/-- The record of an entry as its fields are read back. -/
def ByteArena.Files (b : ByteArena) (id : EntryId) (w : Record) : Prop :=
  ∀ field, Entry.readField b id field = .ok (w field)

theorem ByteArena.Files.unique {b : ByteArena} {id : EntryId} {w w' : Record} (h : b.Files id w)
    (h' : b.Files id w') : w = w' :=
  funext fun field => Except.ok.inj ((h field).symm.trans (h' field))

namespace Event

/-- The strategy that an event sets for an entry. -/
def sets (id : EntryId) : Event σ → Option CopyId
  | .served (.setEntryCopy entry copy) (.ok _) => if entry = id then some copy else none
  | _ => none

/-- What an event makes of the record of an entry: it sets its strategy or its name, or puts another
entry behind it, if it was the newest one of the bucket. -/
def revised (m : Machine σ) (id : EntryId) (w : Record) : Event σ → Record
  | .served (.setEntryCopy entry copy) (.ok _) => if entry = id then w.set .copy copy.number else w
  | .served (.define name entry) (.ok _) =>
    if entry = id then
      (w.set .name (Address.mk m.bytes.used).number).set .nameLength name.toUTF8.toList.length
    else if m.dictionary.newest (Definitions.bucket m.dictionary.mode name) = some id then
      w.set .next entry.address.number
    else w
  | _ => w

variable {m : Machine σ} {id : EntryId} {w : Record}

theorem sets_other {r : Request σ} (h : ∀ copy, r ≠ .setEntryCopy id copy)
    (answer : Except Fault r.Answer) : (served r answer).sets id = none := by
  unfold sets
  split
  · rename_i entry copy _ he
    obtain ⟨rfl, -⟩ := Event.served.inj he
    exact if_neg fun heq => h copy (by rw [heq])
  · rfl

theorem revised_error (r : Request σ) (fault : Fault) :
    (served r (.error fault)).revised m id w = w := by
  cases r <;> rfl

/-- Only the two requests that write to records revise any. -/
theorem revised_other {r : Request σ} (hcopy : ∀ entry copy, r ≠ .setEntryCopy entry copy)
    (hdefine : ∀ name entry, r ≠ .define name entry) (answer : Except Fault r.Answer) :
    (served r answer).revised m id w = w := by
  cases r with
  | setEntryCopy entry copy => exact absurd rfl (hcopy entry copy)
  | define name entry => exact absurd rfl (hdefine name entry)
  | _ => rfl

theorem revised_cell (event : Event σ) : event.revised m id w .cell = w .cell := by
  unfold revised
  split
  · split <;> rfl
  · split
    · rfl
    · split <;> rfl
  · rfl

theorem revised_copy (event : Event σ) :
    event.revised m id w .copy = ((event.sets id).map CopyId.number).getD (w .copy) := by
  unfold revised
  split
  · rw [sets]
    split <;> rfl
  · split
    · rfl
    · split <;> rfl
  · rename_i hcopy _
    unfold sets
    split
    · exact absurd rfl (hcopy _ _ _)
    · rfl

/-- What is neither set nor defined tells the same, wherever its link leads. -/
theorem revised_entry {event : Event σ} (hsets : event.sets id = none)
    (hdefines : id ∉ event.defines.map Prod.snd) : (event.revised m id w).entry = w.entry := by
  unfold revised
  split
  · rename_i entry copy _
    rw [sets] at hsets
    split at hsets
    · cases hsets
    · rename_i hne
      rw [if_neg hne]
  · rw [if_neg fun he => hdefines (by simp [defines, he])]
    split <;> rfl
  · rfl

theorem revised_nameLength {event : Event σ} (h : id ∉ event.defines.map Prod.snd) :
    event.revised m id w .nameLength = w .nameLength := by
  unfold revised
  split
  · split <;> rfl
  · rw [if_neg fun he => h (by simp [defines, he])]
    split <;> rfl
  · rfl

end Event

open Heap Definitions

theorem EntryId.address_ne {id other : EntryId} (h : other ≠ id) : id.address ≠ other.address := by
  intro ha
  cases other
  cases id
  exact h (congrArg EntryId.mk ha.symm)

theorem ByteArena.Stores.files {b : ByteArena} {heap : Heap} {id : EntryId} {w : Record}
    (h : b.Stores heap) (hw : heap.Places id.address (.record w)) (hsound : w.Sound) : b.Files id w :=
  fun field => h.readField hw field (hsound.bounded field)

/-- The twenty bytes of a record. -/
theorem ByteArena.Stores.readRecord {b : ByteArena} {heap : Heap} {id : EntryId} {w : Record}
    (h : b.Stores heap) (hw : heap.Places id.address (.record w)) :
    b.read id.address.offset Entry.size = .ok (Object.record w).bytes :=
  (h.piece (.record w) hw [] [] (List.append_nil _).symm (List.append_nil _).symm rfl).1

namespace Machine.Ledger

variable {m : Machine σ} {known : List Handle} {defs : Definitions} {id other : EntryId} {heap : Heap}
  {w : Record}

/-- A known entry has a record, from which it is read. -/
theorem read_entry (h : m.Ledger known defs) (hid : .entry id ∈ known) :
    ∃ w : Record, Machine.entry id m = ⟨.ok w.entry, m, []⟩ ∧ m.bytes.Files id w ∧ w .cell ≠ 0 ∧
      m.bytes.read id.address.offset Entry.size = .ok (Object.record w).bytes := by
  obtain ⟨heap, ho⟩ := h.accounts
  obtain ⟨w, hw⟩ := ho.refers _ hid
  have hsound := ho.sound _ _ hw
  exact ⟨w, entry_of_record ho.stores hw hsound, ho.stores.files hw hsound, hsound.cell,
    ho.stores.readRecord hw⟩

/-- A new entry has not been known. -/
theorem created_unknown (h : m.Ledger known defs) {cell : CellId}
    (ha : (Machine.createEntry cell m).answer = .ok id) : .entry id ∉ known := by
  obtain ⟨heap, ho⟩ := h.accounts
  rcases createEntry_cases ho.stores cell with ⟨fault, hfault, -, -⟩ | ⟨b, heap', hok, -⟩
  · exact absurd (ha.symm.trans hfault) nofun
  · cases ha.symm.trans hok
    intro hknown
    obtain ⟨w, hw⟩ := ho.refers _ hknown
    exact not_places_end heap _ hw

theorem revises_setEntryCopy (h : m.Ledger known defs) (ho : Accounts heap m.bytes known defs m.dictionary)
    (hw : heap.Places id.address (.record w)) (hother : .entry other ∈ known) (copy : CopyId) :
    (Machine.setEntryCopy other copy m).machine.bytes.Files id
      ((Event.served (.setEntryCopy other copy) (Machine.setEntryCopy other copy m).answer).revised m
        id w) := by
  have hsound := ho.sound _ _ hw
  obtain ⟨u, hu⟩ := ho.refers _ hother
  rcases setEntryCopy_cases ho.stores hu copy with ⟨fault, ha, hm⟩ | ⟨b, heap', ha, hm, hs, hr, hlt⟩
  · rw [ha, hm, Event.revised_error]
    exact ho.stores.files hw hsound
  · rw [ha, hm]
    by_cases he : other = id
    · subst he
      obtain rfl : u = w := Object.record.inj (hu.unique hw)
      rw [Event.revised, if_pos rfl]
      have hcopies := h.copies
      have hcapacity : CopyTable.capacity < wordLimit := by decide
      exact hs.files hr.self (hsound.set (by decide) (by omega))
    · rw [Event.revised, if_neg he]
      exact hs.files ((hr.others _ (EntryId.address_ne he) _).mpr hw) hsound

theorem revises_define (ho : Accounts heap m.bytes known defs m.dictionary)
    (hw : heap.Places id.address (.record w)) (hother : .entry other ∈ known) (name : String) :
    (Machine.define name other m).machine.bytes.Files id
      ((Event.served (.define name other) (Machine.define name other m).answer).revised m id w) := by
  have hsound := ho.sound _ _ hw
  obtain ⟨u, hu⟩ := ho.refers _ hother
  rcases define_cases ho.stores hu (ho.sound _ _ hu) name (ho.newest _) with ⟨fault, ha, hm, -⟩ |
    ⟨b, heap2, heap', hname, ha, hm, hr, hs, he, hplaces, hlen, hlt, -⟩
  · rw [ha, hm, Event.revised_error]
    exact ho.stores.files hw hsound
  rw [ha, hm, Event.revised, ho.stores.used]
  by_cases hsame : other = id
  · subst hsame
    obtain rfl : u = w := Object.record.inj (hu.unique hw)
    -- It had no name, so it was in no bucket.
    have hnewest : m.dictionary.newest (bucket m.dictionary.mode name) ≠ some other := by
      intro hnew
      rw [ho.filed.newest] at hnew
      obtain ⟨n, hn, -⟩ := mem_of_last hnew
      exact ho.filed.not_mem_of_unnamed hu hname (List.mem_map.mpr ⟨_, hn, rfl⟩)
    obtain ⟨v, hv⟩ := he.records _ _ hr.self
    rcases hplaces _ _ hv with ⟨hnew, -⟩ | ⟨-, hkept⟩
    · exact absurd hnew hnewest
    · cases hkept.unique hr.self
      rw [if_pos rfl]
      exact hs.files hv ((hsound.set (by decide) hlt).set (by decide) hlen)
  · have hw2 : heap2.Places id.address (.record w) :=
      (hr.others _ (EntryId.address_ne hsame) _).mpr (hw.append _)
    rw [if_neg hsame]
    obtain ⟨v, hv⟩ := he.records _ _ hw2
    rcases hplaces _ _ hv with ⟨hnew, t, ht, heq⟩ | ⟨hnew, hkept⟩
    · cases ht.unique hw2
      cases heq
      have hnumber : other.address.number < wordLimit := by
        have := hu.lt
        change other.address.offset + 1 < wordLimit
        omega
      rw [if_pos hnew]
      exact hs.files hv (hsound.set (by decide) hnumber)
    · cases hkept.unique hw2
      rw [if_neg hnew]
      exact hs.files hv hsound

/-- The other requests that use known handles write elsewhere. -/
theorem files_kept (ho : Accounts heap m.bytes known defs m.dictionary)
    (hw : heap.Places id.address (.record w)) {r : Request σ} (hr : r.handles ⊆ known)
    (hcopy : ∀ entry copy, r ≠ .setEntryCopy entry copy)
    (hdefine : ∀ name entry, r ≠ .define name entry) :
    (ThreadedCode.perform r m).machine.bytes.Files id w := by
  have hsound := ho.sound _ _ hw
  have hstill : ∀ {n : Machine σ}, n.bytes = m.bytes → n.bytes.Files id w := by
    intro n hn
    rw [hn]
    exact ho.stores.files hw hsound
  have helsewhere : ∀ {n : Machine σ} {b : ByteArena} {a : Address} {o : Object} {heap' : Heap},
      n = { m with bytes := b } → b.Stores heap' → Replaced heap a o heap' → id.address ≠ a →
      n.bytes.Files id w := by
    rintro n b a o heap' rfl hs hrep ha
    exact hs.files ((hrep.others _ ha _).mpr hw) hsound
  have hend : id.address ≠ ⟨heap.bytes.length⟩ := fun ha => not_places_end heap _ (ha ▸ hw)
  have hquiet : r.part ≠ .bytes → r.part ≠ .names →
      (ThreadedCode.perform r m).machine.bytes.Files id w := fun hb hn => hstill ((perform_kept r m).bytes hb hn)
  cases r with
  | boxFloat x =>
    rcases boxFloat_cases ho.stores x with ⟨_, -, hm, -⟩ | ⟨b, -, hm, hs, -⟩
    · exact hstill (congrArg Machine.bytes hm)
    · exact helsewhere hm hs (replaced_append heap _) hend
  | boxText s =>
    rcases boxText_cases ho.stores s with ⟨_, -, hm, -⟩ | ⟨b, -, hm, hs, -⟩
    · exact hstill (congrArg Machine.bytes hm)
    · exact helsewhere hm hs (replaced_append heap _) hend
  | storeFloat value x =>
    have hfloat : ∀ a, value = .float a → ∃ y, heap.Places a (.float y) := by
      rintro a rfl
      exact ho.refers _ (hr (List.mem_singleton_self _))
    rcases storeFloat_cases ho.stores hfloat x with
      ⟨_, -, hm⟩ | ⟨a, y, b, heap', -, hy, -, hm, hs, hrep⟩
    · exact hstill (congrArg Machine.bytes hm)
    · exact helsewhere hm hs hrep fun ha => nomatch (ha ▸ hw).unique hy
  | createEntry cell =>
    rcases createEntry_cases ho.stores cell with ⟨_, -, hm, -⟩ | ⟨b, heap', -, hm, hs, hrep, -⟩
    · exact hstill (congrArg Machine.bytes hm)
    · exact helsewhere hm hs hrep hend
  | setEntryCopy entry copy => exact absurd rfl (hcopy entry copy)
  | define name entry => exact absurd rfl (hdefine name entry)
  | _ => exact hquiet nofun nofun

/-- Every request that uses known handles only revises the record of a known entry as its event
tells. -/
theorem revises (h : m.Ledger known defs) (hid : .entry id ∈ known) {r : Request σ}
    (hr : r.handles ⊆ known) (hw : m.bytes.Files id w) :
    (ThreadedCode.perform r m).machine.bytes.Files id
      ((Event.served r (ThreadedCode.perform r m).answer).revised m id w) := by
  obtain ⟨heap, ho⟩ := h.accounts
  obtain ⟨v, hv⟩ := ho.refers _ hid
  obtain rfl := hw.unique (ho.stores.files hv (ho.sound _ _ hv))
  have hother : (∀ entry copy, r ≠ .setEntryCopy entry copy) → (∀ name entry, r ≠ .define name entry) →
      (ThreadedCode.perform r m).machine.bytes.Files id
        ((Event.served r (ThreadedCode.perform r m).answer).revised m id w) := by
    intro hcopy hdefine
    rw [Event.revised_other hcopy hdefine]
    exact files_kept ho hv hr hcopy hdefine
  cases r with
  | setEntryCopy entry copy => exact h.revises_setEntryCopy ho hv (hr (List.mem_singleton_self _)) copy
  | define name entry => exact revises_define ho hv (hr (List.mem_singleton_self _)) name
  | _ => exact hother nofun nofun

end Machine.Ledger
end ThreadedCode
