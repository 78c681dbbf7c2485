import ThreadedCode.Proofs.Boxes
import ThreadedCode.Proofs.Compiling
import ThreadedCode.Proofs.Revisions

/-!
Room. Where the arenas have enough left, storage is handed out; and the entries that are there already
stay as they are.
-/
namespace ThreadedCode

variable {σ : Signature}

open Heap

namespace Machine

variable {m n : Machine σ} {size count taken : Nat} {heap : Heap}

/-- So many bytes and cells are left, and all of them have handles. -/
structure Room (m : Machine σ) (size count : Nat) : Prop where
  bytes : m.bytes.used + size ≤ m.bytes.capacity
  addresses : m.bytes.used + size < wordLimit
  cells : m.cells.used + count ≤ m.cells.capacity
  ids : m.cells.used + count < wordLimit

namespace Room

theorem gives (h : m.Room size count) (hpos : 0 < taken) (hle : taken ≤ size) :
    m.bytes.Gives taken := by
  have hbytes := h.bytes
  have haddresses := h.addresses
  have hlimits : wordLimit < sizeLimit := by decide
  exact ⟨ByteArena.hasRoom_iff.mpr ⟨by omega, by omega⟩, by omega⟩

/-- Bytes have been taken, and cells at most rewired. -/
theorem take (h : m.Room (taken + size) count) (hb : m.bytes.Grown n.bytes taken)
    (hu : n.cells.used = m.cells.used) (hc : n.cells.capacity = m.cells.capacity) :
    n.Room size count where
  bytes := by
    have := h.bytes
    rw [hb.used, hb.capacity]
    omega
  addresses := by
    have := h.addresses
    rw [hb.used]
    omega
  cells := by
    rw [hu, hc]
    exact h.cells
  ids := by
    rw [hu]
    exact h.ids

/-- Nothing has been taken. -/
theorem keep (h : m.Room size count) (hb : n.bytes = m.bytes) (hu : n.cells.used = m.cells.used)
    (hc : n.cells.capacity = m.cells.capacity) : n.Room size count := by
  rw [← Nat.zero_add size] at h
  exact h.take ⟨by rw [hb]; rfl, by rw [hb]⟩ hu hc

theorem extended (h : m.Room size (count + 1)) : m.extended.Room size count where
  bytes := h.bytes
  addresses := h.addresses
  cells := by
    have := h.cells
    simp only [Machine.extended, CellArena.capacity, CellArena.grown, Array.size_mapIdx] at this ⊢
    omega
  ids := by
    have := h.ids
    simp only [Machine.extended]
    omega

/-- The next cell is handed out, blank. -/
theorem newCell (h : m.Room size (count + 1)) (hb : m.Built) :
    (perform .newCell m).answer = .ok ⟨m.cells.used⟩ ∧
    (perform .newCell m).machine = m.extended ∧
    m.extended.cells.get ⟨m.cells.used⟩ = .ok .empty := by
  have hcells := h.cells
  have hids := h.ids
  have hroom : m.cells.hasRoom ∧ m.cells.used + 1 < wordLimit :=
    ⟨decide_eq_true (by omega : m.cells.used < m.cells.capacity), by omega⟩
  have hnew := newCell_of_room hb.sound.allocated hroom
  have hfresh := (newCell_of_ok hb (by rw [hnew])).2.2
  refine ⟨?_, ?_, hfresh⟩
  · change (Machine.newCell m).answer = _
    rw [hnew]
  · change (Machine.newCell m).machine = _
    rw [hnew]
    rfl

theorem boxFloat (h : m.Room (Word.size + size) count) (hs : m.bytes.Stores heap) (x : Single) :
    ∃ b, (perform (.boxFloat x) m).answer = .ok (.float ⟨heap.bytes.length⟩) ∧
      (perform (.boxFloat x) m).machine = { m with bytes := b } ∧ b.Stores (heap ++ [.float x]) ∧
      Room { m with bytes := b } size count := by
  rcases boxFloat_cases hs x with ⟨fault, -, -, hfull⟩ | ⟨b, ha, hm, hs', hgrown⟩
  · exact absurd (h.gives (by decide) (Nat.le_add_right ..)) hfull
  · exact ⟨b, ha, hm, hs', h.take hgrown rfl rfl⟩

end Room

end Machine

namespace Machine

variable {m n : Machine σ} {known : List Handle} {defs : Definitions} {heap : Heap} {id : EntryId}

namespace Ledger

/-- An entry goes on to tell the same cell, and the same strategy until another one is set. -/
theorem entry_kept (h : m.Ledger known defs) (hid : .entry id ∈ known) {r : Request σ}
    (hr : r.handles ⊆ known) (hcopy : ∀ copy, r ≠ .setEntryCopy id copy) {e : Entry}
    (he : (Machine.entry id m).answer = .ok e) :
    ∃ e', (Machine.entry id (ThreadedCode.perform r m).machine).answer = .ok e' ∧ e'.cell = e.cell ∧
      e'.copy = e.copy := by
  obtain ⟨w, hread, hfiles, -⟩ := h.read_entry hid
  rw [hread] at he
  cases he
  obtain ⟨v, hread', hfiles', -⟩ := (h.perform hr).read_entry (List.mem_append_left _ hid)
  obtain rfl := hfiles'.unique (h.revises hid hr hfiles)
  refine ⟨_, by rw [hread'], ?_, ?_⟩
  · exact congrArg (fun number => CellId.mk (number - 1)) (Event.revised_cell _)
  · refine congrArg CopyId.mk ((Event.revised_copy _).trans ?_)
    rw [Event.sets_other hcopy]
    rfl

end Ledger

/-- What is known reads the same. -/
structure Reads (known : List Handle) (m n : Machine σ) : Prop where
  entry : ∀ id, .entry id ∈ known → (Machine.entry id n).answer = (Machine.entry id m).answer
  name : ∀ id, .entry id ∈ known → (Machine.entryName id n).answer = (Machine.entryName id m).answer
  float : ∀ v : Value, v.handles ⊆ known → n.bytes.readFloat v = m.bytes.readFloat v
  text : ∀ v : Value, v.handles ⊆ known → n.bytes.readText v = m.bytes.readText v

namespace Reads

variable {k : Machine σ}

theorem refl (known : List Handle) (m : Machine σ) : Reads known m m :=
  ⟨fun _ _ => rfl, fun _ _ => rfl, fun _ _ => rfl, fun _ _ => rfl⟩

theorem mono (h : Reads known m n) {kept : List Handle} (hkept : kept ⊆ known) : Reads kept m n where
  entry id hid := h.entry id (hkept hid)
  name id hid := h.name id (hkept hid)
  float v hv := h.float v (List.Subset.trans hv hkept)
  text v hv := h.text v (List.Subset.trans hv hkept)

theorem trans (h : Reads known m k) (h' : Reads known k n) : Reads known m n where
  entry id hid := (h'.entry id hid).trans (h.entry id hid)
  name id hid := (h'.name id hid).trans (h.name id hid)
  float v hv := (h'.float v hv).trans (h.float v hv)
  text v hv := (h'.text v hv).trans (h.text v hv)

end Reads

/-- A string goes on to read as it is, and no other value has ever read as one. -/
theorem readText_kept {heap' : Heap} (hs : m.bytes.Stores heap) (hs' : n.bytes.Stores heap')
    (he : Evolves heap heap') {v : Value} (hv : ∀ x ∈ v.handles, heap.Refers x) :
    n.bytes.readText v = m.bytes.readText v := by
  cases v with
  | string a length =>
    obtain ⟨s, hplaced, rfl⟩ := hv _ (List.mem_singleton_self _)
    obtain ⟨-, -, hread, -⟩ := hs.shows hplaced
    obtain ⟨-, -, hread', -⟩ := hs'.shows (he.texts _ _ hplaced)
    exact hread'.trans hread.symm
  | _ => rfl

/-- What an event neither writes nor sets nor defines reads the same after it. -/
theorem Ledger.reads (h : m.Ledger known defs) {kept : List Handle} (hkept : kept ⊆ known)
    {r : Request σ} (hr : r.handles ⊆ known)
    (hwrites : ∀ v : Value, v.handles ⊆ kept →
      (Event.served r (ThreadedCode.perform r m).answer).writes v = none)
    (hsets : ∀ id, .entry id ∈ kept →
      (Event.served r (ThreadedCode.perform r m).answer).sets id = none)
    (hdefines : ∀ id, .entry id ∈ kept →
      id ∉ (Event.served r (ThreadedCode.perform r m).answer).defines.map Prod.snd) :
    Reads kept m (ThreadedCode.perform r m).machine := by
  obtain ⟨heap, ho⟩ := h.accounts
  obtain ⟨heap', hs', hev⟩ := serves_request ho hr
  have hentry : ∀ id, .entry id ∈ kept → ∃ w w' : Record,
      Machine.entry id m = ⟨.ok w.entry, m, []⟩ ∧
      Machine.entry id (ThreadedCode.perform r m).machine =
        ⟨.ok w'.entry, (ThreadedCode.perform r m).machine, []⟩ ∧
      w'.entry = w.entry ∧ heap.Places id.address (.record w) := by
    intro id hid
    obtain ⟨w, hread, hfiles, -⟩ := h.read_entry (hkept hid)
    obtain ⟨w', hread', hfiles', -⟩ := (h.perform hr).read_entry (List.mem_append_left _ (hkept hid))
    obtain rfl := hfiles'.unique (h.revises (hkept hid) hr hfiles)
    obtain ⟨v, hv⟩ := ho.refers _ (hkept hid)
    obtain rfl := hfiles.unique (ho.stores.files hv (ho.sound _ _ hv))
    exact ⟨w, _, hread, hread', Event.revised_entry (hsets id hid) (hdefines id hid), hv⟩
  constructor
  · intro id hid
    obtain ⟨w, w', hread, hread', hsame, -⟩ := hentry id hid
    rw [hread, hread', hsame]
  · intro id hid
    obtain ⟨w, w', hread, hread', hsame, hw⟩ := hentry id hid
    rw [entryName, Step.bind_of_ok (by rw [hread']), hread', Step.bind_of_ok (by rw [hread]), hread,
      hsame]
    exact readText_kept ho.stores hs' hev.evolves (ho.refers_name hw)
  · intro v hv
    cases v with
    | float a =>
      obtain ⟨x, hx⟩ := ho.refers _ (hkept (hv (List.mem_singleton_self _)))
      rw [ho.stores.readFloat hx, hs'.readFloat (hev.kept a x (hwrites _ hv) hx)]
    | _ => rfl
  · exact fun v hv => readText_kept ho.stores hs' hev.evolves fun x hx => ho.refers x (hkept (hv hx))

namespace Room

variable {size count : Nat}

/-- A new entry is handed out. It links to its cell and has no name. -/
theorem createEntry (h : m.Room (Entry.size + size) count) (hl : m.Ledger known defs) {cell : CellId}
    {c : Cell σ} (hg : m.cells.get cell = .ok c) :
    ∃ id b, (perform (.createEntry cell) m).answer = .ok id ∧
      (perform (.createEntry cell) m).machine = { m with bytes := b } ∧
      Room { m with bytes := b } size count ∧
      (Machine.entry id { m with bytes := b }).answer = .ok ⟨cell, CopyTable.link, .nil⟩ := by
  obtain ⟨heap, ho⟩ := hl.accounts
  rcases createEntry_cases ho.stores cell with
    ⟨_, -, -, hfull⟩ | ⟨b, heap', ha, hm, hs, hr, hgrown, hlt⟩
  · exact absurd ⟨⟨c, hg⟩, h.gives (by decide) (Nat.le_add_right ..)⟩ hfull
  · have hnumber : cell.number < wordLimit := by
      have := hl.built.numbered
      change cell.index + 1 < wordLimit
      omega
    refine ⟨_, b, ha, hm, h.take hgrown rfl rfl, ?_⟩
    have hentry : Machine.entry ⟨⟨heap.bytes.length⟩⟩ { m with bytes := b } = _ :=
      entry_of_record hs hr.self (Record.sound_unnamed hnumber)
    rw [hentry]
    rfl

/-- An entry without a name gets one. -/
theorem define {name : String} (h : m.Room (name.toUTF8.toList.length + 1 + size) count)
    (hl : m.Ledger known defs) (hid : .entry id ∈ known) {e : Entry}
    (he : (Machine.entry id m).answer = .ok e) (hname : e.name = .nil) :
    (perform (.define name id) m).answer = .ok () ∧
      (perform (.define name id) m).machine.Room size count := by
  obtain ⟨heap, ho⟩ := hl.accounts
  obtain ⟨w, hw⟩ := ho.refers _ hid
  have hsound := ho.sound _ _ hw
  rw [entry_of_record ho.stores hw hsound] at he
  cases he
  have haddresses := h.addresses
  rcases define_cases ho.stores hw hsound name (ho.newest _) with ⟨_, -, -, hfull⟩ |
    ⟨b, heap2, heap', -, ha, hm, -, -, -, -, -, -, hgrown⟩
  · refine absurd ⟨(isNil_name w).mp (by rw [hname]; rfl), by omega, ?_⟩ hfull
    exact h.gives (by omega) (Nat.le_add_right ..)
  · refine ⟨ha, ?_⟩
    change (Machine.define name id m).machine.Room size count
    rw [hm]
    exact h.take hgrown rfl rfl

end Room
end Machine
end ThreadedCode
