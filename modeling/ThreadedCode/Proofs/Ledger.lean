import ThreadedCode.Proofs.Freshness
import ThreadedCode.Proofs.Layout
import ThreadedCode.Proofs.Records
import ThreadedCode.Proofs.Stacks

/-!
What a machine owes to its past. Every handle given out since the machine was last empty refers to an
object of its kind, and the dictionary holds the definitions made since then.
-/
namespace ThreadedCode

variable {σ : Signature} {allowed : Value → Prop}

/-- The definition that an event makes. -/
def Event.defines : Event σ → Definitions
  | .served (.define name id) (.ok _) => [(name, id)]
  | _ => []

/-- The definitions made in a past, in order. -/
def definitions (past : List (Event σ)) : Definitions := past.flatMap Event.defines

@[simp] theorem definitions_append (first rest : List (Event σ)) :
    definitions (first ++ rest) = definitions first ++ definitions rest := List.flatMap_append

@[simp] theorem definitions_logged (notices : List Notice) :
    definitions (notices.map (Event.logged (σ := σ))) = [] := by
  induction notices with
  | nil => rfl
  | cons notice rest ih => exact ih

namespace Heap

variable {heap heap' : Heap}

/-- The handle refers to an object of its kind. -/
def Refers (heap : Heap) : Handle → Prop
  | .entry id => ∃ w, heap.Places id.address (.record w)
  | .float a => ∃ x, heap.Places a (.float x)
  | .text a length => ∃ s, heap.Places a (.text s) ∧ s.toUTF8.toList.length = length

theorem Refers.evolves {h : Handle} (hr : heap.Refers h) (he : Evolves heap heap') :
    heap'.Refers h := by
  cases h with
  | entry id =>
    obtain ⟨w, hw⟩ := hr
    exact he.records _ w hw
  | float a =>
    obtain ⟨x, hx⟩ := hr
    exact he.floats _ x hx
  | text a length =>
    obtain ⟨s, hs, hlen⟩ := hr
    exact ⟨s, he.texts _ s hs, hlen⟩

theorem Sound.of_replaced {a : Address} {o : Object} (hs : heap.Sound)
    (hr : Replaced heap a o heap') (ho : ∀ w, o = .record w → w.Sound) : heap'.Sound := by
  intro b w hw
  by_cases hb : b = a
  · subst hb
    exact ho w (hr.self.unique hw)
  · exact hs b w ((hr.others b hb _).mp hw)

end Heap

namespace Record

variable {w : Record}

theorem Sound.set (h : w.Sound) {field : Entry.Field} {value : Nat} (hcell : field ≠ .cell)
    (hlt : value < wordLimit) : (w.set field value).Sound where
  cell := by
    rw [Record.set_ne w value (Ne.symm hcell)]
    exact h.cell
  bounded other := by
    unfold Record.set
    split
    · exact hlt
    · exact h.bounded other

theorem sound_unnamed {cell : CellId} (h : cell.number < wordLimit) :
    (Record.unnamed cell).Sound where
  cell := by simp [Record.unnamed, Record.set, CellId.number]
  bounded field := by
    have hzero : 0 < wordLimit := by decide
    cases field with
    | cell => exact h
    | copy => exact hzero
    | name => exact hzero
    | nameLength => exact hzero
    | next => exact hzero

end Record

open Heap Definitions

/-- The byte arena and the dictionary in order: all known handles are good, and the chains hold the
definitions. -/
structure Accounts (heap : Heap) (bytes : ByteArena) (known : List Handle) (defs : Definitions)
    (d : Dictionary) : Prop where
  stores : bytes.Stores heap
  sound : heap.Sound
  refers : ∀ h ∈ known, heap.Refers h
  filed : Filed heap defs d

/-- An object has been put where it changes no name and no link. -/
theorem Accounts.replace {heap heap' : Heap} {b b' : ByteArena} {known : List Handle}
    {defs : Definitions} {d : Dictionary} {a : Address} {o : Object} (h : Accounts heap b known defs d)
    (hs : b'.Stores heap') (hr : Replaced heap a o heap') (he : Evolves heap heap')
    (ho : ∀ w', o = .record w' → w'.Sound ∧ ((∃ w, heap.Places a (.record w) ∧ w' .name = w .name ∧
      w' .nameLength = w .nameLength ∧ w' .next = w .next) ∨
      ((∀ w, ¬ heap.Places a (.record w)) ∧ w' .name = 0 ∧ w' .next = 0))) :
    Accounts heap' b' known defs d where
  stores := hs
  sound := h.sound.of_replaced hr fun w hw => (ho w hw).1
  refers x hx := (h.refers x hx).evolves he
  filed := h.filed.of_sameNames he (.of_replaced hr fun w hw => (ho w hw).2)

/-- The newest entry of a bucket has a record. -/
theorem Accounts.newest {heap : Heap} {b : ByteArena} {known : List Handle} {defs : Definitions}
    {d : Dictionary} (h : Accounts heap b known defs d) (index : Fin Dictionary.bucketCount)
    (e : EntryId) (he : d.newest index = some e) : ∃ v, heap.Places e.address (.record v) := by
  rw [h.filed.newest] at he
  obtain ⟨n, hn, -⟩ := mem_of_last he
  obtain ⟨v, -, hv, -⟩ := h.filed.named n e hn
  exact ⟨v, hv⟩

/-- The name that a record tells is a string that is there. -/
theorem Accounts.refers_name {heap : Heap} {b : ByteArena} {known : List Handle} {defs : Definitions}
    {d : Dictionary} {id : EntryId} {w : Record} (h : Accounts heap b known defs d)
    (hw : heap.Places id.address (.record w)) : ∀ x ∈ w.entry.name.handles, heap.Refers x := by
  intro x hx
  by_cases hmem : id ∈ defs.map Prod.snd
  · obtain ⟨⟨n, id⟩, hdef, rfl⟩ := List.mem_map.mp hmem
    obtain ⟨v, address, hv, hname, hlength, ht⟩ := h.filed.named n id hdef
    cases hv.unique hw
    simp only [Record.entry, hname, Address.ofNumber?_number, Value.handles,
      List.mem_singleton] at hx
    subst hx
    exact ⟨n, ht, hlength.symm⟩
  · simp [Record.entry, (h.filed.spare _ w hw hmem).1, Address.ofNumber?, Value.handles] at hx

/-- The records after a definition: the entry has its name, and the newest entry of its bucket has
its link. -/
theorem Accounts.define {heap heap2 heap' : Heap} {b b' : ByteArena} {known : List Handle}
    {defs : Definitions} {d : Dictionary} {id : EntryId} {w : Record} {name : String}
    (h : Accounts heap b known defs d) (hw : heap.Places id.address (.record w)) (hname : w .name = 0)
    (hr : Replaced (heap ++ [.text name]) id.address (.record ((w.set .name
      (Address.mk heap.bytes.length).number).set .nameLength name.toUTF8.toList.length)) heap2)
    (hs : b'.Stores heap') (he : Evolves heap2 heap')
    (hplaces : ∀ a o, heap'.Places a o →
      (d.newest (bucket d.mode name) = some ⟨a⟩ ∧ ∃ v, heap2.Places a (.record v) ∧
        o = .record (v.set .next id.address.number)) ∨
      (d.newest (bucket d.mode name) ≠ some ⟨a⟩ ∧ heap2.Places a o))
    (hlen : name.toUTF8.toList.length < wordLimit) (hlt : heap.bytes.length + 1 < wordLimit) :
    Accounts heap' b' known (defs ++ [(name, id)]) (d.append (bucket d.mode name) id) := by
  have htext := replaced_append heap (.text name)
  have hnamed : Evolves (heap ++ [.text name]) heap2 := .of_record (hw.append _) hr
  have hall : Evolves heap heap' :=
    ((Evolves.of_fresh (not_places_end heap) htext).trans hnamed).trans he
  have hold : ∀ a v, a ≠ id.address → heap2.Places a (.record v) → heap.Places a (.record v) := by
    intro a v ha hv
    rcases ((hr.others a ha _).mp hv).of_append with hv | ⟨-, hv⟩
    · exact hv
    · cases hv
  have hsound : heap2.Sound := by
    refine Sound.of_replaced (h.sound.of_replaced htext nofun) hr fun v hv => ?_
    cases hv
    exact ((h.sound _ _ hw).set (by decide) hlt).set (by decide) hlen
  have hnumber : id.address.number < wordLimit := by
    have := hw.lt
    change id.address.offset + 1 < wordLimit
    omega
  refine ⟨hs, ?_, fun x hx => (h.refers x hx).evolves hall, ?_⟩
  · intro a v hv
    rcases hplaces a _ hv with ⟨-, u, hu, heq⟩ | ⟨-, hu⟩
    · cases heq
      exact (hsound a u hu).set (by decide) hnumber
    · exact hsound a v hu
  apply h.filed.define hw hname hall
  refine ⟨he.texts _ _ (hnamed.texts _ _ htext.self), ?_, ?_⟩
  · intro v hv
    rcases hplaces _ _ hv with ⟨hnew, -⟩ | ⟨-, hv⟩
    · rw [h.filed.newest] at hnew
      obtain ⟨n, hn, -⟩ := mem_of_last hnew
      exact absurd (List.mem_map.mpr ⟨_, hn, rfl⟩) (h.filed.not_mem_of_unnamed hw hname)
    · cases hr.self.unique hv
      exact ⟨rfl, rfl, rfl⟩
  · intro a v ha hv
    rw [← h.filed.newest]
    rcases hplaces a _ hv with ⟨hnew, u, hu, heq⟩ | ⟨hnew, hu⟩
    · cases heq
      exact ⟨u, hold a u ha hu, rfl, rfl, by rw [if_pos hnew]; rfl⟩
    · exact ⟨v, hold a v ha hu, rfl, rfl, by rw [if_neg hnew]⟩

namespace Machine

open Step

variable {m n : Machine σ} {known more : List Handle} {defs new : Definitions}

/-- What is known of a machine, given the handles that it has given out and the definitions made. -/
structure Ledger (m : Machine σ) (known : List Handle) (defs : Definitions) : Prop where
  built : m.Built
  copies : m.copies.rows.length ≤ CopyTable.capacity
  mode : m.dictionary.mode = m.settings.mode
  accounts : ∃ heap, Accounts heap m.bytes known defs m.dictionary
  payloads : ∀ v, m.Carries v → v.handles ⊆ known
  slots : ∀ slot ∈ m.stack.active, slot.value.handles ⊆ known

namespace Ledger

/-- More handles are known, all of them good. -/
theorem learn (h : m.Ledger known defs)
    (hmore : ∀ heap, Accounts heap m.bytes known defs m.dictionary → ∀ x ∈ more, heap.Refers x) :
    m.Ledger (known ++ more) defs where
  built := h.built
  copies := h.copies
  mode := h.mode
  accounts := by
    obtain ⟨heap, ho⟩ := h.accounts
    refine ⟨heap, ho.stores, ho.sound, fun x hx => ?_, ho.filed⟩
    rcases List.mem_append.mp hx with hx | hx
    · exact ho.refers x hx
    · exact hmore heap ho x hx
  payloads v hv := List.Subset.trans (h.payloads v hv) (List.subset_append_left ..)
  slots slot hs := List.Subset.trans (h.slots slot hs) (List.subset_append_left ..)

theorem learn_known (h : m.Ledger known defs) (hmore : more ⊆ known) :
    m.Ledger (known ++ more) defs :=
  h.learn fun _ ho x hx => ho.refers x (hmore hx)

/-- Only the byte arena and the dictionary have changed. -/
theorem rewrite (h : m.Ledger known defs) (more : List Handle) (new : Definitions) {b : ByteArena}
    {d : Dictionary} (hd : d.mode = m.dictionary.mode) (ho : ∃ heap, Accounts heap b (known ++ more) (defs ++ new) d) :
    Ledger { m with bytes := b, dictionary := d } (known ++ more) (defs ++ new) where
  built := (h.built.untouched (n := { m with bytes := b, dictionary := d }) rfl rfl).1
  copies := h.copies
  mode := hd.trans h.mode
  accounts := ho
  payloads v hv := List.Subset.trans (h.payloads v hv) (List.subset_append_left ..)
  slots slot hs := List.Subset.trans (h.slots slot hs) (List.subset_append_left ..)

/-- Only the stack has changed, and nothing unknown lies on it. -/
theorem restack (h : m.Ledger known defs) {s : Stack}
    (hs : ∀ slot ∈ s.active, slot ∈ m.stack.active ∨ slot.value.handles ⊆ known) :
    Ledger { m with stack := s } known defs where
  built := (h.built.untouched (n := { m with stack := s }) rfl rfl).1
  copies := h.copies
  mode := h.mode
  accounts := h.accounts
  payloads := h.payloads
  slots slot hslot := (hs slot hslot).elim (h.slots slot) id

/-- Only the cells have changed, and no payload is unknown. -/
theorem recell (h : m.Ledger known defs) (hf : Part.cells.Frames m n) (hb : n.Built)
    (hp : ∀ v, n.Carries v → v.handles ⊆ known) : n.Ledger known defs := by
  obtain ⟨c, rfl⟩ := hf
  exact ⟨hb, h.copies, h.mode, h.accounts, hp, h.slots⟩

end Ledger
end Machine
end ThreadedCode
