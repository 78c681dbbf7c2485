import ThreadedCode.Proofs.Lookups

/-!
Boxed values. In a fresh run a string goes on to read as it was made and a float as it was last
written, whatever else is done to the byte arena that they share with the dictionary's records.
-/
namespace ThreadedCode

variable {σ : Signature}

/-- The float that an event writes to a value. -/
def Event.writes (v : Value) : Event σ → Option Single
  | .served (.boxFloat x) (.ok boxed) => if boxed = v then some x else none
  | .served (.storeFloat stored x) (.ok _) => if stored = v then some x else none
  | _ => none

/-- The float that a past has last written to a value. -/
def lastWritten (past : List (Event σ)) (v : Value) : Option Single :=
  past.reverse.findSome? (Event.writes v)

theorem lastWritten_append (first rest : List (Event σ)) (v : Value) :
    lastWritten (first ++ rest) v = (lastWritten rest v).or (lastWritten first v) := by
  simp [lastWritten, List.findSome?_append]

theorem lastWritten_logged (notices : List Notice) (v : Value) :
    lastWritten (notices.map (Event.logged (σ := σ))) v = none := by
  simp [lastWritten, Event.writes]

theorem lastWritten_single (event : Event σ) (v : Value) : lastWritten [event] v = event.writes v := by
  simp only [lastWritten, List.reverse_singleton, List.findSome?_cons, List.findSome?_nil]
  cases event.writes v <;> rfl

theorem Event.writes_error (r : Request σ) (fault : Fault) (v : Value) :
    (served r (.error fault)).writes v = none := by
  cases r <;> rfl

/-- The past tells what string a value stands for: it has been boxed as that one, or it is the name
of an entry that has been defined by it. -/
def Tells (past : List (Event σ)) (v : Value) (s : String) : Prop :=
  .served (.boxText s) (.ok v) ∈ past ∨
  ∃ id e, .served (.entry id) (.ok e) ∈ past ∧ e.name = v ∧ v ≠ .nil ∧ (s, id) ∈ definitions past

theorem Tells.append {past : List (Event σ)} {v : Value} {s : String} (h : Tells past v s)
    (events : List (Event σ)) : Tells (past ++ events) v s := by
  rcases h with h | ⟨id, e, he, hv, hne, hd⟩
  · exact .inl (List.mem_append_left _ h)
  · refine .inr ⟨id, e, List.mem_append_left _ he, hv, hne, ?_⟩
    rw [definitions_append]
    exact List.mem_append_left _ hd

theorem gives_subset {past : List (Event σ)} {event : Event σ} (h : event ∈ past) :
    event.gives ⊆ given past := by
  intro x hx
  exact List.mem_flatMap.mpr ⟨event, h, hx⟩

/-- What an event writes to is used by its request, or given out by it. -/
theorem Event.writes_known {r : Request σ} {answer : Except Fault r.Answer} {v : Value} {x : Single}
    (h : (served r answer).writes v = some x) :
    v.handles ⊆ r.handles ∨ v.handles ⊆ (served r answer).gives := by
  cases answer with
  | error fault =>
    rw [writes_error] at h
    cases h
  | ok answer =>
    cases r with
    | boxFloat y =>
      simp only [writes] at h
      split at h
      · rename_i hbox
        rw [← hbox]
        exact .inr (List.Subset.refl _)
      · cases h
    | storeFloat stored y =>
      simp only [writes] at h
      split at h
      · rename_i hstored
        rw [← hstored]
        exact .inl (List.Subset.refl _)
      · cases h
    | _ => cases h

theorem Value.mem_handles_text {v : Value} {a : Address} {length : Nat} :
    .text a length ∈ v.handles ↔ v = .string a length := by
  cases v <;> simp [handles, eq_comm]

theorem Value.mem_handles_float {v : Value} {a : Address} :
    .float a ∈ v.handles ↔ v = .float a := by
  cases v <;> simp [handles, eq_comm]

namespace ByteArena

variable {b : ByteArena} {heap : Heap} {address : Address} {v : Value} {s : String} {x : Single}

/-- The value reads as this string, and a zero byte follows it. -/
def Shows (b : ByteArena) (v : Value) (s : String) : Prop :=
  ∃ address, v = .string address s.toUTF8.toList.length ∧ b.readText v = .ok s ∧
    b.read (address.offset + s.toUTF8.toList.length) 1 = .ok [0]

/-- The bytes of a string decode to it again. -/
theorem fromUTF8?_toList (s : String) : String.fromUTF8? ⟨s.toUTF8.toList.toArray⟩ = some s := by
  have hlist : s.toUTF8.toList = s.toUTF8.data.toList := toList_loop s.toUTF8 0 []
  have hbytes : (⟨s.toUTF8.toList.toArray⟩ : ByteArray) = s.toUTF8 := by
    rw [hlist, Array.toArray_toList]
  have hvalid : s.toUTF8.IsValidUTF8 := s.isValidUTF8
  rw [hbytes, String.fromUTF8?, dif_pos hvalid]
  rfl

theorem Stores.shows (h : b.Stores heap) (hp : heap.Places address (.text s)) :
    b.Shows (.string address s.toUTF8.toList.length) s := by
  have hbytes : (Object.text s).bytes = s.toUTF8.toList ++ [0] ++ [] := (List.append_nil _).symm
  refine ⟨address, rfl, ?_, (h.piece (.text s) hp s.toUTF8.toList [] hbytes hbytes rfl).1⟩
  simp only [readText, Value.asString, bind, Except.bind, h.readBytes hp, fromUTF8?_toList]
  rfl

/-- What a known handle reads as is what lies there. -/
theorem Shows.places (hv : b.Shows v s) (h : b.Stores heap)
    (hr : ∀ handle ∈ v.handles, heap.Refers handle) :
    ∃ address, v = .string address s.toUTF8.toList.length ∧ heap.Places address (.text s) := by
  obtain ⟨address, rfl, hread, -⟩ := hv
  obtain ⟨t, ht, hlen⟩ := hr _ (List.mem_singleton_self _)
  obtain ⟨-, -, hread', -⟩ := h.shows ht
  rw [hlen, hread] at hread'
  cases hread'
  exact ⟨address, rfl, ht⟩

theorem readFloat_places (hv : b.readFloat v = .ok x) (h : b.Stores heap)
    (hr : ∀ handle ∈ v.handles, heap.Refers handle) :
    ∃ address, v = .float address ∧ heap.Places address (.float x) := by
  cases v with
  | float address =>
    obtain ⟨y, hy⟩ := hr _ (List.mem_singleton_self _)
    rw [h.readFloat hy] at hv
    cases hv
    exact ⟨address, rfl, hy⟩
  | nil => cases hv
  | string a length => cases hv
  | cell id => cases hv

theorem Shows.used (h : b.Shows v s) :
    ∃ address length, v = .string address length ∧ address.offset + length + 1 ≤ b.used := by
  obtain ⟨address, rfl, -, hzero⟩ := h
  exact ⟨address, _, rfl, used_of_read hzero⟩

theorem readFloat_used (h : b.readFloat v = .ok x) :
    ∃ address, v = .float address ∧ address.offset + Word.size ≤ b.used := by
  cases v with
  | float address =>
    refine ⟨address, rfl, ?_⟩
    simp only [readFloat, Value.asFloat, bind, Except.bind] at h
    cases hr : b.read address.offset Word.size with
    | error fault =>
      rw [hr] at h
      cases h
    | ok bytes => exact used_of_read hr
  | nil => cases h
  | string a length => cases h
  | cell id => cases h

end ByteArena

open Heap Definitions

namespace Heap

variable {heap heap' : Heap} {a b : Address} {o : Object} {x : Single}

theorem Replaced.keeps_float (h : Replaced heap a o heap') (ha : ∀ y, ¬ heap.Places a (.float y))
    (hx : heap.Places b (.float x)) : heap'.Places b (.float x) := by
  refine (h.others b ?_ _).mpr hx
  rintro rfl
  exact ha x hx

/-- What an event does to the boxes: strings stay, and so does every float that it does not write. -/
structure Served (heap heap' : Heap) (event : Event σ) : Prop where
  evolves : Evolves heap heap'
  kept : ∀ a x, event.writes (.float a) = none → heap.Places a (.float x) → heap'.Places a (.float x)
  wrote : ∀ v x, event.writes v = some x → ∃ a, v = .float a ∧ heap'.Places a (.float x)
  boxed : ∀ s v, event = .served (.boxText s) (.ok v) →
    ∃ a, v = .string a s.toUTF8.toList.length ∧ heap'.Places a (.text s)

theorem Served.refl {event : Event σ} (hwrites : ∀ v, event.writes v = none)
    (hboxed : ∀ s v, event ≠ .served (.boxText s) (.ok v)) : Served heap heap event where
  evolves := .refl heap
  kept _ _ _ h := h
  wrote v x h := by
    rw [hwrites v] at h
    cases h
  boxed s v h := absurd h (hboxed s v)

theorem Served.error (heap : Heap) (r : Request σ) (fault : Fault) :
    Served heap heap (.served r (.error fault)) := by
  refine .refl (Event.writes_error r fault) ?_
  rintro s v ⟨⟩

end Heap

namespace Machine

open Step

variable {m n : Machine σ} {known : List Handle} {defs : Definitions} {heap : Heap}

theorem serves_boxFloat (hs : m.bytes.Stores heap) (x : Single) :
    ∃ heap', (boxFloat x m).machine.bytes.Stores heap' ∧
      Served heap heap' (.served (σ := σ) (.boxFloat x) (boxFloat x m).answer) := by
  rcases boxFloat_cases hs x with ⟨fault, ha, hm, -⟩ | ⟨b, ha, hm, hs', -⟩
  · rw [ha, hm]
    exact ⟨heap, hs, .error ..⟩
  · rw [ha, hm]
    have hr := replaced_append heap (.float x)
    refine ⟨_, hs', .of_fresh (not_places_end heap) hr, ?_, ?_, nofun⟩
    · exact fun a y _ hy => hr.keeps_float (fun z => not_places_end heap _) hy
    · intro v y hv
      simp only [Event.writes] at hv
      split at hv
      · rename_i hbox
        cases hv
        exact ⟨_, hbox.symm, hr.self⟩
      · cases hv

theorem serves_boxText (hs : m.bytes.Stores heap) (s : String) :
    ∃ heap', (boxText s m).machine.bytes.Stores heap' ∧
      Served heap heap' (.served (σ := σ) (.boxText s) (boxText s m).answer) := by
  rcases boxText_cases hs s with ⟨fault, ha, hm, -⟩ | ⟨b, ha, hm, hs', -⟩
  · rw [ha, hm]
    exact ⟨heap, hs, .error ..⟩
  · rw [ha, hm]
    have hr := replaced_append heap (.text s)
    refine ⟨_, hs', .of_fresh (not_places_end heap) hr, ?_, nofun, ?_⟩
    · exact fun a y _ hy => hr.keeps_float (fun z => not_places_end heap _) hy
    · rintro t v ⟨⟩
      exact ⟨_, rfl, hr.self⟩

theorem serves_storeFloat (hs : m.bytes.Stores heap) {v : Value}
    (hv : ∀ handle ∈ v.handles, heap.Refers handle) (x : Single) :
    ∃ heap', (storeFloat v x m).machine.bytes.Stores heap' ∧
      Served heap heap' (.served (σ := σ) (.storeFloat v x) (storeFloat v x m).answer) := by
  have hfloat : ∀ a, v = .float a → ∃ y, heap.Places a (.float y) := by
    rintro a rfl
    exact hv _ (List.mem_singleton_self _)
  rcases storeFloat_cases hs hfloat x with ⟨fault, ha, hm⟩ | ⟨a, y, b, heap', rfl, hy, ha, hm, hs', hr⟩
  · rw [ha, hm]
    exact ⟨heap, hs, .error ..⟩
  · rw [ha, hm]
    refine ⟨heap', hs', .of_float hy hr, ?_, ?_, nofun⟩
    · intro c z hnone hz
      refine (hr.others c ?_ _).mpr hz
      rintro rfl
      simp [Event.writes] at hnone
    · intro w z hw
      simp only [Event.writes] at hw
      split at hw
      · rename_i hbox
        cases hw
        exact ⟨a, hbox.symm, hr.self⟩
      · cases hw

theorem serves_createEntry (hs : m.bytes.Stores heap) (cell : CellId) :
    ∃ heap', (createEntry cell m).machine.bytes.Stores heap' ∧
      Served heap heap' (.served (σ := σ) (.createEntry cell) (createEntry cell m).answer) := by
  rcases createEntry_cases hs cell with ⟨fault, ha, hm, -⟩ | ⟨b, heap', ha, hm, hs', hr, -⟩
  · rw [ha, hm]
    exact ⟨heap, hs, .error ..⟩
  · rw [ha, hm]
    refine ⟨heap', hs', .of_fresh (not_places_end heap) hr, ?_, nofun, nofun⟩
    exact fun a y _ hy => hr.keeps_float (fun z => not_places_end heap _) hy

theorem serves_setEntryCopy (hs : m.bytes.Stores heap) {id : EntryId}
    (hid : heap.Refers (.entry id)) (copy : CopyId) :
    ∃ heap', (setEntryCopy id copy m).machine.bytes.Stores heap' ∧
      Served heap heap' (.served (σ := σ) (.setEntryCopy id copy) (setEntryCopy id copy m).answer) := by
  obtain ⟨w, hw⟩ := hid
  rcases setEntryCopy_cases hs hw copy with ⟨fault, ha, hm⟩ | ⟨b, heap', ha, hm, hs', hr, -⟩
  · rw [ha, hm]
    exact ⟨heap, hs, .error ..⟩
  · rw [ha, hm]
    refine ⟨heap', hs', .of_record hw hr, ?_, nofun, nofun⟩
    exact fun a y _ hy => hr.keeps_float (fun z hz => nomatch hz.unique hw) hy

/-- A definition writes to records only, and puts the name behind everything else. -/
theorem serves_define (h : Accounts heap m.bytes known defs m.dictionary) (name : String)
    {id : EntryId} (hid : .entry id ∈ known) :
    ∃ heap', (define name id m).machine.bytes.Stores heap' ∧
      Served heap heap' (.served (σ := σ) (.define name id) (define name id m).answer) := by
  obtain ⟨w, hw⟩ := h.refers _ hid
  rcases define_cases h.stores hw (h.sound _ _ hw) name (h.newest _) with ⟨fault, ha, hm, -⟩ |
    ⟨b, heap2, heap', -, ha, hm, hr, hs, he, hplaces, -⟩
  · rw [ha, hm]
    exact ⟨heap, h.stores, .error ..⟩
  · rw [ha, hm]
    have hnamed : Evolves (heap ++ [.text name]) heap2 := .of_record (hw.append _) hr
    have hgrown := Evolves.of_fresh (not_places_end heap) (replaced_append heap (.text name))
    refine ⟨heap', hs, (hgrown.trans hnamed).trans he, ?_, nofun, nofun⟩
    intro a x _ hx
    have hx2 : heap2.Places a (.float x) :=
      hr.keeps_float (fun z hz => nomatch hz.unique (hw.append _)) (hx.append _)
    obtain ⟨y, hy⟩ := he.floats a x hx2
    rcases hplaces a _ hy with ⟨-, v, -, hrecord⟩ | ⟨-, hy2⟩
    · cases hrecord
    · cases hy2.unique hx2
      exact hy

/-- Every request that uses known handles only leaves the boxes as they are, but for the ones that it
makes and the float that it writes. -/
theorem serves_request (h : Accounts heap m.bytes known defs m.dictionary) {r : Request σ}
    (hr : r.handles ⊆ known) :
    ∃ heap', (perform r m).machine.bytes.Stores heap' ∧
      Served heap heap' (.served r (perform r m).answer) := by
  have hrefers : ∀ v : Value, v.handles ⊆ known → ∀ handle ∈ v.handles, heap.Refers handle :=
    fun v hv handle hh => h.refers handle (hv hh)
  have hquiet : r.part ≠ .bytes → r.part ≠ .names →
      (perform r m).machine.bytes.Stores heap := by
    intro hb hn
    rw [(perform_kept r m).bytes hb hn]
    exact h.stores
  cases r with
  | boxFloat x => exact serves_boxFloat h.stores x
  | boxText s => exact serves_boxText h.stores s
  | storeFloat v x => exact serves_storeFloat h.stores (hrefers v hr) x
  | createEntry cell => exact serves_createEntry h.stores cell
  | setEntryCopy id copy =>
    exact serves_setEntryCopy h.stores (h.refers _ (hr (List.mem_singleton_self _))) copy
  | define name id => exact serves_define h name (hr (List.mem_singleton_self _))
  | _ => exact ⟨heap, hquiet nofun nofun, .refl (fun _ => rfl) nofun⟩

end Machine

namespace Machine

variable {m n : Machine σ} {past : List (Event σ)}

/-- The machine still has what its past has boxed. -/
structure Boxes (m : Machine σ) (past : List (Event σ)) : Prop where
  boxed : ∀ s v, .served (.boxText s) (.ok v) ∈ past → m.bytes.Shows v s
  named : ∀ id e, .served (.entry id) (.ok e) ∈ past →
    e.name = .nil ∨ ∃ s, (s, id) ∈ definitions past ∧ m.bytes.Shows e.name s
  floats : ∀ v x, lastWritten past v = some x → v.handles ⊆ given past ∧ m.bytes.readFloat v = .ok x
  /-- Every string that has been given out is one that the past tells. -/
  told : ∀ a length, .text a length ∈ given past → ∃ s, Tells past (.string a length) s
  /-- Every float that has been given out has been written. -/
  written : ∀ a, .float a ∈ given past → ∃ x, lastWritten past (.float a) = some x

namespace Boxes

theorem empty (m : Machine σ) : m.Boxes [] :=
  ⟨nofun, nofun, fun _ _ h => by simp [lastWritten] at h, nofun, nofun⟩

/-- Records for the log, and changes elsewhere, leave the boxes as they are. -/
theorem logged (h : m.Boxes past) (hb : n.bytes = m.bytes) (notices : List Notice) :
    n.Boxes (past ++ notices.map .logged) where
  boxed s v he := by
    rw [hb]
    exact h.boxed s v (by simpa using he)
  named id e he := by
    rw [hb, definitions_append, definitions_logged, List.append_nil]
    exact h.named id e (by simpa using he)
  floats v x hx := by
    rw [hb, given_append, given_logged, List.append_nil]
    rw [lastWritten_append, lastWritten_logged, Option.none_or] at hx
    exact h.floats v x hx
  told a length ha := by
    rw [given_append, given_logged, List.append_nil] at ha
    obtain ⟨s, hs⟩ := h.told a length ha
    exact ⟨s, hs.append _⟩
  written a ha := by
    rw [given_append, given_logged, List.append_nil] at ha
    rw [lastWritten_append, lastWritten_logged, Option.none_or]
    exact h.written a ha

/-- An entry that is read tells no name, or the name that it has been defined by. -/
theorem entry_name (hl : m.Ledger (given past) (definitions past)) {id : EntryId}
    (hid : .entry id ∈ given past) {e : Entry} (he : (Machine.entry id m).answer = .ok e) :
    e.name = .nil ∨ ∃ s, (s, id) ∈ definitions past ∧ m.bytes.Shows e.name s := by
  obtain ⟨heap, ho⟩ := hl.accounts
  obtain ⟨w, hw⟩ := ho.refers _ hid
  rw [entry_of_record ho.stores hw (ho.sound _ _ hw)] at he
  cases he
  by_cases hmem : id ∈ (definitions past).map Prod.snd
  · obtain ⟨⟨s, id⟩, hdef, rfl⟩ := List.mem_map.mp hmem
    obtain ⟨v, address, hv, hname, hlength, ht⟩ := ho.filed.named s id hdef
    cases hv.unique hw
    refine .inr ⟨s, hdef, ?_⟩
    simp only [Record.entry, hname, Address.ofNumber?_number, hlength]
    exact ho.stores.shows ht
  · refine .inl ?_
    simp [Record.entry, (ho.filed.spare _ w hw hmem).1, Address.ofNumber?]

/-- A handle that a request gives out is known already, or it is one of an entry, of an entry's name
or of a box that has just been made. -/
theorem gives_cases (hl : m.Ledger (given past) (definitions past)) {r : Request σ}
    {answer : Except Fault r.Answer} (ha : (perform r m).answer = answer) {x : Handle}
    (hx : x ∈ (Event.served r answer).gives) :
    x ∈ given past ∨ (∃ id, x = .entry id) ∨
    (∃ id e, Event.served r answer = .served (.entry id) (.ok e) ∧ x ∈ e.name.handles) ∨
    (∃ y v, Event.served r answer = .served (.boxFloat y) (.ok v) ∧ x ∈ v.handles) ∨
    ∃ s v, Event.served r answer = .served (.boxText s) (.ok v) ∧ x ∈ v.handles := by
  cases answer with
  | error fault =>
    rw [Event.gives_error] at hx
    cases hx
  | ok answer =>
    cases r with
    | cell id => exact .inl (hl.payloads _ ⟨id, answer, ha, rfl⟩ hx)
    | createEntry cell => exact .inr (.inl ⟨answer, List.mem_singleton.mp hx⟩)
    | search query => exact .inr (.inl ⟨answer, List.mem_singleton.mp hx⟩)
    | entry id => exact .inr (.inr (.inl ⟨id, answer, rfl, hx⟩))
    | boxFloat y => exact .inr (.inr (.inr (.inl ⟨y, answer, rfl, hx⟩)))
    | boxText s => exact .inr (.inr (.inr (.inr ⟨s, answer, rfl, hx⟩)))
    | pop =>
      rcases pop_cases m with ⟨fault, hf, -⟩ | ⟨slot, s, hok, -, hact⟩
      · exact absurd (ha.symm.trans hf) nofun
      · cases ha.symm.trans hok
        exact .inl (hl.slots answer (by simp [hact]) hx)
    | nth k =>
      cases answer with
      | none => cases hx
      | some slot => exact .inl (hl.slots slot (Stack.nth?_mem (Except.ok.inj ha)) hx)
    | _ => cases hx

section
variable {r : Request σ} {answer : Except Fault r.Answer}

/-- A request that uses known handles only leaves what is shown and makes what it is asked for. -/
theorem serves (hl : m.Ledger (given past) (definitions past)) (hr : r.handles ⊆ given past)
    (ha : (perform r m).answer = answer) :
    ∃ heap heap', Accounts heap m.bytes (given past) (definitions past) m.dictionary ∧
      (perform r m).machine.bytes.Stores heap' ∧ Served heap heap' (.served r answer) ∧
      ∀ v s, v.handles ⊆ given past → m.bytes.Shows v s → (perform r m).machine.bytes.Shows v s := by
  obtain ⟨heap, ho⟩ := hl.accounts
  obtain ⟨heap', hs', hev⟩ := serves_request ho hr
  rw [ha] at hev
  refine ⟨heap, heap', ho, hs', hev, fun v s hv hshows => ?_⟩
  obtain ⟨a, rfl, ht⟩ := hshows.places ho.stores fun handle hh => ho.refers handle (hv hh)
  exact hs'.shows (hev.evolves.texts a s ht)

theorem given_served (past : List (Event σ)) (event : Event σ) :
    given (past ++ [event]) = given past ++ event.gives := by
  simp [given]

theorem lastWritten_served (past : List (Event σ)) (event : Event σ) (v : Value) :
    lastWritten (past ++ [event]) v = (event.writes v).or (lastWritten past v) := by
  rw [lastWritten_append, lastWritten_single]

theorem served_boxed (hl : m.Ledger (given past) (definitions past)) (h : m.Boxes past)
    (hr : r.handles ⊆ given past) (ha : (perform r m).answer = answer) (s : String) (v : Value)
    (he : .served (.boxText s) (.ok v) ∈ past ++ [Event.served r answer]) :
    (perform r m).machine.bytes.Shows v s := by
  obtain ⟨heap, heap', -, hs', hev, hstays⟩ := serves hl hr ha
  rcases List.mem_append.mp he with he | he
  · exact hstays v s (gives_subset he) (h.boxed s v he)
  · obtain ⟨a, rfl, ht⟩ := hev.boxed s v (List.mem_singleton.mp he).symm
    exact hs'.shows ht

theorem served_named (hl : m.Ledger (given past) (definitions past)) (h : m.Boxes past)
    (hr : r.handles ⊆ given past) (ha : (perform r m).answer = answer) (id : EntryId) (e : Entry)
    (he : .served (.entry id) (.ok e) ∈ past ++ [Event.served r answer]) :
    e.name = .nil ∨ ∃ s, (s, id) ∈ definitions (past ++ [Event.served r answer]) ∧
      (perform r m).machine.bytes.Shows e.name s := by
  obtain ⟨-, -, -, -, -, hstays⟩ := serves hl hr ha
  have hdefs : definitions past ⊆ definitions (past ++ [Event.served r answer]) := by
    rw [definitions_append]
    exact List.subset_append_left ..
  rcases List.mem_append.mp he with he | he
  · rcases h.named id e he with hnil | ⟨s, hdef, hshows⟩
    · exact .inl hnil
    · exact .inr ⟨s, hdefs hdef, hstays _ s (gives_subset he) hshows⟩
  · cases List.mem_singleton.mp he
    rcases entry_name hl (hr (List.mem_singleton_self _)) ha with hnil | ⟨s, hdef, hshows⟩
    · exact .inl hnil
    · exact .inr ⟨s, hdefs hdef, hshows⟩

theorem served_floats (hl : m.Ledger (given past) (definitions past)) (h : m.Boxes past)
    (hr : r.handles ⊆ given past) (ha : (perform r m).answer = answer) {v : Value} {x : Single}
    (hx : lastWritten (past ++ [Event.served r answer]) v = some x) :
    v.handles ⊆ given (past ++ [Event.served r answer]) ∧
      (perform r m).machine.bytes.readFloat v = .ok x := by
  obtain ⟨heap, heap', ho, hs', hev, -⟩ := serves hl hr ha
  rw [lastWritten_served] at hx
  rw [given_served]
  cases hw : (Event.served r answer).writes v with
  | some y =>
    rw [hw, Option.some_or] at hx
    cases hx
    obtain ⟨a, rfl, hp⟩ := hev.wrote v x hw
    refine ⟨?_, hs'.readFloat hp⟩
    rcases Event.writes_known hw with hused | hgave
    · exact List.Subset.trans (List.Subset.trans hused hr) (List.subset_append_left ..)
    · exact List.Subset.trans hgave (List.subset_append_right ..)
  | none =>
    rw [hw, Option.none_or] at hx
    obtain ⟨hknown, hread⟩ := h.floats v x hx
    obtain ⟨a, rfl, hp⟩ := ByteArena.readFloat_places hread ho.stores
      fun handle hh => ho.refers handle (hknown hh)
    exact ⟨List.Subset.trans hknown (List.subset_append_left ..), hs'.readFloat (hev.kept a x hw hp)⟩

theorem served_told (hl : m.Ledger (given past) (definitions past)) (h : m.Boxes past)
    (hr : r.handles ⊆ given past) (ha : (perform r m).answer = answer) {a : Address} {length : Nat}
    (hmem : .text a length ∈ given (past ++ [Event.served r answer])) :
    ∃ s, Tells (past ++ [Event.served r answer]) (.string a length) s := by
  have hold : .text a length ∈ given past →
      ∃ s, Tells (past ++ [Event.served r answer]) (.string a length) s := by
    intro hmem
    obtain ⟨s, hs⟩ := h.told a length hmem
    exact ⟨s, hs.append _⟩
  obtain ⟨heap, heap', -, -, hev, -⟩ := serves hl hr ha
  rw [given_served] at hmem
  rcases List.mem_append.mp hmem with hmem | hmem
  · exact hold hmem
  rcases gives_cases hl ha hmem with
    hmem | ⟨_, ⟨⟩⟩ | ⟨id, e, he, hx⟩ | ⟨y, v, he, hx⟩ | ⟨s, v, he, hx⟩
  · exact hold hmem
  · have hname := Value.mem_handles_text.mp hx
    rcases served_named hl h hr ha id e (by simp [he]) with hnil | ⟨s, hdef, -⟩
    · exact absurd (hname.symm.trans hnil) nofun
    · exact ⟨s, .inr ⟨id, e, by simp [he], hname, nofun, hdef⟩⟩
  · obtain ⟨b, rfl, -⟩ := hev.wrote v y (by simp [he, Event.writes])
    exact absurd (Value.mem_handles_text.mp hx) nofun
  · cases Value.mem_handles_text.mp hx
    exact ⟨s, .inl (by simp [he])⟩

theorem served_written (hl : m.Ledger (given past) (definitions past)) (h : m.Boxes past)
    (hr : r.handles ⊆ given past) (ha : (perform r m).answer = answer) {a : Address}
    (hmem : .float a ∈ given (past ++ [Event.served r answer])) :
    ∃ x, lastWritten (past ++ [Event.served r answer]) (.float a) = some x := by
  rw [lastWritten_served]
  have hold : .float a ∈ given past →
      ∃ x, ((Event.served r answer).writes (.float a)).or (lastWritten past (.float a)) = some x := by
    intro hmem
    obtain ⟨x, hx⟩ := h.written a hmem
    rw [hx]
    cases (Event.served r answer).writes (.float a) with
    | none => exact ⟨x, rfl⟩
    | some y => exact ⟨y, rfl⟩
  obtain ⟨heap, heap', -, -, hev, -⟩ := serves hl hr ha
  rw [given_served] at hmem
  rcases List.mem_append.mp hmem with hmem | hmem
  · exact hold hmem
  rcases gives_cases hl ha hmem with
    hmem | ⟨_, ⟨⟩⟩ | ⟨id, e, he, hx⟩ | ⟨y, v, he, hx⟩ | ⟨s, v, he, hx⟩
  · exact hold hmem
  · have hname := Value.mem_handles_float.mp hx
    rcases served_named hl h hr ha id e (by simp [he]) with hnil | ⟨s, -, address, hstring, -⟩
    · exact absurd (hname.symm.trans hnil) nofun
    · exact absurd (hname.symm.trans hstring) nofun
  · cases Value.mem_handles_float.mp hx
    exact ⟨y, by simp [he, Event.writes]⟩
  · obtain ⟨b, rfl, -⟩ := hev.boxed s v he
    exact absurd (Value.mem_handles_float.mp hx) nofun

/-- What one request leaves of the boxes: all of them, and those that it makes. -/
theorem served (hl : m.Ledger (given past) (definitions past)) (h : m.Boxes past)
    (hr : r.handles ⊆ given past) (ha : (perform r m).answer = answer) :
    (perform r m).machine.Boxes (past ++ [.served r answer]) where
  boxed := served_boxed hl h hr ha
  named := served_named hl h hr ha
  floats _ _ := served_floats hl h hr ha
  told _ _ := served_told hl h hr ha
  written _ := served_written hl h hr ha

end

/-- A move that uses known handles only leaves the boxes as they are. -/
theorem move {allowed : Value → Prop} {events : List (Event σ)}
    (hl : m.Ledger (given past) (definitions past)) (h : m.Boxes past)
    (hev : Fresh (given past) events) (hm : Move allowed m events n) : n.Boxes (past ++ events) := by
  cases hm with
  | served r =>
    obtain ⟨notices, he⟩ := serve_events r m
    rw [he] at hev ⊢
    have hr : r.handles ⊆ given past := by
      have hlater := ((fresh_append ..).mp hev).2.1
      rwa [given_logged, List.append_nil] at hlater
    have hquiet := h.logged (n := m) rfl notices
    have hknown : given (past ++ notices.map (Event.logged (σ := σ))) = given past := by
      rw [given_append, given_logged, List.append_nil]
    have hdefs : definitions (past ++ notices.map (Event.logged (σ := σ))) = definitions past := by
      rw [definitions_append, definitions_logged, List.append_nil]
    rw [← List.append_assoc]
    exact served (by rw [hknown, hdefs]; exact hl) hquiet (by rw [hknown]; exact hr) rfl
  | literal v _ =>
    obtain ⟨⟨s, hs⟩, notices, he⟩ := pushLiteral_within (m := m) v
    rw [he]
    exact h.logged (by rw [hs]) notices
  | noted notice =>
    obtain ⟨notices, he⟩ := Step.log_events notice m
    rw [he]
    exact h.logged rfl notices
  | deeper => exact h.logged (n := { m with callDepth := m.callDepth + 1 }) rfl []
  | back => exact h.logged (n := { m with callDepth := m.callDepth - 1 }) rfl []

end Boxes
end Machine

namespace FreshRun

variable {host : Host σ} {past : List (Event σ)} {m : Machine σ}

theorem boxes (h : FreshRun host past m) : m.Boxes past := by
  refine (h.invariant (I := fun past m => m.Ledger (given past) (definitions past) ∧ m.Boxes past)
    ?_ ?_ ?_).2
  · intro bytes cells settings verbosity
    exact ⟨.of_empty rfl rfl rfl rfl rfl (by decide : 3 ≤ CopyTable.capacity), .empty _⟩
  · intro past m hm
    exact ⟨.of_empty rfl rfl rfl rfl rfl hm.1.copies, .empty _⟩
  · intro allowed past m events n hallowed ⟨hl, hb⟩ hev hmove
    rw [given_append, definitions_append]
    exact ⟨(hl.move hallowed hev hmove).1, hb.move hl hev hmove⟩

end FreshRun

/-- The value lies within the bytes handed out, and reads as the past tells. -/
def Value.Backed (past : List (Event σ)) (bytes : ByteArena) : Value → Prop
  | .float a => a.offset + Word.size ≤ bytes.used ∧
    ∃ x, lastWritten past (.float a) = some x ∧ bytes.readFloat (.float a) = .ok x
  | .string a length => a.offset + length + 1 ≤ bytes.used ∧
    ∃ s, Tells past (.string a length) s ∧ bytes.readText (.string a length) = .ok s
  | _ => True

namespace Value.Backed

variable {past : List (Event σ)} {bytes : ByteArena} {v : Value}

/-- Reading a value that is backed fails only for its kind. -/
theorem readable (h : v.Backed past bytes) :
    (∀ fault, bytes.readFloat v = .error fault → fault = .typeMismatch .float v.kind) ∧
    ∀ fault, bytes.readText v = .error fault → fault = .typeMismatch .string v.kind := by
  cases v with
  | float a =>
    obtain ⟨-, x, -, hx⟩ := h
    refine ⟨fun fault hf => ?_, fun fault hf => ?_⟩
    · exact absurd (hx.symm.trans hf) nofun
    · cases hf
      rfl
  | string a length =>
    obtain ⟨-, s, -, hs⟩ := h
    refine ⟨fun fault hf => ?_, fun fault hf => ?_⟩
    · cases hf
      rfl
    · exact absurd (hs.symm.trans hf) nofun
  | nil =>
    refine ⟨fun fault hf => ?_, fun fault hf => ?_⟩
    · cases hf
      rfl
    · cases hf
      rfl
  | cell id =>
    refine ⟨fun fault hf => ?_, fun fault hf => ?_⟩
    · cases hf
      rfl
    · cases hf
      rfl

end Value.Backed

namespace Machine.Boxes

variable {m : Machine σ} {past : List (Event σ)}

theorem shows (h : m.Boxes past) (hd : ((definitions past).map Prod.snd).Nodup) {v : Value}
    {s : String} (ht : Tells past v s) : m.bytes.Shows v s := by
  rcases ht with hbox | ⟨id, e, he, rfl, hne, hdef⟩
  · exact h.boxed s v hbox
  · rcases h.named id e he with hnil | ⟨t, hdef', hshows⟩
    · exact absurd hnil hne
    · obtain rfl := Definitions.name_unique hd hdef hdef'
      exact hshows

theorem backed (h : m.Boxes past) (hd : ((definitions past).map Prod.snd).Nodup) {v : Value}
    (hv : v.handles ⊆ given past) : v.Backed past m.bytes := by
  cases v with
  | nil => trivial
  | cell id => trivial
  | float a =>
    obtain ⟨x, hx⟩ := h.written a (hv (List.mem_singleton_self _))
    have hread := (h.floats _ x hx).2
    obtain ⟨b, hb, hused⟩ := ByteArena.readFloat_used hread
    cases hb
    exact ⟨hused, x, hx, hread⟩
  | string a length =>
    obtain ⟨s, hs⟩ := h.told a length (hv (List.mem_singleton_self _))
    have hshows := h.shows hd hs
    obtain ⟨b, k, hb, hused⟩ := hshows.used
    cases hb
    obtain ⟨-, -, hread, -⟩ := hshows
    exact ⟨hused, s, hs, hread⟩

end Machine.Boxes

/-- At every moment of a fresh run, in the middle of an operation as well, the strings made so far
read as they were made, with a zero byte behind them, and the floats read as they were last written.
Every value that has been given out, lies on the stack or is the payload of a cell is one of these, or
none that reads bytes, and lies within the bytes handed out, so that reading it fails only for its
kind. -/
theorem FreshRun.boxed_values {host : Host σ} {past events : List (Event σ)} {m n : Machine σ}
    {allowed : Value → Prop} (h : FreshRun host past m)
    (hallowed : ∀ v, allowed v → v.handles ⊆ given past) (hev : Fresh (given past) events)
    (hm : Moves allowed m events n) :
    (∀ v s, Tells (past ++ events) v s → n.bytes.Shows v s) ∧
    (∀ v x, lastWritten (past ++ events) v = some x → (Machine.readFloat v n).answer = .ok x) ∧
    ∀ v, v.handles ⊆ given (past ++ events) ∨ n.Carries v ∨ (∃ slot ∈ n.stack.active, slot.value = v) →
      v.Backed (past ++ events) n.bytes ∧
      (∀ fault, (Machine.readFloat v n).answer = .error fault →
        fault = .typeMismatch .float v.kind) ∧
      ∀ fault, (Machine.readText v n).answer = .error fault →
        fault = .typeMismatch .string v.kind := by
  have hall : n.Ledger (given (past ++ events)) (definitions (past ++ events)) ∧
      n.Boxes (past ++ events) := by
    refine hm.preserve_fresh (I := fun past m => m.Ledger (given past) (definitions past) ∧ m.Boxes past)
      ?_ past hallowed ⟨h.ledger.1, h.boxes⟩ hev
    intro past m events n hallowed ⟨hl, hb⟩ hev hmove
    rw [given_append, definitions_append]
    exact ⟨(hl.move hallowed hev hmove).1, hb.move hl hev hmove⟩
  obtain ⟨hl, hb⟩ := hall
  have hd : ((definitions (past ++ events)).map Prod.snd).Nodup := by
    obtain ⟨heap, ho⟩ := hl.accounts
    exact ho.filed.distinct
  refine ⟨fun v s => hb.shows hd, fun v x hx => (hb.floats v x hx).2, fun v hv => ?_⟩
  have hknown : v.handles ⊆ given (past ++ events) := by
    rcases hv with hgiven | hcarried | ⟨slot, hslot, rfl⟩
    · exact hgiven
    · exact hl.payloads v hcarried
    · exact hl.slots slot hslot
  have hbacked := hb.backed hd hknown
  exact ⟨hbacked, hbacked.readable⟩

/-- A string with a character of two bytes and a zero in it, and a float that is written over. -/
def Stock.boxTwo : Program Stock.signature Unit := do
  let text ← request (.boxText "é\x00")
  let float ← request (.boxFloat .one)
  request (.storeFloat float .infinity)
  request (.pushValue text)
  request (.pushValue float)

open Stock in
theorem FreshRun.boxed_values_of_boxTwo :
    let m : Machine signature := .create (.replicate 16 7) #[] ⟨1, .strict⟩ none
    let o := boxTwo.start host m
    FreshRun host [] m ∧ Fresh (given ([] : List (Event signature))) o.events ∧
    Moves (Operation.program boxTwo).Gives m o.events o.machine ∧
    o.machine.bytes.Shows (.string ⟨0⟩ 3) "é\x00" ∧
    (Machine.readFloat (.float ⟨4⟩) o.machine).answer = .ok .infinity := by
  intro m o
  have hrun : FreshRun host [] m := .created (.replicate 16 7) #[] ⟨1, .strict⟩ none
  have hfresh : Fresh (given ([] : List (Event signature))) o.events := by decide +kernel
  have hmoves := (Operation.program boxTwo).moves host m
  obtain ⟨hshows, hfloats, -⟩ := FreshRun.boxed_values hrun nofun hfresh hmoves
  refine ⟨hrun, hfresh, hmoves, hshows _ _ (.inl ?_), hfloats _ _ ?_⟩
  · exact List.mem_of_getElem? (i := 0) (by with_unfolding_all rfl)
  · decide +kernel

end ThreadedCode
