import ThreadedCode.Proofs.Ledger

/-!
Every request that uses known handles only is posted to the ledger: what it gives out is good, and
what it defines is in the dictionary.
-/
namespace ThreadedCode

variable {σ : Signature}

namespace Event

theorem gives_error (r : Request σ) (fault : Fault) : (served r (.error fault)).gives = [] := by
  cases r <;> rfl

theorem defines_error (r : Request σ) (fault : Fault) : (served r (.error fault)).defines = [] := by
  cases r <;> rfl

/-- Only a definition defines. -/
theorem defines_of_part {r : Request σ} (h : r.part ≠ .names) (answer : Except Fault r.Answer) :
    (served r answer).defines = [] := by
  cases r with
  | define name id => exact absurd rfl h
  | _ => rfl

/-- No request on cells, words or copy strategies gives out a handle. -/
theorem gives_of_part {r : Request σ} (h : r.part = .cells ∨ r.part = .words ∨ r.part = .copies)
    (answer : Except Fault r.Answer) : (served r answer).gives = [] := by
  cases r with
  | newCell => rfl
  | bind _ _ => rfl
  | setPayload _ _ => rfl
  | bindLiteral _ _ => rfl
  | link _ _ => rfl
  | inline _ _ => rfl
  | beginWord _ => rfl
  | endWord => rfl
  | registerStrategy _ => rfl
  | _ => simp [Request.part] at h

end Event

namespace Machine

open Step Heap

variable {m n : Machine σ} {known more : List Handle} {defs : Definitions}

/-- What was known before a request together with what has come of it. -/
def Posted (known : List Handle) (defs : Definitions) (r : Request σ) (o : Outcome σ r.Answer) :
    Prop :=
  o.machine.Ledger (known ++ (Event.served r o.answer).gives)
    (defs ++ (Event.served r o.answer).defines)

namespace Ledger

theorem of_error (h : m.Ledger known defs) {r : Request σ} {fault : Fault} {o : Outcome σ r.Answer}
    (ha : o.answer = .error fault) (hm : o.machine = m) : Posted known defs r o := by
  rw [Posted, ha, hm, Event.gives_error, Event.defines_error, List.append_nil, List.append_nil]
  exact h

/-- A request that gives out nothing and defines nothing. -/
theorem of_quiet (h : n.Ledger known defs) {r : Request σ} {o : Outcome σ r.Answer}
    (hm : o.machine = n) (hgives : (Event.served r o.answer).gives = [])
    (hdefines : (Event.served r o.answer).defines = []) : Posted known defs r o := by
  rw [Posted, hm, hgives, hdefines, List.append_nil, List.append_nil]
  exact h

/-- A request that gives out something and defines nothing. -/
theorem of_given (h : n.Ledger (known ++ more) defs) {r : Request σ} {o : Outcome σ r.Answer}
    (hm : o.machine = n) (hgives : (Event.served r o.answer).gives = more)
    (hdefines : (Event.served r o.answer).defines = []) : Posted known defs r o := by
  rw [Posted, hm, hgives, hdefines, List.append_nil]
  exact h

/-- A payload in a cell is known. -/
theorem cell (h : m.Ledger known defs) (id : CellId) :
    Posted known defs (.cell id) (ThreadedCode.perform (.cell id) m) := by
  change Posted known defs (.cell id) ⟨m.cells.get id, m, []⟩
  cases hget : m.cells.get id with
  | error fault => exact h.of_error rfl rfl
  | ok c => exact (h.learn_known (h.payloads _ ⟨id, c, hget, rfl⟩)).of_given rfl rfl rfl

theorem nth (h : m.Ledger known defs) (k : Nat) :
    Posted known defs (.nth k) (ThreadedCode.perform (.nth k) m) := by
  change Posted known defs (.nth k) ⟨.ok (m.stack.nth? k), m, []⟩
  cases hnth : m.stack.nth? k with
  | none => exact h.of_quiet rfl rfl rfl
  | some slot => exact (h.learn_known (h.slots slot (Stack.nth?_mem hnth))).of_given rfl rfl rfl

/-- The answer to a search is what the definitions say. -/
theorem search_answer (h : m.Ledger known defs) (query : String) :
    (Machine.search query m).answer = Definitions.verdict m.settings.mode defs query := by
  obtain ⟨heap, ho⟩ := h.accounts
  rw [← h.mode]
  exact ho.filed.search ho.stores ho.sound query

/-- What is found has been defined. -/
theorem found (h : m.Ledger known defs) {query : String} {id : EntryId}
    (ha : (Machine.search query m).answer = .ok id) : ∃ name, (name, id) ∈ defs := by
  rw [h.search_answer, Definitions.verdict] at ha
  split at ha
  · rename_i hlookup
    cases ha
    exact Definitions.mem_of_lookup hlookup
  · cases ha

theorem search (h : m.Ledger known defs) (query : String) :
    Posted known defs (.search query) (ThreadedCode.perform (.search query) m) := by
  change Posted known defs (.search query) ⟨(Machine.search query m).answer, m, []⟩
  cases ha : (Machine.search query m).answer with
  | error fault => exact h.of_error rfl rfl
  | ok id =>
    refine (h.learn fun heap ho x hx => ?_).of_given rfl rfl rfl
    obtain rfl := List.mem_singleton.mp hx
    obtain ⟨name, hname⟩ := h.found ha
    obtain ⟨w, -, hw, -⟩ := ho.filed.named name id hname
    exact ⟨w, hw⟩

/-- The name of a known entry is a string that is there. -/
theorem entry (h : m.Ledger known defs) {id : EntryId} (hid : .entry id ∈ known) :
    Posted known defs (.entry id) (ThreadedCode.perform (.entry id) m) := by
  have hread : ∀ heap, Accounts heap m.bytes known defs m.dictionary →
      ∃ w, heap.Places id.address (.record w) ∧ Machine.entry id m = ⟨.ok w.entry, m, []⟩ := by
    intro heap ho
    obtain ⟨w, hw⟩ := ho.refers _ hid
    exact ⟨w, hw, entry_of_record ho.stores hw (ho.sound _ _ hw)⟩
  obtain ⟨heap, ho⟩ := h.accounts
  obtain ⟨w, -, he⟩ := hread heap ho
  change Posted known defs (.entry id) (Machine.entry id m)
  rw [he]
  refine (h.learn fun heap ho x hx => ?_).of_given rfl rfl rfl
  obtain ⟨w', hw', he'⟩ := hread heap ho
  rw [he] at he'
  have hsame : w.entry = w'.entry := by injection he' with ha; exact Except.ok.inj ha
  rw [hsame] at hx
  exact ho.refers_name hw' x hx

theorem carries_rewired {ok : Value → Prop} (hr : CellArena.Rewired ok m.cells n.cells)
    (hm : ∀ v, m.Carries v → ok v) : ∀ v, n.Carries v → ok v := by
  rintro v ⟨id, cell, hget, rfl⟩
  obtain ⟨hlt, hcell⟩ := CellArena.get_eq_ok.mp hget
  rcases hr.cells id.index with he | ⟨c, p, w, -, -, he, hw⟩
  · exact hm _ ⟨id, cell, CellArena.get_eq_ok.mpr ⟨hr.used ▸ hlt, he ▸ hcell⟩, rfl⟩
  · rw [he] at hcell
    cases hcell
    exact hw

/-- The payloads stay when a cell is handed out, and its own is blank. -/
theorem carries_newCell (h : m.Ledger known defs)
    (hroom : m.cells.hasRoom ∧ m.cells.used + 1 < wordLimit) {v : Value}
    (hv : (Machine.newCell m).machine.Carries v) : v.handles ⊆ known := by
  rw [newCell_of_room h.built.sound.allocated hroom] at hv
  obtain ⟨id, cell, hget, rfl⟩ := hv
  obtain ⟨hlt, hcell⟩ := CellArena.get_eq_ok.mp hget
  simp only [CellArena.grown_lookup, Option.map_eq_some_iff] at hcell hlt
  obtain ⟨c, hc, rfl⟩ := hcell
  by_cases hold : id.index < m.cells.used
  · exact h.payloads _ ⟨id, c, CellArena.get_eq_ok.mpr ⟨hold, hc⟩, rfl⟩
  · have hblank := h.built.blank id.index (by omega) (Array.getElem?_eq_some_iff.mp hc).1
    rw [hblank] at hc
    cases hc
    exact List.nil_subset _

theorem cells (h : m.Ledger known defs) {r : Request σ} (hp : r.part = .cells)
    (hr : r.handles ⊆ known) : Posted known defs r (ThreadedCode.perform r m) := by
  refine of_quiet ?_ rfl (Event.gives_of_part (.inl hp) _) (Event.defines_of_part (by simp [hp]) _)
  have hf := (perform_within r m).frames
  rw [hp] at hf
  apply h.recell hf (h.built.perform r).1
  intro v hv
  by_cases hnew : r = .newCell
  · subst hnew
    by_cases hroom : m.cells.hasRoom ∧ m.cells.used + 1 < wordLimit
    · exact h.carries_newCell hroom hv
    · change (Machine.newCell m).machine.Carries v at hv
      rw [(newCell_of_full hroom).2] at hv
      exact h.payloads v hv
  · have hgiven : ∀ v, r.payload? = some v → v.handles ⊆ known := by
      intro v hv
      cases r with
      | setPayload id w =>
        cases hv
        exact hr
      | bindLiteral id w =>
        cases hv
        exact hr
      | _ => cases hv
    have hrew := perform_rewires (fun v => v.handles ⊆ known) hp hnew m (List.nil_subset _)
      (fun _ => List.nil_subset _) hgiven h.payloads
    exact carries_rewired hrew h.payloads v hv

theorem words (h : m.Ledger known defs) {r : Request σ} (hp : r.part = .words) :
    Posted known defs r (ThreadedCode.perform r m) := by
  have hf := (perform_within r m).frames
  rw [hp] at hf
  obtain ⟨w, hm⟩ := hf
  have hb := (h.built.perform r).1
  rw [hm] at hb
  exact of_quiet (n := { m with openWords := w })
    ⟨hb, h.copies, h.mode, h.accounts, h.payloads, h.slots⟩ hm
    (Event.gives_of_part (.inr (.inl hp)) _) (Event.defines_of_part (by simp [hp]) _)

theorem registerStrategy (h : m.Ledger known defs) (strategy : Strategy σ) :
    Posted known defs (.registerStrategy strategy)
      (ThreadedCode.perform (.registerStrategy strategy) m) := by
  change Posted known defs (.registerStrategy strategy) (Machine.registerStrategy strategy m)
  rcases registerStrategy_cases strategy m with ⟨hlt, -, hm⟩ | ⟨-, ha, hm⟩
  · let n : Machine σ := { m with copies := ⟨m.copies.rows ++ [strategy]⟩ }
    have hb : n.Built := (h.built.untouched (n := n) rfl rfl).1
    have hrows : n.copies.rows.length ≤ CopyTable.capacity := by
      change (m.copies.rows ++ [strategy]).length ≤ CopyTable.capacity
      rw [List.length_append]
      exact hlt
    exact of_quiet (n := n) ⟨hb, hrows, h.mode, h.accounts, h.payloads, h.slots⟩ hm rfl rfl
  · exact h.of_error ha hm

theorem push (h : m.Ledger known defs) {slot : Slot} (hs : slot.value.handles ⊆ known) :
    Posted known defs (.push slot) (ThreadedCode.perform (.push slot) m) := by
  change Posted known defs (.push slot) (Machine.push slot m)
  rcases push_cases slot m with ⟨fault, ha, hm⟩ | ⟨s, ha, hm, hact⟩
  · exact h.of_error ha hm
  · refine of_quiet (h.restack (s := s) fun x hx => ?_) hm (by rw [ha]; rfl) (by rw [ha]; rfl)
    rw [hact] at hx
    rcases List.mem_append.mp hx with hx | hx
    · exact .inl hx
    · obtain rfl := List.mem_singleton.mp hx
      exact .inr hs

theorem pop (h : m.Ledger known defs) : Posted known defs .pop (ThreadedCode.perform .pop m) := by
  change Posted known defs .pop (Machine.pop m)
  rcases pop_cases m with ⟨fault, ha, hm⟩ | ⟨slot, s, ha, hm, hact⟩
  · exact h.of_error ha hm
  · have hslot : slot.value.handles ⊆ known := h.slots slot (by simp [hact])
    have hs := h.restack (s := s) fun x hx => .inl (by simp [hact, hx])
    exact (hs.learn_known hslot).of_given hm (by rw [ha]; rfl) (by rw [ha]; rfl)

theorem popFloat (h : m.Ledger known defs) :
    Posted known defs .popFloat (ThreadedCode.perform .popFloat m) := by
  change Posted known defs .popFloat (Machine.popFloat m)
  rcases popFloat_machine m with hm | ⟨slot, s, hm, hact⟩
  · exact h.of_quiet hm rfl rfl
  · exact (h.restack (s := s) fun x hx => .inl (by simp [hact, hx])).of_quiet hm rfl rfl

theorem clear (h : m.Ledger known defs) : Posted known defs .clear (ThreadedCode.perform .clear m) :=
  of_quiet (h.restack (s := m.stack.clear) fun x hx => by simp [Stack.clear, Stack.active] at hx)
    rfl rfl rfl

/-- Only the byte arena has changed, and the dictionary has stayed. -/
theorem rebyte (h : m.Ledger known defs) (more : List Handle) {b : ByteArena} {heap : Heap}
    (ho : Accounts heap b known defs m.dictionary)
    (hmore : ∀ x ∈ more, heap.Refers x) : Ledger { m with bytes := b } (known ++ more) defs := by
  have hall : Accounts heap b (known ++ more) defs m.dictionary :=
    ⟨ho.stores, ho.sound, fun x hx => (List.mem_append.mp hx).elim (ho.refers x) (hmore x), ho.filed⟩
  have hb := h.rewrite more [] rfl ⟨heap, by simpa using hall⟩
  simpa using hb

theorem createEntry (h : m.Ledger known defs) (cell : CellId) :
    Posted known defs (.createEntry cell) (ThreadedCode.perform (.createEntry cell) m) := by
  change Posted known defs (.createEntry cell) (Machine.createEntry cell m)
  obtain ⟨heap, ho⟩ := h.accounts
  rcases createEntry_cases ho.stores cell with
    ⟨fault, ha, hm, -⟩ | ⟨b, heap', ha, hm, hs, hr, -, hlt⟩
  · exact h.of_error ha hm
  · have hnumber : cell.number < wordLimit := by
      have := h.built.numbered
      change cell.index + 1 < wordLimit
      omega
    have hnew := ho.replace hs hr (.of_fresh (not_places_end heap) hr) fun w hw => by
      cases hw
      exact ⟨Record.sound_unnamed hnumber, .inr ⟨fun w => not_places_end heap _, rfl, rfl⟩⟩
    refine (h.rebyte _ hnew fun x hx => ?_).of_given hm (by rw [ha]) rfl
    obtain rfl := List.mem_singleton.mp hx
    exact ⟨_, hr.self⟩

theorem setEntryCopy (h : m.Ledger known defs) {id : EntryId} (hid : .entry id ∈ known)
    (copy : CopyId) :
    Posted known defs (.setEntryCopy id copy) (ThreadedCode.perform (.setEntryCopy id copy) m) := by
  change Posted known defs (.setEntryCopy id copy) (Machine.setEntryCopy id copy m)
  obtain ⟨heap, ho⟩ := h.accounts
  obtain ⟨w, hw⟩ := ho.refers _ hid
  rcases setEntryCopy_cases ho.stores hw copy with ⟨fault, ha, hm⟩ | ⟨b, heap', ha, hm, hs, hr, hlt⟩
  · exact h.of_error ha hm
  · have hnumber : copy.number < wordLimit := by
      have hcap : CopyTable.capacity < wordLimit := by decide
      have := h.copies
      omega
    have hnew := ho.replace hs hr (.of_record hw hr) fun w' hw' => by
      cases hw'
      exact ⟨(ho.sound _ _ hw).set (by decide) hnumber, .inl ⟨w, hw, rfl, rfl, rfl⟩⟩
    exact (h.rebyte [] hnew nofun).of_given hm rfl rfl

theorem boxFloat (h : m.Ledger known defs) (x : Single) :
    Posted known defs (.boxFloat x) (ThreadedCode.perform (.boxFloat x) m) := by
  change Posted known defs (.boxFloat x) (Machine.boxFloat x m)
  obtain ⟨heap, ho⟩ := h.accounts
  rcases boxFloat_cases ho.stores x with ⟨fault, ha, hm, -⟩ | ⟨b, ha, hm, hs, -⟩
  · exact h.of_error ha hm
  · have hr := replaced_append heap (.float x)
    have hnew := ho.replace hs hr (.of_fresh (not_places_end heap) hr) nofun
    refine (h.rebyte _ hnew fun y hy => ?_).of_given hm (by rw [ha]) rfl
    obtain rfl := List.mem_singleton.mp hy
    exact ⟨x, hr.self⟩

theorem boxText (h : m.Ledger known defs) (s : String) :
    Posted known defs (.boxText s) (ThreadedCode.perform (.boxText s) m) := by
  change Posted known defs (.boxText s) (Machine.boxText s m)
  obtain ⟨heap, ho⟩ := h.accounts
  rcases boxText_cases ho.stores s with ⟨fault, ha, hm, -⟩ | ⟨b, ha, hm, hs, -⟩
  · exact h.of_error ha hm
  · have hr := replaced_append heap (.text s)
    have hnew := ho.replace hs hr (.of_fresh (not_places_end heap) hr) nofun
    refine (h.rebyte _ hnew fun y hy => ?_).of_given hm (by rw [ha]) rfl
    obtain rfl := List.mem_singleton.mp hy
    exact ⟨s, hr.self, rfl⟩

theorem storeFloat (h : m.Ledger known defs) {v : Value} (hv : v.handles ⊆ known) (x : Single) :
    Posted known defs (.storeFloat v x) (ThreadedCode.perform (.storeFloat v x) m) := by
  change Posted known defs (.storeFloat v x) (Machine.storeFloat v x m)
  obtain ⟨heap, ho⟩ := h.accounts
  have hfloat : ∀ a, v = .float a → ∃ y, heap.Places a (.float y) := by
    rintro a rfl
    exact ho.refers _ (hv (List.mem_singleton_self _))
  rcases storeFloat_cases ho.stores hfloat x with
    ⟨fault, ha, hm⟩ | ⟨a, y, b, heap', -, hy, ha, hm, hs, hr⟩
  · exact h.of_error ha hm
  · have hnew := ho.replace hs hr (.of_float hy hr) nofun
    exact (h.rebyte [] hnew nofun).of_given hm rfl rfl

/-- A definition goes to the end of the definitions. -/
theorem define (h : m.Ledger known defs) (name : String) {id : EntryId} (hid : .entry id ∈ known) :
    Posted known defs (.define name id) (ThreadedCode.perform (.define name id) m) := by
  change Posted known defs (.define name id) (Machine.define name id m)
  obtain ⟨heap, ho⟩ := h.accounts
  obtain ⟨w, hw⟩ := ho.refers _ hid
  have hsound := ho.sound _ _ hw
  rcases define_cases ho.stores hw hsound name (ho.newest _) with ⟨fault, ha, hm, -⟩ |
    ⟨b, heap2, heap', hname, ha, hm, hr, hs, he', hplaces, hlen, hlt, -⟩
  · exact h.of_error ha hm
  · have hdefs := ho.define hw hname hr hs he' hplaces hlen hlt
    have hnew := h.rewrite [] [(name, id)]
      (d := m.dictionary.append (Definitions.bucket m.dictionary.mode name) id) rfl
      ⟨heap', by simpa using hdefs⟩
    rw [Posted, hm, ha]
    exact hnew

theorem perform (h : m.Ledger known defs) {r : Request σ} (hr : r.handles ⊆ known) :
    Posted known defs r (ThreadedCode.perform r m) := by
  by_cases hc : r.part = .cells
  · exact h.cells hc hr
  by_cases hw : r.part = .words
  · exact h.words hw
  cases r with
  | newCell | bind | setPayload | bindLiteral | link | inline => exact absurd rfl hc
  | beginWord | endWord => exact absurd rfl hw
  | cell id => exact h.cell id
  | currentWord => exact h.of_quiet rfl rfl rfl
  | registerStrategy strategy => exact h.registerStrategy strategy
  | strategy id => exact h.of_quiet rfl rfl rfl
  | createEntry cell => exact h.createEntry cell
  | entry id => exact h.entry (hr (List.mem_singleton_self _))
  | entryName id => exact h.of_quiet (perform_within (.entryName id) m).frames rfl rfl
  | setEntryCopy id copy => exact h.setEntryCopy (hr (List.mem_singleton_self _)) copy
  | define name id => exact h.define name (hr (List.mem_singleton_self _))
  | search query => exact h.search query
  | noteRegistered count => exact h.of_quiet rfl rfl rfl
  | boxFloat x => exact h.boxFloat x
  | readFloat v => exact h.of_quiet rfl rfl rfl
  | storeFloat v x => exact h.storeFloat hr x
  | boxText s => exact h.boxText s
  | readText v => exact h.of_quiet rfl rfl rfl
  | push slot => exact h.push hr
  | pop => exact h.pop
  | popFloat => exact h.popFloat
  | nth k => exact h.nth k
  | clear => exact h.clear
  | print line => exact h.of_quiet rfl rfl rfl

end Ledger
end Machine
end ThreadedCode
