import ThreadedCode.Proofs.Footprints

/-!
Shortages: faults for want of bytes, cells, slots or levels. Most of what a machine is asked for does
not end with one, and tells the log of none.
-/
namespace ThreadedCode

variable {σ : Signature} {α β : Type}

/-- The fault is for want of something that a machine has only so much of. -/
def Fault.isShortage : Fault → Bool
  | .byteArenaFull _ _ _ | .cellArenaFull _ | .stackOverflow | .stackUnderflow
  | .callDepthExceeded _ => true
  | _ => false

/-- The shortage that a notice tells of. -/
def Notice.reports : Notice → Option Fault
  | .arenaFull fault => some fault
  | .stackOverflow _ => some .stackOverflow
  | .stackUnderflow => some .stackUnderflow
  | .callDepthExceeded depth _ => some (.callDepthExceeded depth)
  | _ => none

def Event.reports : Event σ → Option Fault
  | .logged notice => notice.reports
  | .served _ _ => none

/-- The shortages that events tell of, in order. -/
def reported (events : List (Event σ)) : List Fault := events.filterMap Event.reports

@[simp] theorem reported_append (first rest : List (Event σ)) :
    reported (first ++ rest) = reported first ++ reported rest := List.filterMap_append

/-- This does not end with a shortage. -/
def Ample (answer : Except Fault α) : Prop :=
  ∀ fault, answer = .error fault → fault.isShortage = false

theorem ample_ok (a : α) : Ample (.ok a) := nofun

theorem ample_error {fault : Fault} (h : fault.isShortage = false) :
    Ample (.error fault : Except Fault α) := by
  rintro _ ⟨⟩
  exact h

theorem Ample.bind {answer : Except Fault α} {next : α → Except Fault β} (h : Ample answer)
    (hn : ∀ a, Ample (next a)) : Ample (answer >>= next) := by
  cases answer with
  | ok a => exact hn a
  | error fault => exact ample_error (h fault rfl)

namespace ByteArena

variable (a : ByteArena)

theorem read_ample (start length : Nat) : Ample (a.read start length) := by
  unfold read
  split
  · exact ample_ok _
  · exact ample_error rfl

theorem write_ample (start : Nat) (bytes : List UInt8) : Ample (a.write start bytes) := by
  unfold write
  split
  · exact ample_ok _
  · exact ample_error rfl

end ByteArena

namespace Value

theorem asCell_ample (v : Value) : Ample v.asCell := by
  cases v with
  | cell id => exact ample_ok id
  | _ => exact ample_error rfl

theorem asFloat_ample (v : Value) : Ample v.asFloat := by
  cases v with
  | float address => exact ample_ok address
  | _ => exact ample_error rfl

theorem asString_ample (v : Value) : Ample v.asString := by
  cases v with
  | string address length => exact ample_ok _
  | _ => exact ample_error rfl

end Value

namespace ByteArena

variable (a : ByteArena) (v : Value)

theorem readFloat_ample : Ample (a.readFloat v) :=
  v.asFloat_ample.bind fun _ => (a.read_ample _ _).bind fun _ => ample_ok _

theorem storeFloat_ample (x : Single) : Ample (a.storeFloat v x) :=
  v.asFloat_ample.bind fun _ => a.write_ample _ _

theorem readText_ample : Ample (a.readText v) := by
  refine v.asString_ample.bind fun _ => (a.read_ample _ _).bind fun bytes => ?_
  split
  · exact ample_ok _
  · exact ample_error rfl

end ByteArena

namespace Entry

variable (bytes : ByteArena) (id : EntryId)

theorem readField_ample (field : Field) : Ample (readField bytes id field) :=
  (bytes.read_ample _ _).bind fun _ => ample_ok _

theorem read_ample : Ample (read bytes id) := by
  have hfield := readField_ample bytes id
  refine (hfield .cell).bind fun number => ?_
  cases CellId.ofNumber? number with
  | none => exact ample_error rfl
  | some cell =>
    refine (hfield .copy).bind fun copy => (hfield .name).bind fun name => ?_
    cases Address.ofNumber? name with
    | none => exact ample_ok _
    | some address => exact (hfield .nameLength).bind fun _ => ample_ok _

theorem nameBytes_ample : Ample (nameBytes bytes id) :=
  (read_ample bytes id).bind fun record =>
    record.name.asString_ample.bind fun _ => bytes.read_ample _ _

end Entry

theorem Dictionary.follow_ample (bytes : ByteArena) (mode : Mode) (query : List UInt8)
    (hops : Nat) (cursor found : Option EntryId) :
    Ample (follow bytes mode query hops cursor found) := by
  induction hops generalizing cursor found with
  | zero => exact ample_ok _
  | succ hops ih =>
    cases cursor with
    | none => exact ample_ok _
    | some id =>
      have hnext : Ample (Entry.next? bytes id) :=
        (Entry.readField_ample bytes id .next).bind fun _ => ample_ok _
      refine (Entry.nameBytes_ample bytes id).bind fun name => ?_
      split
      · exact ample_ok _
      · exact hnext.bind fun cursor => ih cursor _
      · exact hnext.bind fun cursor => ih cursor _

theorem Dictionary.search_ample (d : Dictionary) (bytes : ByteArena) (query : List UInt8) :
    Ample (d.search bytes query) := by
  refine (follow_ample _ _ _ _ _ _).bind fun found => ?_
  cases found with
  | none => exact ample_error rfl
  | some id => exact ample_ok id

theorem CellArena.get_ample (a : CellArena σ) (id : CellId) : Ample (a.get id) := by
  unfold get
  split
  · split
    · exact ample_ok _
    · exact ample_error rfl
  · exact ample_error rfl

namespace CopyTable

variable (t : CopyTable σ)

theorem get_ample (id : CopyId) : Ample (t.get id) := by
  unfold get
  split
  · exact ample_ok _
  · exact ample_error rfl

theorem register_ample (strategy : Strategy σ) : Ample (t.register strategy) := by
  unfold register
  split
  · exact ample_ok _
  · exact ample_error rfl

end CopyTable

namespace OpenWords

variable (w : OpenWords)

theorem push_ample (head : CellId) : Ample (w.push head) := by
  unfold push
  split
  · exact ample_ok _
  · exact ample_error rfl

theorem pop_ample : Ample w.pop := by
  unfold pop
  split
  · exact ample_error rfl
  · exact ample_ok _

end OpenWords

/-- The step neither ends with a shortage nor tells of one. -/
structure Step.Plain (s : Step σ α) : Prop where
  ample : ∀ m, Ample (s m).answer
  silent : ∀ m, reported (s m).events = []

namespace Step

theorem plain_done {answer : Except Fault α} (h : Ample answer) : (done answer : Step σ α).Plain :=
  ⟨fun _ => h, fun _ => rfl⟩

theorem plain_pure (a : α) : (pure a : Step σ α).Plain := plain_done (ample_ok a)

theorem plain_modify (f : Machine σ → Machine σ) : (modify f : Step σ PUnit).Plain :=
  ⟨fun _ => ample_ok _, fun _ => rfl⟩

theorem plain_set (m : Machine σ) : (set m : Step σ PUnit).Plain :=
  ⟨fun _ => ample_ok _, fun _ => rfl⟩

theorem plain_log {notice : Notice} (h : notice.reports = none) : (log notice : Step σ Unit).Plain := by
  refine ⟨fun _ => ample_ok _, fun m => ?_⟩
  simp only [log]
  split
  · simp [reported, Event.reports, h]
  · rfl

theorem plain_bind {s : Step σ α} {next : α → Step σ β} (hs : s.Plain) (hn : ∀ a, (next a).Plain) :
    (s >>= next).Plain := by
  refine ⟨fun m => ?_, fun m => ?_⟩
  · cases ha : (s m).answer with
    | ok a =>
      rw [bind_of_ok ha]
      exact (hn a).ample _
    | error fault =>
      rw [bind_of_error ha]
      exact ample_error (hs.ample m fault ha)
  · cases ha : (s m).answer with
    | ok a =>
      rw [bind_of_ok ha, Outcome.after_events, reported_append, hs.silent, (hn a).silent]
      rfl
    | error fault =>
      rw [bind_of_error ha]
      exact hs.silent m

theorem plain_get {next : Machine σ → Step σ α} (hn : ∀ m, (next m).Plain) :
    (get >>= next).Plain :=
  ⟨fun m => (hn m).ample m, fun m => (hn m).silent m⟩

theorem plain_unless {c : Prop} [Decidable c] {fault : Fault} {s : Step σ α} (h : s.Plain)
    (hf : fault.isShortage = false) :
    (if c then s else throw fault >>= fun (_ : PUnit) => s).Plain := by
  split
  · exact h
  · exact plain_done (ample_error hf)

end Step

namespace Machine

open Step

theorem write_plain (address : Address) (data : List UInt8) :
    (write address data : Step σ Unit).Plain :=
  plain_get fun m => plain_bind (plain_done (m.bytes.write_ample _ _)) fun _ => plain_modify _

theorem writeField_plain (id : EntryId) (field : Entry.Field) (value : Nat) :
    (writeField id field value : Step σ Unit).Plain :=
  plain_get fun m => plain_bind (plain_done (m.bytes.write_ample _ _)) fun _ => plain_modify _

theorem readFloat_plain (v : Value) : (readFloat v : Step σ Single).Plain :=
  plain_get fun m => plain_done (m.bytes.readFloat_ample v)

theorem storeFloat_plain (v : Value) (x : Single) : (storeFloat v x : Step σ Unit).Plain :=
  plain_get fun m => plain_bind (plain_done (m.bytes.storeFloat_ample v x)) fun _ => plain_modify _

theorem readText_plain (v : Value) : (readText v : Step σ String).Plain :=
  plain_get fun m => plain_done (m.bytes.readText_ample v)

theorem floatOf_plain (slot : Slot) : (floatOf slot : Step σ Single).Plain := by
  unfold floatOf
  split
  · exact readFloat_plain _
  · exact plain_pure _

theorem entry_plain (id : EntryId) : (entry id : Step σ Entry).Plain :=
  plain_get fun m => plain_done (Entry.read_ample m.bytes id)

theorem entryName_plain (id : EntryId) : (entryName id : Step σ String).Plain :=
  plain_bind (entry_plain id) fun _ => readText_plain _

theorem setEntryCopy_plain (id : EntryId) (copy : CopyId) :
    (setEntryCopy id copy : Step σ Unit).Plain :=
  plain_get fun m => plain_bind (plain_done (m.copies.get_ample copy)) fun _ => writeField_plain _ _ _

theorem search_plain (name : String) : (search name : Step σ EntryId).Plain :=
  plain_get fun m => plain_done (m.dictionary.search_ample _ _)

theorem changeCell_plain (id : CellId) (change : Cell σ → Cell σ) : (changeCell id change).Plain :=
  plain_get fun m => plain_bind (plain_done ((m.cells.get_ample id).bind fun _ => ample_ok _))
    fun _ => plain_modify _

theorem grow_all_plain (heads : List CellId) : (heads.forM grow : Step σ PUnit).Plain := by
  induction heads with
  | nil => exact plain_pure _
  | cons head rest ih => exact plain_bind (changeCell_plain _ _) fun _ => ih

theorem bindLiteral_plain (cell : CellId) (v : Value) : (bindLiteral cell v : Step σ Unit).Plain :=
  plain_bind (changeCell_plain _ _) fun _ => changeCell_plain _ _

theorem link_plain (source dest : CellId) : (link source dest : Step σ Unit).Plain :=
  plain_get fun m => plain_bind (plain_done (m.cells.get_ample source)) fun _ => changeCell_plain _ _

theorem inline_plain (source dest : CellId) : (inline source dest : Step σ Unit).Plain := by
  refine plain_get fun m => plain_bind (plain_done (m.cells.get_ample source)) fun _ => ?_
  split
  · exact changeCell_plain _ _
  · exact link_plain source dest

theorem beginWord_plain (head : CellId) : (beginWord head : Step σ Unit).Plain := by
  refine plain_get fun m => plain_bind (plain_done (m.cells.get_ample head)) fun _ => ?_
  refine plain_unless ?_ rfl
  have hrest : (do
      let openWords ← m.openWords.push head
      set { m with openWords }
      log (.wordBegun head openWords.depth) : Step σ Unit).Plain :=
    plain_bind (plain_done (m.openWords.push_ample head)) fun _ =>
      plain_bind (plain_set _) fun _ => plain_log rfl
  split
  · exact plain_done (ample_error rfl)
  · exact hrest

theorem endWord_plain : (endWord : Step σ CellId).Plain := by
  refine plain_get fun m => plain_bind (plain_done m.openWords.pop_ample) fun _ =>
    plain_bind (plain_set _) fun _ => ?_
  split
  · exact plain_bind (plain_done (m.cells.get_ample _)) fun _ =>
      plain_bind (plain_log rfl) fun _ => plain_pure _
  · exact plain_pure _

theorem registerStrategy_plain (strategy : Strategy σ) : (registerStrategy strategy).Plain :=
  plain_get fun m => plain_bind (plain_done (m.copies.register_ample strategy)) fun _ =>
    plain_bind (plain_set _) fun _ => plain_bind (plain_log rfl) fun _ => plain_pure _

end Machine
/-- The request uses up bytes, cells or slots, or takes a slot away. -/
def Request.usesRoom : Request σ → Bool
  | .newCell | .createEntry _ | .define _ _ | .boxFloat _ | .boxText _ | .push _ | .pop
  | .popFloat => true
  | _ => false

open Step Machine in
theorem perform_plain {r : Request σ} (h : r.usesRoom = false) : (perform r).Plain := by
  cases r with
  | cell id => exact plain_get fun m => plain_done (m.cells.get_ample id)
  | bind | setPayload => exact changeCell_plain _ _
  | bindLiteral => exact bindLiteral_plain _ _
  | link source dest => exact link_plain source dest
  | inline source dest => exact inline_plain source dest
  | beginWord head => exact beginWord_plain head
  | endWord => exact endWord_plain
  | registerStrategy strategy => exact registerStrategy_plain strategy
  | strategy id => exact plain_get fun m => plain_done (m.copies.get_ample id)
  | entry id => exact entry_plain id
  | entryName id => exact entryName_plain id
  | setEntryCopy id copy => exact setEntryCopy_plain id copy
  | search name => exact search_plain name
  | readFloat v => exact readFloat_plain v
  | storeFloat v x => exact storeFloat_plain v x
  | readText v => exact readText_plain v
  | currentWord | nth => exact plain_get fun _ => plain_pure _
  | noteRegistered => exact plain_log rfl
  | clear => exact plain_modify _
  | print => exact plain_pure _
  | newCell | createEntry | define | boxFloat | boxText | push | pop | popFloat => cases h

end ThreadedCode
