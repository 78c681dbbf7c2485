import ThreadedCode.Proofs.Moves
import ThreadedCode.Proofs.Steps

/-!
What each request can change. A request touches one part of the machine and tells its log only what
it does there; everything else stays as it was.
-/
namespace ThreadedCode

variable {σ : Signature} {α β : Type}

/-- A part of a machine that requests change. -/
inductive Part where
  | nothing
  | bytes
  | cells
  | stack
  | words
  | copies
  /-- The dictionary, whose chains run through the byte arena. -/
  | names

/-- Only this part of the machine has changed. -/
def Part.Frames (m n : Machine σ) : Part → Prop
  | nothing => n = m
  | bytes => ∃ b, n = { m with bytes := b }
  | cells => ∃ c, n = { m with cells := c }
  | stack => ∃ s, n = { m with stack := s }
  | words => ∃ w, n = { m with openWords := w }
  | copies => ∃ t, n = { m with copies := t }
  | names => ∃ b d, n = { m with bytes := b, dictionary := d }

namespace Part

theorem frames_refl (part : Part) (m : Machine σ) : part.Frames m m := by
  cases part <;> simp only [Frames]
  · exact ⟨m.bytes, rfl⟩
  · exact ⟨m.cells, rfl⟩
  · exact ⟨m.stack, rfl⟩
  · exact ⟨m.openWords, rfl⟩
  · exact ⟨m.copies, rfl⟩
  · exact ⟨m.bytes, m.dictionary, rfl⟩

theorem frames_trans {part : Part} {m n o : Machine σ} (hm : part.Frames m n)
    (hn : part.Frames n o) : part.Frames m o := by
  cases part <;> simp only [Frames] at hm hn ⊢
  · exact hn.trans hm
  · obtain ⟨_, rfl⟩ := hm
    obtain ⟨b, rfl⟩ := hn
    exact ⟨b, rfl⟩
  · obtain ⟨_, rfl⟩ := hm
    obtain ⟨c, rfl⟩ := hn
    exact ⟨c, rfl⟩
  · obtain ⟨_, rfl⟩ := hm
    obtain ⟨s, rfl⟩ := hn
    exact ⟨s, rfl⟩
  · obtain ⟨_, rfl⟩ := hm
    obtain ⟨w, rfl⟩ := hn
    exact ⟨w, rfl⟩
  · obtain ⟨_, rfl⟩ := hm
    obtain ⟨t, rfl⟩ := hn
    exact ⟨t, rfl⟩
  · obtain ⟨_, _, rfl⟩ := hm
    obtain ⟨b, d, rfl⟩ := hn
    exact ⟨b, d, rfl⟩

theorem frames_names_of_bytes {m n : Machine σ} (h : bytes.Frames m n) : names.Frames m n := by
  obtain ⟨b, rfl⟩ := h
  exact ⟨b, m.dictionary, rfl⟩

/-- Outside of this part the machines are the same. Names run through the bytes as well. -/
structure Kept (part : Part) (m n : Machine σ) : Prop where
  bytes : part ≠ .bytes → part ≠ .names → n.bytes = m.bytes
  cells : part ≠ .cells → n.cells = m.cells
  stack : part ≠ .stack → n.stack = m.stack
  words : part ≠ .words → n.openWords = m.openWords
  copies : part ≠ .copies → n.copies = m.copies
  dictionary : part ≠ .names → n.dictionary = m.dictionary
  /-- No part has to do with the settings, the depth or the log's listener. -/
  settled : n.settings = m.settings ∧ n.callDepth = m.callDepth ∧ n.verbosity = m.verbosity

theorem Kept.refl (part : Part) (m : Machine σ) : part.Kept m m := by
  constructor <;> simp

theorem Frames.kept {part : Part} {m n : Machine σ} (h : part.Frames m n) : part.Kept m n := by
  cases part <;> simp only [Frames] at h
  · subst h
    exact .refl _ _
  · obtain ⟨_, rfl⟩ := h
    constructor <;> simp
  · obtain ⟨_, rfl⟩ := h
    constructor <;> simp
  · obtain ⟨_, rfl⟩ := h
    constructor <;> simp
  · obtain ⟨_, rfl⟩ := h
    constructor <;> simp
  · obtain ⟨_, rfl⟩ := h
    constructor <;> simp
  · obtain ⟨_, _, rfl⟩ := h
    constructor <;> simp

end Part

/-- On this machine the step changes one part only, and it reports records for the log only. -/
structure Step.Within (part : Part) (s : Step σ α) (m : Machine σ) : Prop where
  frames : part.Frames m (s m).machine
  records : ∃ notices : List Notice, (s m).events = notices.map .logged

namespace Step

variable {part : Part} {m : Machine σ}

theorem within_done (answer : Except Fault α) : (done answer : Step σ α).Within part m :=
  ⟨part.frames_refl m, [], rfl⟩

theorem within_log (notice : Notice) : (log notice : Step σ Unit).Within part m := by
  refine ⟨part.frames_refl m, ?_⟩
  simp only [log]
  split
  · exact ⟨[notice], rfl⟩
  · exact ⟨[], rfl⟩

theorem log_events (notice : Notice) (m : Machine σ) :
    ∃ notices : List Notice, (log notice m).events = notices.map .logged := by
  obtain ⟨-, hrecords⟩ : (log notice).Within .nothing m := within_log notice
  exact hrecords

theorem within_set {n : Machine σ} (h : part.Frames m n) : (set n : Step σ PUnit).Within part m :=
  ⟨h, [], rfl⟩

theorem within_modify {f : Machine σ → Machine σ} (h : part.Frames m (f m)) :
    (modify f : Step σ PUnit).Within part m :=
  ⟨h, [], rfl⟩

theorem within_bind {s : Step σ α} {next : α → Step σ β} (hs : s.Within part m)
    (hn : ∀ a, (s m).answer = .ok a → (next a).Within part (s m).machine) :
    (s >>= next).Within part m := by
  obtain ⟨hf, first, he⟩ := hs
  cases h : (s m).answer with
  | ok a =>
    obtain ⟨hf', rest, he'⟩ := hn a h
    refine ⟨?_, first ++ rest, ?_⟩
    · rw [bind_of_ok h]
      exact Part.frames_trans hf hf'
    · rw [bind_of_ok h, Outcome.after_events, he, he', List.map_append]
  | error fault =>
    refine ⟨?_, first, ?_⟩
    · rw [bind_of_error h]
      exact hf
    · rw [bind_of_error h]
      exact he

theorem within_get_bind {next : Machine σ → Step σ α} (h : (next m).Within part m) :
    (get >>= next).Within part m :=
  ⟨h.frames, h.records⟩

theorem within_lift_bind {answer : Except Fault α} {next : α → Step σ β}
    (h : ∀ a, answer = .ok a → (next a).Within part m) : (liftM answer >>= next).Within part m :=
  within_bind (within_done answer) h

/-- A record for the log leaves the machine where it was. -/
theorem within_unless_log {c : Prop} [Decidable c] {notice : Notice} {s : Step σ α}
    (h : s.Within part m) :
    (if c then s else log notice >>= fun (_ : PUnit) => s).Within part m := by
  split
  · exact h
  · exact within_bind (within_log notice) fun _ _ => h

theorem within_unless_throw {c : Prop} [Decidable c] {fault : Fault} {s : Step σ α}
    (h : s.Within part m) :
    (if c then s else throw fault >>= fun (_ : PUnit) => s).Within part m := by
  split
  · exact h
  · exact within_done _

end Step

namespace Machine

open Step

variable {m : Machine σ}

theorem warnUnlessRoom_within (size : Nat) : (warnUnlessRoom size).Within part m := by
  apply within_get_bind
  split
  · exact within_done _
  · exact within_log _

theorem allocate_within (size : Nat) : (allocate size).Within .bytes m := by
  apply within_bind (warnUnlessRoom_within size)
  intro _ _
  refine within_get_bind (within_lift_bind fun _ _ => ?_)
  exact within_bind (within_modify ⟨_, rfl⟩) fun _ _ => within_done _

theorem allocateCopy_within (data : List UInt8) : (allocateCopy data).Within .bytes m := by
  apply within_bind (warnUnlessRoom_within _)
  intro _ _
  exact within_get_bind (within_bind (within_modify ⟨_, rfl⟩) fun _ _ => within_done _)

theorem write_within (address : Address) (data : List UInt8) :
    (write address data).Within .bytes m :=
  within_get_bind (within_lift_bind fun _ _ => within_modify ⟨_, rfl⟩)

theorem writeField_within (entry : EntryId) (field : Entry.Field) (value : Nat) :
    (writeField entry field value).Within .bytes m :=
  within_get_bind (within_lift_bind fun _ _ => within_modify ⟨_, rfl⟩)

theorem boxFloat_within (x : Single) : (boxFloat x).Within .bytes m :=
  within_bind (allocateCopy_within _) fun _ _ => within_done _

theorem storeFloat_within (value : Value) (x : Single) : (storeFloat value x).Within .bytes m :=
  within_get_bind (within_lift_bind fun _ _ => within_modify ⟨_, rfl⟩)

theorem boxText_within (text : String) : (boxText text).Within .bytes m := by
  simp only [boxText]
  split
  · apply within_bind (allocate_within _)
    intro _ _
    exact within_bind (write_within _ _) fun _ _ => within_done _
  · exact within_get_bind (within_done _)

theorem createEntry_within (cell : CellId) : (createEntry cell).Within .bytes m := by
  refine within_get_bind (within_lift_bind fun _ _ => ?_)
  apply within_bind (allocate_within _)
  intro _ _
  apply within_bind (writeField_within _ _ _)
  intro _ _
  exact within_bind (writeField_within _ _ _) fun _ _ => within_done _

theorem setEntryCopy_within (entry : EntryId) (copy : CopyId) :
    (setEntryCopy entry copy).Within .bytes m :=
  within_get_bind (within_lift_bind fun _ _ => writeField_within _ _ _)

theorem define_within (name : String) (id : EntryId) : (define name id).Within .names m := by
  have hbytes : ∀ {γ : Type} {s : Step σ γ} {m : Machine σ}, s.Within .bytes m → s.Within .names m :=
    fun h => ⟨Part.frames_names_of_bytes h.frames, h.records⟩
  refine within_bind (within_get_bind (within_done _)) fun _ _ => within_unless_throw ?_
  apply within_get_bind
  refine within_bind (hbytes (boxText_within name)) fun _ _ => within_lift_bind fun _ _ => ?_
  apply within_bind (hbytes (writeField_within _ _ _))
  intro _ _
  refine within_bind (hbytes (writeField_within _ _ _)) fun _ _ => within_get_bind ?_
  split
  · apply within_bind (hbytes (writeField_within _ _ _))
    intro _ _
    exact within_bind (within_modify ⟨_, _, rfl⟩) fun _ _ => within_log _
  · exact within_bind (within_modify ⟨_, _, rfl⟩) fun _ _ => within_log _

theorem changeCell_within (id : CellId) (change : Cell σ → Cell σ) :
    (changeCell id change).Within .cells m :=
  within_get_bind (within_lift_bind fun _ _ => within_modify ⟨_, rfl⟩)

theorem grow_all_within (heads : List CellId) : (heads.forM (m := Step σ) grow).Within .cells m := by
  induction heads generalizing m with
  | nil => exact within_done _
  | cons head rest ih => exact within_bind (changeCell_within _ _) fun _ _ => ih

theorem newCell_within : (newCell : Step σ CellId).Within .cells m := by
  refine within_get_bind (within_unless_log (within_lift_bind fun _ _ => ?_))
  refine within_bind (within_set ⟨_, rfl⟩) fun _ _ => ?_
  exact within_bind (grow_all_within _) fun _ _ => within_done _

theorem bindLiteral_within (cell : CellId) (value : Value) :
    (bindLiteral cell value).Within .cells m :=
  within_bind (changeCell_within _ _) fun _ _ => changeCell_within _ _

theorem link_within (source dest : CellId) : (link source dest).Within .cells m :=
  within_get_bind (within_lift_bind fun _ _ => changeCell_within _ _)

theorem inline_within (source dest : CellId) : (inline source dest).Within .cells m := by
  refine within_get_bind (within_lift_bind fun copied _ => ?_)
  split
  · exact changeCell_within _ _
  · exact link_within source dest

theorem beginWord_within (head : CellId) : (beginWord head).Within .words m := by
  refine within_get_bind (within_lift_bind fun _ _ => within_unless_throw ?_)
  split
  · exact within_done _
  · exact within_lift_bind fun _ _ => within_bind (within_set ⟨_, rfl⟩) fun _ _ => within_log _

theorem endWord_within : (endWord : Step σ CellId).Within .words m := by
  refine within_get_bind (within_lift_bind fun _ _ => within_bind (within_set ⟨_, rfl⟩) fun _ _ => ?_)
  split
  · exact within_lift_bind fun _ _ => within_bind (within_log _) fun _ _ => within_done _
  · exact within_done _

theorem registerStrategy_within (strategy : Strategy σ) :
    (registerStrategy strategy).Within .copies m := by
  refine within_get_bind (within_lift_bind fun _ _ => within_bind (within_set ⟨_, rfl⟩) fun _ _ => ?_)
  exact within_bind (within_log _) fun _ _ => within_done _

theorem push_within (slot : Slot) : (push slot).Within .stack m :=
  within_get_bind (within_unless_log (within_lift_bind fun _ _ => within_set ⟨_, rfl⟩))

theorem pop_within : (pop : Step σ Slot).Within .stack m := by
  apply within_get_bind
  split
  · refine within_bind (within_log _) fun _ _ => within_lift_bind fun _ _ => ?_
    exact within_bind (within_set ⟨_, rfl⟩) fun _ _ => within_done _
  · exact within_lift_bind fun _ _ => within_bind (within_set ⟨_, rfl⟩) fun _ _ => within_done _

theorem floatOf_within (slot : Slot) : (floatOf slot : Step σ Single).Within part m := by
  simp only [floatOf]
  split
  · exact within_get_bind (within_done _)
  · exact within_done _

theorem popFloat_within : (popFloat : Step σ Single).Within .stack m := by
  apply within_get_bind
  split
  · exact within_done _
  · refine within_unless_throw (within_bind (floatOf_within _) fun _ _ => ?_)
    exact within_bind pop_within fun _ _ => within_done _

theorem pushLiteral_within (value : Value) : (pushLiteral value : Step σ Unit).Within .stack m := by
  simp only [pushLiteral]
  split
  · exact within_bind (within_get_bind (within_done _)) fun _ _ => push_within _
  · exact within_bind (within_done _) fun _ _ => push_within _

end Machine

/-- The part of a machine that a request can change. -/
def Request.part : Request σ → Part
  | .newCell | .bind _ _ | .setPayload _ _ | .bindLiteral _ _ | .link _ _ | .inline _ _ => .cells
  | .beginWord _ | .endWord => .words
  | .registerStrategy _ => .copies
  | .createEntry _ | .setEntryCopy _ _ | .boxFloat _ | .storeFloat _ _ | .boxText _ => .bytes
  | .define _ _ => .names
  | .push _ | .pop | .popFloat | .clear => .stack
  | .cell _ | .currentWord | .strategy _ | .entry _ | .entryName _ | .search _ | .noteRegistered _
  | .readFloat _ | .readText _ | .nth _ | .print _ => .nothing

open Step Machine in
theorem perform_within (r : Request σ) (m : Machine σ) : (perform r).Within r.part m := by
  cases r with
  | newCell => exact newCell_within
  | cell id => exact within_get_bind (within_done _)
  | bind cell procedure => exact changeCell_within _ _
  | setPayload cell payload => exact changeCell_within _ _
  | bindLiteral cell value => exact bindLiteral_within _ _
  | link source dest => exact link_within _ _
  | inline source dest => exact inline_within _ _
  | beginWord head => exact beginWord_within _
  | endWord => exact endWord_within
  | currentWord => exact within_get_bind (within_done _)
  | registerStrategy strategy => exact registerStrategy_within _
  | strategy id => exact within_get_bind (within_done _)
  | createEntry cell => exact createEntry_within _
  | entry id => exact within_get_bind (within_done _)
  | entryName id =>
    exact within_bind (within_get_bind (within_done _)) fun _ _ => within_get_bind (within_done _)
  | setEntryCopy entry copy => exact setEntryCopy_within _ _
  | define name entry => exact define_within _ _
  | search name => exact within_get_bind (within_done _)
  | noteRegistered count => exact within_log _
  | boxFloat x => exact boxFloat_within _
  | readFloat value => exact within_get_bind (within_done _)
  | storeFloat value x => exact storeFloat_within _ _
  | boxText text => exact boxText_within _
  | readText value => exact within_get_bind (within_done _)
  | push slot => exact push_within _
  | pop => exact pop_within
  | popFloat => exact popFloat_within
  | nth n => exact within_get_bind (within_done _)
  | clear => exact within_modify ⟨_, rfl⟩
  | print line => exact within_done _

theorem perform_kept (r : Request σ) (m : Machine σ) : r.part.Kept m (perform r m).machine :=
  (perform_within r m).frames.kept

theorem Machine.pushLiteral_kept (value : Value) (m : Machine σ) :
    Part.stack.Kept m (pushLiteral value m).machine :=
  (pushLiteral_within value).frames.kept

/-- A strategy gets the next number, while there is room for it. -/
theorem Machine.registerStrategy_cases (strategy : Strategy σ) (m : Machine σ) :
    (m.copies.rows.length < CopyTable.capacity ∧
      (registerStrategy strategy m).answer = .ok ⟨m.copies.rows.length⟩ ∧
      (registerStrategy strategy m).machine = { m with copies := ⟨m.copies.rows ++ [strategy]⟩ }) ∨
    (CopyTable.capacity ≤ m.copies.rows.length ∧
      (registerStrategy strategy m).answer = .error .copyTableFull ∧
      (registerStrategy strategy m).machine = m) := by
  simp only [registerStrategy, Step.bind_apply, Step.get_apply, Step.lift_apply, Outcome.bind_ok,
    Outcome.after_nil, CopyTable.register]
  by_cases hroom : m.copies.rows.length < CopyTable.capacity
  · rw [if_pos hroom]
    exact .inl ⟨hroom, rfl, rfl⟩
  · rw [if_neg hroom]
    exact .inr ⟨Nat.le_of_not_lt hroom, rfl, rfl⟩

@[simp] theorem serve_answer (r : Request σ) (m : Machine σ) :
    (serve r m).answer = (perform r m).answer := by
  rfl

@[simp] theorem serve_machine (r : Request σ) (m : Machine σ) :
    (serve r m).machine = (perform r m).machine := rfl

/-- Serving a request leaves its records, and behind them the request with its answer. -/
theorem serve_events (r : Request σ) (m : Machine σ) : ∃ notices : List Notice,
    (serve r m).events = notices.map .logged ++ [.served r (perform r m).answer] := by
  obtain ⟨notices, h⟩ := (perform_within r m).records
  refine ⟨notices, ?_⟩
  rw [← h]
  rfl

/-- A move serves a request, or it changes the stack and the depth of nesting at most. -/
theorem Move.quiet_or_served {given : Value → Prop} {m n : Machine σ} {events : List (Event σ)}
    (h : Move given m events n) :
    (∃ (notices : List Notice) (stack : Stack) (callDepth : Nat), events = notices.map .logged ∧
      n = { m with stack, callDepth }) ∨
    ∃ (r : Request σ) (notices : List Notice),
      events = notices.map .logged ++ [.served r (perform r m).answer] ∧ n = (perform r m).machine := by
  cases h with
  | served r =>
    obtain ⟨notices, he⟩ := serve_events r m
    exact .inr ⟨r, notices, he, rfl⟩
  | literal v _ =>
    obtain ⟨⟨s, hs⟩, notices, he⟩ := Machine.pushLiteral_within (m := m) v
    exact .inl ⟨notices, s, m.callDepth, he, hs⟩
  | noted notice =>
    obtain ⟨notices, he⟩ := Step.log_events notice m
    exact .inl ⟨notices, m.stack, m.callDepth, he, rfl⟩
  | deeper => exact .inl ⟨[], m.stack, m.callDepth + 1, rfl, rfl⟩
  | back => exact .inl ⟨[], m.stack, m.callDepth - 1, rfl, rfl⟩

end ThreadedCode
