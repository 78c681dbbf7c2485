import ThreadedCode.Proofs.Lockstep

/-!
What requests look at. Machines may differ in their stacks, in how deeply they execute, and in who
listens to them. Where they share all the rest, and the differences cannot be seen in their stacks,
every request comes out the same on both.
-/
namespace ThreadedCode

variable {σ : Signature} {α : Type} {lens : Lens σ}

/-- Machines that the lens relates share their storage, their words and their tables, and they stay
related whatever becomes of these in both of them. -/
structure Lens.Shares (lens : Lens σ) : Prop where
  parts : ∀ {m n}, lens.related m n → ∃ stack settings callDepth verbosity,
    n = { m with stack, settings, callDepth, verbosity }
  changed : ∀ {m n}, lens.related m n → ∀ (bytes : ByteArena → ByteArena)
    (cells : CellArena σ → CellArena σ) (dictionary : Dictionary → Dictionary)
    (openWords : OpenWords → OpenWords) (copies : CopyTable σ → CopyTable σ),
    lens.related
      { m with
        bytes := bytes m.bytes
        cells := cells m.cells
        dictionary := dictionary m.dictionary
        openWords := openWords m.openWords
        copies := copies m.copies }
      { n with
        bytes := bytes n.bytes
        cells := cells n.cells
        dictionary := dictionary n.dictionary
        openWords := openWords n.openWords
        copies := copies n.copies }
  log : ∀ notice, (Step.log notice : Step σ Unit).Agrees lens (Step.log notice)

namespace Step

theorem set_agrees {m n : Machine σ} (h : lens.related m n) :
    (set m : Step σ PUnit).Agrees lens (set n) :=
  fun _ _ _ => .inr ⟨rfl, h, rfl⟩

theorem modify_agrees {f : Machine σ → Machine σ}
    (h : ∀ m n, lens.related m n → lens.related (f m) (f n)) :
    (modify f : Step σ PUnit).Agrees lens (modify f) :=
  fun m n hr => .inr ⟨rfl, h m n hr, rfl⟩

theorem unless_throw_agrees {c : Prop} [Decidable c] {fault : Fault} {s t : Step σ α}
    (h : s.Agrees lens t) :
    (if c then s else throw fault >>= fun (_ : PUnit) => s).Agrees lens
      (if c then t else throw fault >>= fun (_ : PUnit) => t) := by
  split
  · exact h
  · exact done_agrees _

/-- Serving keeps the same record of the request on both sides. -/
theorem serve_agrees {r : Request σ} (h : (perform r).Agrees lens.strict (perform r)) :
    (serve r).Agrees lens.strict (serve r) :=
  attempt_agrees_of_strict h fun answer =>
    bind_agrees (fun _ _ hr => .inr ⟨rfl, hr, rfl⟩) fun _ => done_agrees answer

end Step

section Shares

variable (hl : lens.Shares)
include hl

namespace Step

/-- Reading a machine goes on alike if what it goes on with does. -/
theorem get_agrees {next next' : Machine σ → Step σ α}
    (h : ∀ m stack settings callDepth verbosity,
      lens.related m { m with stack, settings, callDepth, verbosity } →
      (next m).Agrees lens (next' { m with stack, settings, callDepth, verbosity })) :
    (get >>= next).Agrees lens (get >>= next') := by
  intro m n hr
  obtain ⟨stack, settings, callDepth, verbosity, rfl⟩ := hl.parts hr
  exact h m stack settings callDepth verbosity hr m _ hr

/-- What looks at the shared parts only finds the same. -/
theorem get_agrees_of_eq {next : Machine σ → Step σ α}
    (heq : ∀ m stack settings callDepth verbosity,
      next { m with stack, settings, callDepth, verbosity } = next m)
    (h : ∀ m, (next m).Agrees lens (next m)) : (get >>= next).Agrees lens (get >>= next) := by
  apply get_agrees hl
  intro m stack settings callDepth verbosity _
  rw [heq m stack settings callDepth verbosity]
  exact h m

theorem unless_log_agrees {c : Prop} [Decidable c] {notice : Notice} {s t : Step σ α}
    (h : s.Agrees lens t) :
    (if c then s else log notice >>= fun (_ : PUnit) => s).Agrees lens
      (if c then t else log notice >>= fun (_ : PUnit) => t) := by
  split
  · exact h
  · exact bind_agrees (hl.log notice) fun _ => h

theorem setBytes_agrees (bytes : ByteArena) :
    (modify fun m => { m with bytes } : Step σ PUnit).Agrees lens (modify fun m => { m with bytes }) :=
  modify_agrees fun _ _ hr => hl.changed hr (fun _ => bytes) id id id id

end Step

namespace Machine

open Step

theorem warnUnlessRoom_agrees (size : Nat) :
    (warnUnlessRoom size : Step σ Unit).Agrees lens (warnUnlessRoom size) :=
  get_agrees_of_eq hl (fun _ _ _ _ _ => rfl) fun m => by
    split
    · exact done_agrees _
    · exact hl.log _

theorem allocate_agrees (size : Nat) :
    (allocate size : Step σ Address).Agrees lens (allocate size) :=
  bind_agrees (warnUnlessRoom_agrees hl size) fun _ =>
    get_agrees_of_eq hl (fun _ _ _ _ _ => rfl) fun _ => bind_agrees (done_agrees _) fun _ =>
      bind_agrees (setBytes_agrees hl _) fun _ => done_agrees _

theorem allocateCopy_agrees (data : List UInt8) :
    (allocateCopy data : Step σ Address).Agrees lens (allocateCopy data) :=
  bind_agrees (warnUnlessRoom_agrees hl _) fun _ =>
    get_agrees_of_eq hl (fun _ _ _ _ _ => rfl) fun _ =>
      bind_agrees (setBytes_agrees hl _) fun _ => done_agrees _

theorem write_agrees (address : Address) (data : List UInt8) :
    (write address data : Step σ Unit).Agrees lens (write address data) :=
  get_agrees_of_eq hl (fun _ _ _ _ _ => rfl) fun _ =>
    bind_agrees (done_agrees _) fun _ => setBytes_agrees hl _

theorem writeField_agrees (entry : EntryId) (field : Entry.Field) (value : Nat) :
    (writeField entry field value : Step σ Unit).Agrees lens (writeField entry field value) :=
  get_agrees_of_eq hl (fun _ _ _ _ _ => rfl) fun _ =>
    bind_agrees (done_agrees _) fun _ => setBytes_agrees hl _

theorem readFloat_agrees (value : Value) :
    (readFloat value : Step σ Single).Agrees lens (readFloat value) :=
  get_agrees_of_eq hl (fun _ _ _ _ _ => rfl) fun _ => done_agrees _

theorem boxFloat_agrees (x : Single) : (boxFloat x : Step σ Value).Agrees lens (boxFloat x) :=
  bind_agrees (allocateCopy_agrees hl _) fun _ => done_agrees _

theorem storeFloat_agrees (value : Value) (x : Single) :
    (storeFloat value x : Step σ Unit).Agrees lens (storeFloat value x) :=
  get_agrees_of_eq hl (fun _ _ _ _ _ => rfl) fun _ =>
    bind_agrees (done_agrees _) fun _ => setBytes_agrees hl _

theorem boxText_agrees (text : String) : (boxText text : Step σ Value).Agrees lens (boxText text) := by
  simp only [boxText]
  split
  · apply bind_agrees (allocate_agrees hl _)
    intro _
    exact bind_agrees (write_agrees hl _ _) fun _ => done_agrees _
  · exact get_agrees_of_eq hl (fun _ _ _ _ _ => rfl) fun _ => done_agrees _

theorem readText_agrees (value : Value) :
    (readText value : Step σ String).Agrees lens (readText value) :=
  get_agrees_of_eq hl (fun _ _ _ _ _ => rfl) fun _ => done_agrees _

theorem createEntry_agrees (cell : CellId) :
    (createEntry cell : Step σ EntryId).Agrees lens (createEntry cell) := by
  refine get_agrees_of_eq hl (fun _ _ _ _ _ => rfl) fun _ => bind_agrees (done_agrees _) fun _ => ?_
  apply bind_agrees (allocate_agrees hl _)
  intro _
  apply bind_agrees (writeField_agrees hl _ _ _)
  intro _
  exact bind_agrees (writeField_agrees hl _ _ _) fun _ => done_agrees _

theorem entry_agrees (id : EntryId) : (entry id : Step σ Entry).Agrees lens (entry id) :=
  get_agrees_of_eq hl (fun _ _ _ _ _ => rfl) fun _ => done_agrees _

theorem setEntryCopy_agrees (entry : EntryId) (copy : CopyId) :
    (setEntryCopy entry copy : Step σ Unit).Agrees lens (setEntryCopy entry copy) :=
  get_agrees_of_eq hl (fun _ _ _ _ _ => rfl) fun _ =>
    bind_agrees (done_agrees _) fun _ => writeField_agrees hl _ _ _

/-- The end of a definition: the entry becomes the newest of its bucket. -/
theorem append_agrees (index : Fin Dictionary.bucketCount) (entry : EntryId) (name : String) :
    (do
      modify fun m => { m with dictionary := m.dictionary.append index entry }
      log (.defined name index) : Step σ Unit).Agrees lens (do
      modify fun m => { m with dictionary := m.dictionary.append index entry }
      log (.defined name index)) := by
  refine bind_agrees (modify_agrees fun m n hr => ?_) fun _ => hl.log _
  exact hl.changed hr id id (·.append index entry) id id

theorem define_agrees (name : String) (id : EntryId) :
    (define name id : Step σ Unit).Agrees lens (define name id) := by
  refine bind_agrees (entry_agrees hl id) fun _ => unless_throw_agrees ?_
  refine get_agrees_of_eq hl (fun _ _ _ _ _ => rfl) fun m => ?_
  refine bind_agrees (boxText_agrees hl name) fun _ => bind_agrees (done_agrees _) fun _ => ?_
  apply bind_agrees (writeField_agrees hl _ _ _)
  intro _
  apply bind_agrees (writeField_agrees hl _ _ _)
  intro _
  refine get_agrees_of_eq hl (fun _ _ _ _ _ => rfl) fun n => ?_
  split
  · exact bind_agrees (writeField_agrees hl _ _ _) fun _ => append_agrees hl _ _ _
  · exact append_agrees hl _ _ _

theorem changeCell_agrees (cell : CellId) (change : Cell σ → Cell σ) :
    (changeCell cell change).Agrees lens (changeCell cell change) :=
  get_agrees_of_eq hl (fun _ _ _ _ _ => rfl) fun _ => bind_agrees (done_agrees _) fun cells =>
    modify_agrees fun _ _ hr => hl.changed hr id (fun _ => cells) id id id

theorem grow_all_agrees (heads : List CellId) :
    (heads.forM (m := Step σ) grow).Agrees lens (heads.forM grow) := by
  induction heads with
  | nil => exact done_agrees _
  | cons head rest ih => exact bind_agrees (changeCell_agrees hl _ _) fun _ => ih

theorem newCell_agrees : (newCell : Step σ CellId).Agrees lens newCell := by
  refine get_agrees hl fun m _ _ _ _ hr => ?_
  refine unless_log_agrees hl (bind_agrees (done_agrees _) fun allocated => ?_)
  refine bind_agrees (set_agrees (hl.changed hr id (fun _ => allocated.2) id id id)) fun _ => ?_
  exact bind_agrees (grow_all_agrees hl _) fun _ => done_agrees _

theorem bindLiteral_agrees (cell : CellId) (value : Value) :
    (bindLiteral cell value : Step σ Unit).Agrees lens (bindLiteral cell value) :=
  bind_agrees (changeCell_agrees hl _ _) fun _ => changeCell_agrees hl _ _

theorem link_agrees (source dest : CellId) :
    (link source dest : Step σ Unit).Agrees lens (link source dest) :=
  get_agrees_of_eq hl (fun _ _ _ _ _ => rfl) fun _ =>
    bind_agrees (done_agrees _) fun _ => changeCell_agrees hl _ _

theorem inline_agrees (source dest : CellId) :
    (inline source dest : Step σ Unit).Agrees lens (inline source dest) := by
  refine get_agrees_of_eq hl (fun _ _ _ _ _ => rfl) fun _ => bind_agrees (done_agrees _) fun _ => ?_
  split
  · exact changeCell_agrees hl _ _
  · exact link_agrees hl source dest

theorem beginWord_agrees (head : CellId) :
    (beginWord head : Step σ Unit).Agrees lens (beginWord head) := by
  refine get_agrees hl fun m _ _ _ _ hr => ?_
  refine bind_agrees (done_agrees _) fun _ => unless_throw_agrees ?_
  simp only
  split
  · exact done_agrees _
  · refine bind_agrees (done_agrees _) fun openWords => ?_
    exact bind_agrees (set_agrees (hl.changed hr id id id (fun _ => openWords) id)) fun _ => hl.log _

/-- The end of a word looks at who listens as well. -/
theorem endWord_agrees (hv : ∀ {m n}, lens.related m n → n.verbosity = m.verbosity) :
    (endWord : Step σ CellId).Agrees lens endWord := by
  refine get_agrees hl fun m _ _ _ _ hr => bind_agrees (done_agrees _) fun popped => ?_
  refine bind_agrees (set_agrees (hl.changed hr id id id (fun _ => popped.2) id)) fun _ => ?_
  obtain rfl := hv hr
  simp only
  split
  · exact bind_agrees (done_agrees _) fun _ => bind_agrees (hl.log _) fun _ => done_agrees _
  · exact done_agrees _

theorem registerStrategy_agrees (strategy : Strategy σ) :
    (registerStrategy strategy).Agrees lens (registerStrategy strategy) := by
  refine get_agrees hl fun m _ _ _ _ hr => bind_agrees (done_agrees _) fun registered => ?_
  refine bind_agrees (set_agrees (hl.changed hr id id id id fun _ => registered.2)) fun _ => ?_
  exact bind_agrees (hl.log _) fun _ => done_agrees _

theorem floatOf_agrees (slot : Slot) : (floatOf slot : Step σ Single).Agrees lens (floatOf slot) := by
  simp only [floatOf]
  split
  · exact readFloat_agrees hl _
  · exact done_agrees _

end Machine

open Step Machine in
/-- A request that is none on the stack comes out the same, unless it is the end of a word and somebody
else listens. -/
theorem perform_agrees_of_part {r : Request σ} (hp : r.part ≠ .stack) (hnth : ∀ n, r ≠ .nth n)
    (hv : r = .endWord → ∀ {m n}, lens.related m n → n.verbosity = m.verbosity) :
    (perform r).Agrees lens (perform r) := by
  cases r with
  | newCell => exact newCell_agrees hl
  | bind | setPayload => exact changeCell_agrees hl _ _
  | bindLiteral cell value => exact bindLiteral_agrees hl _ _
  | link source dest => exact link_agrees hl _ _
  | inline source dest => exact inline_agrees hl _ _
  | beginWord head => exact beginWord_agrees hl _
  | endWord => exact endWord_agrees hl (hv rfl)
  | registerStrategy strategy => exact registerStrategy_agrees hl _
  | createEntry cell => exact createEntry_agrees hl _
  | entryName id => exact bind_agrees (entry_agrees hl _) fun _ => readText_agrees hl _
  | setEntryCopy entry copy => exact setEntryCopy_agrees hl _ _
  | define name entry => exact define_agrees hl _ _
  | noteRegistered count => exact hl.log _
  | boxFloat x => exact boxFloat_agrees hl _
  | storeFloat value x => exact storeFloat_agrees hl _ _
  | boxText text => exact boxText_agrees hl _
  | nth n => exact absurd rfl (hnth n)
  | push | pop | popFloat | clear => exact absurd rfl hp
  | print => exact done_agrees _
  | cell | currentWord | strategy | entry | search | readFloat | readText =>
    exact get_agrees_of_eq hl (fun _ _ _ _ _ => rfl) fun _ => done_agrees _

end Shares

/-- Stacks that are alike have the same slots to show, and stay alike. -/
structure Stack.Congruent (like : Stack → Stack → Prop) : Prop where
  depth : ∀ {s t}, like s t → t.depth = s.depth
  nth : ∀ {s t}, like s t → ∀ n, t.nth? n = s.nth? n
  pushSlot : ∀ {s t}, like s t → ∀ slot,
    (∃ fault, s.pushSlot slot = .error fault ∧ t.pushSlot slot = .error fault) ∨
    ∃ s' t', s.pushSlot slot = .ok s' ∧ t.pushSlot slot = .ok t' ∧ like s' t'
  pop : ∀ {s t}, like s t →
    (∃ fault, s.pop = .error fault ∧ t.pop = .error fault) ∨
    ∃ slot s' t', s.pop = .ok (slot, s') ∧ t.pop = .ok (slot, t') ∧ like s' t'
  clear : ∀ {s t}, like s t → like s.clear t.clear

theorem Stack.congruent_eq : Congruent Eq where
  depth h := by rw [h]
  nth h n := by rw [h]
  pushSlot {s t} h slot := by
    subst h
    cases s.pushSlot slot with
    | error fault => exact .inl ⟨fault, rfl, rfl⟩
    | ok pushed => exact .inr ⟨pushed, pushed, rfl, rfl, rfl⟩
  pop {s t} h := by
    subst h
    cases s.pop with
    | error fault => exact .inl ⟨fault, rfl, rfl⟩
    | ok popped => exact .inr ⟨popped.1, popped.2, popped.2, rfl, rfl, rfl⟩
  clear h := by rw [h]

/-- Machines that the lens relates have stacks that are alike, and may get others that are. -/
structure Lens.SharesStack (lens : Lens σ) (like : Stack → Stack → Prop) : Prop extends
    lens.Shares where
  congruent : Stack.Congruent like
  stack : ∀ {m n}, lens.related m n → like m.stack n.stack
  restacked : ∀ {m n}, lens.related m n → ∀ {s t}, like s t →
    lens.related { m with stack := s } { n with stack := t }

section SharesStack

variable {like : Stack → Stack → Prop} (hl : lens.SharesStack like)
include hl

namespace Machine

open Step

theorem push_agrees (slot : Slot) : (push slot : Step σ Unit).Agrees lens (push slot) := by
  refine get_agrees hl.toShares fun m stack _ _ _ hr => ?_
  have hlike : like m.stack stack := hl.stack hr
  simp only [hl.congruent.depth hlike]
  apply unless_log_agrees hl.toShares
  rcases hl.congruent.pushSlot hlike slot with ⟨fault, hs, ht⟩ | ⟨s, t, hs, ht, hst⟩
  · rw [hs, ht]
    exact fun _ _ h => .inr ⟨rfl, h, rfl⟩
  · rw [hs, ht]
    exact fun _ _ _ => .inr ⟨rfl, hl.restacked hr hst, rfl⟩

theorem pop_agrees : (pop : Step σ Slot).Agrees lens pop := by
  refine get_agrees hl.toShares fun m stack settings callDepth verbosity hr => ?_
  have hlike : like m.stack stack := hl.stack hr
  have hpopped : (do
      let popped ← m.stack.pop
      set { m with stack := popped.2 }
      return popped.1 : Step σ Slot).Agrees lens (do
      let popped ← stack.pop
      set { m with stack := popped.2, settings, callDepth, verbosity }
      return popped.1) := by
    rcases hl.congruent.pop hlike with ⟨fault, hs, ht⟩ | ⟨slot, s, t, hs, ht, hst⟩
    · rw [hs, ht]
      exact fun _ _ h => .inr ⟨rfl, h, rfl⟩
    · rw [hs, ht]
      exact fun _ _ _ => .inr ⟨rfl, hl.restacked hr hst, rfl⟩
  have hempty : stack.isEmpty = m.stack.isEmpty := by
    simp only [Stack.isEmpty, hl.congruent.depth hlike]
  simp only [hempty]
  split
  · exact bind_agrees (hl.log _) fun _ => hpopped
  · exact hpopped

theorem popFloat_agrees : (popFloat : Step σ Single).Agrees lens popFloat := by
  refine get_agrees hl.toShares fun m stack settings callDepth verbosity hr => ?_
  have htop : stack.top? = m.stack.top? := hl.congruent.nth (hl.stack hr) 0
  simp only [htop]
  split
  · exact done_agrees _
  · refine unless_throw_agrees (bind_agrees (floatOf_agrees hl.toShares _) fun _ => ?_)
    exact bind_agrees (pop_agrees hl) fun _ => done_agrees _

theorem pushLiteral_agrees (value : Value) :
    (pushLiteral value : Step σ Unit).Agrees lens (pushLiteral value) := by
  simp only [pushLiteral]
  split
  · exact bind_agrees (readFloat_agrees hl.toShares _) fun _ => push_agrees hl _
  · exact bind_agrees (done_agrees _) fun _ => push_agrees hl _

end Machine

open Step Machine in
/-- Every request comes out the same, unless it is the end of a word and somebody else listens. -/
theorem perform_agrees {r : Request σ}
    (hv : r = .endWord → ∀ {m n}, lens.related m n → n.verbosity = m.verbosity) :
    (perform r).Agrees lens (perform r) := by
  cases r with
  | push slot => exact push_agrees hl slot
  | pop => exact pop_agrees hl
  | popFloat => exact popFloat_agrees hl
  | nth n =>
    refine get_agrees hl.toShares fun m stack _ _ _ hr => ?_
    simp only [hl.congruent.nth (hl.stack hr) n]
    exact done_agrees _
  | clear => exact modify_agrees fun _ _ hr => hl.restacked hr (hl.congruent.clear (hl.stack hr))
  | _ =>
    refine perform_agrees_of_part hl.toShares ?_ ?_ hv
    · nofun
    · nofun

end SharesStack

open Step Machine in
/-- So whatever is executed on machines with the same listener can go on side by side. -/
theorem Lens.SharesStack.lockstep {like : Stack → Stack → Prop}
    (hl : lens.strict.SharesStack like)
    (hv : ∀ {m n}, lens.related m n → n.verbosity = m.verbosity) : lens.Lockstep where
  serve _ := serve_agrees (perform_agrees hl fun _ => hv)
  log := hl.log
  literal := pushLiteral_agrees hl
  cells hr := by
    obtain ⟨_, _, _, _, rfl⟩ := hl.parts hr
    rfl
  stack hr := hl.congruent.depth (hl.stack hr)

end ThreadedCode
