import ThreadedCode.Proofs.Bounds
import ThreadedCode.Proofs.Records

/-!
Requests do not panic. What that takes of a machine says nothing about its cells, its chains or its
strings: the arenas and the tables are filled within their bounds, and each definition has used up a
byte at least.
-/
namespace ThreadedCode

variable {σ : Signature} {α β : Type}

/-- A buffer has fewer bytes than this. -/
def addressLimit : Nat := 9223372036854775808

namespace Machine

/-- The arenas and the tables are filled within their bounds, and there are bytes and words for so
many more definitions. -/
structure Sturdy (spare : Nat) (m : Machine σ) : Prop where
  held : ∃ data, m.bytes.Holds data
  small : m.bytes.capacity < addressLimit
  room : m.cells.used ≤ m.cells.capacity
  numbered : m.cells.used < wordLimit
  stacked : m.stack.depth ≤ Stack.capacity
  nested : m.openWords.depth ≤ OpenWords.capacity
  listed : m.copies.rows.length ≤ CopyTable.capacity
  defined : m.dictionary.Bounded spare m.bytes.used

variable {m : Machine σ} {spare : Nat}

namespace Sturdy

theorem fits (h : m.Sturdy spare) : m.bytes.used ≤ m.bytes.capacity := by
  obtain ⟨_, hheld⟩ := h.held
  exact hheld.fits

theorem weaken (h : m.Sturdy spare) : m.Sturdy 0 :=
  { h with defined :=
    { h.defined with
      counted := Nat.le_trans (Nat.le_add_right ..) h.defined.counted
      word := Nat.lt_of_le_of_lt (Nat.le_add_right ..) h.defined.word } }

theorem written (h : m.Sturdy spare) {b : ByteArena} {start : Nat} {new : List UInt8}
    (hw : m.bytes.write start new = .ok b) : ({ m with bytes := b } : Machine σ).Sturdy spare := by
  obtain ⟨_, hheld⟩ := h.held
  have hgrown := ByteArena.grown_write hw
  refine { h with held := hheld.written hw, small := ?_, defined := ?_ }
  · change b.capacity < addressLimit
    rw [hgrown.capacity]
    exact h.small
  · change m.dictionary.Bounded spare b.used
    rw [hgrown.used]
    exact h.defined

/-- What is handed out can be named in a word, and if it is a byte at least there is one for another
definition. -/
theorem allocated (h : m.Sturdy spare) {b : ByteArena} {size : Nat} {address : Address}
    (ha : m.bytes.allocate size = .ok (address, b)) :
    EntryId.Fits ⟨address⟩ ∧ ({ m with bytes := b } : Machine σ).Sturdy spare ∧
      (0 < size → ({ m with bytes := b } : Machine σ).Sturdy (spare + 1)) := by
  obtain ⟨_, hheld⟩ := h.held
  obtain ⟨hgives, rfl, rfl⟩ := ByteArena.allocate_eq_ok ha
  obtain ⟨b, hb, hholds, hgrown⟩ := hheld.allocate hgives
  rw [ha] at hb
  obtain ⟨-, rfl⟩ := Prod.mk.inj (Except.ok.inj hb)
  have hcounted := h.defined.counted
  refine ⟨hgives.2, { h with held := ⟨_, hholds⟩, small := h.small, defined := ?_ }, fun hpos =>
    { h with held := ⟨_, hholds⟩, small := h.small, defined := ?_ }⟩
  · exact { h.defined with counted := Nat.le_trans hcounted (Nat.le_add_right ..) }
  · have hword := hgives.2
    refine { h.defined with counted := ?_, word := ?_ }
    · change m.dictionary.count + (spare + 1) ≤ m.bytes.used + size
      omega
    · change m.dictionary.count + (spare + 1) < wordLimit
      omega

/-- Another arena that hands out as many cells. -/
theorem rewired (h : m.Sturdy spare) {a : CellArena σ} (hu : a.used = m.cells.used)
    (hc : a.capacity = m.cells.capacity) : ({ m with cells := a } : Machine σ).Sturdy spare :=
  { h with room := hu ▸ hc ▸ h.room, numbered := hu ▸ h.numbered }

theorem atDepth (h : m.Sturdy spare) (callDepth : Nat) :
    ({ m with callDepth } : Machine σ).Sturdy spare :=
  { h with held := h.held }

end Sturdy
end Machine

open Guarded Machine

namespace GuardedStep

/-- On this machine the guarded step does not panic. It does what the plain one does, which leaves a
sturdy machine, and what it answers is as it should be. -/
structure Safe (m : Machine σ) (g : GuardedStep σ α) (s : Step σ α) (Q : α → Machine σ → Prop) :
    Prop where
  calm : g m = some (s m)
  sturdy : (s m).machine.Sturdy 0
  ok : ∀ a, (s m).answer = .ok a → Q a (s m).machine

variable {m : Machine σ} {spare : Nat} {g : GuardedStep σ α} {s : Step σ α}
  {Q : α → Machine σ → Prop} {next : α → GuardedStep σ β} {rest : α → Step σ β}
  {R : β → Machine σ → Prop}

theorem Safe.mono (h : Safe m g s Q) {Q' : α → Machine σ → Prop} (hq : ∀ a n, Q a n → Q' a n) :
    Safe m g s Q' :=
  ⟨h.calm, h.sturdy, fun a ha => hq a _ (h.ok a ha)⟩

theorem Safe.congr (h : Safe m g s Q) {t : Step σ α} (he : s m = t m) : Safe m g t Q :=
  ⟨h.calm.trans (congrArg some he), he ▸ h.sturdy, he ▸ h.ok⟩

theorem Safe.bind (h : Safe m g s Q) (hn : ∀ a n, Q a n → Safe n (next a) (rest a) R) :
    Safe m (g >>= next) (s >>= rest) R := by
  cases ha : (s m).answer with
  | error fault =>
    have hg : (g >>= next) m = some ⟨.error fault, (s m).machine, (s m).events⟩ := by
      change (g m).bind _ = _
      rw [h.calm, Option.bind_some, ha]
    refine ⟨?_, ?_, ?_⟩
    · rw [hg, Step.bind_of_error ha]
    · rw [Step.bind_of_error ha]
      exact h.sturdy
    · rw [Step.bind_of_error ha]
      nofun
  | ok a =>
    have hnext := hn a _ (h.ok a ha)
    have hg : (g >>= next) m = some ((rest a (s m).machine).after (s m).events) := by
      change (g m).bind _ = _
      rw [h.calm, Option.bind_some, ha]
      simp only [hnext.calm, Option.map_some]
    refine ⟨?_, ?_, ?_⟩
    · rw [hg, Step.bind_of_ok ha]
    · rw [Step.bind_of_ok ha]
      exact hnext.sturdy
    · rw [Step.bind_of_ok ha]
      exact hnext.ok

theorem safe_pure (hm : m.Sturdy spare) {a : α} (hq : Q a m) : Safe m (pure a) (pure a) Q where
  calm := rfl
  sturdy := hm.weaken
  ok := by
    rintro _ ⟨⟩
    exact hq

theorem safe_log (hm : m.Sturdy spare) (notice : Notice) {Q : Unit → Machine σ → Prop} (hq : Q () m) :
    Safe m (GuardedStep.log notice) (Step.log notice) Q where
  calm := rfl
  sturdy := hm.weaken
  ok _ _ := hq

theorem safe_modify {f : Machine σ → Machine σ} (hf : (f m).Sturdy spare) {Q : PUnit → Machine σ → Prop}
    (hq : Q ⟨⟩ (f m)) : Safe m (modify f) (modify f) Q where
  calm := rfl
  sturdy := hf.weaken
  ok _ _ := hq

theorem safe_set {n : Machine σ} (hn : n.Sturdy spare) {Q : PUnit → Machine σ → Prop} (hq : Q ⟨⟩ n) :
    Safe m (set n) (set n) Q where
  calm := rfl
  sturdy := hn.weaken
  ok _ _ := hq

/-- A guarded computation on a part of the machine. -/
theorem safe_guarded (hm : m.Sturdy spare) {g : Guarded α} {answer : Except Fault α}
    (hg : g = sure answer) (hq : ∀ a, answer = .ok a → Q a m) :
    Safe m (liftM g) (liftM answer) Q where
  calm := by
    rw [hg]
    rfl
  sturdy := hm.weaken
  ok := hq

/-- A look at the machine for a guard alone. -/
theorem safe_peek_bind {next : Machine σ → GuardedStep σ β} {s : Step σ β}
    (h : Safe m (next m) s R) : Safe m (get >>= next) s R := by
  refine ⟨?_, h.sturdy, h.ok⟩
  change ((next m m).map fun o => o.after []) = _
  rw [h.calm]
  rfl

theorem safe_get_bind {next : Machine σ → GuardedStep σ β} {rest : Machine σ → Step σ β}
    (h : Safe m (next m) (rest m) R) : Safe m (get >>= next) (get >>= rest) R :=
  (safe_peek_bind h).congr rfl

theorem safe_set_bind {n : Machine σ} {next : PUnit → GuardedStep σ β} {rest : PUnit → Step σ β}
    (h : Safe n (next ⟨⟩) (rest ⟨⟩) R) : Safe m (set n >>= next) (set n >>= rest) R := by
  have hs : (set n >>= rest) m = rest ⟨⟩ n := rfl
  refine ⟨?_, hs ▸ h.sturdy, hs ▸ h.ok⟩
  change ((next ⟨⟩ n).map fun o => o.after []) = _
  rw [h.calm, hs]
  rfl

theorem safe_log_bind (hm : m.Sturdy spare) (notice : Notice) {next : Unit → GuardedStep σ β}
    {rest : Unit → Step σ β} (h : Safe m (next ()) (rest ()) R) :
    Safe m (GuardedStep.log notice >>= next) (Step.log notice >>= rest) R := by
  have hlog : Safe m (GuardedStep.log notice) (Step.log notice) fun _ n => n = m :=
    safe_log hm notice rfl
  refine hlog.bind fun _ n hn => ?_
  subst hn
  exact h

theorem safe_guarded_bind (hm : m.Sturdy spare) {g : Guarded α} {answer : Except Fault α}
    (hg : g = sure answer) (hn : ∀ a, answer = .ok a → Safe m (next a) (rest a) R) :
    Safe m (liftM g >>= next) (liftM answer >>= rest) R := by
  have hlift : Safe m (liftM g) (liftM answer) fun a n => answer = .ok a ∧ n = m :=
    safe_guarded hm hg fun a ha => ⟨ha, rfl⟩
  refine hlift.bind fun a n han => ?_
  obtain ⟨ha, rfl⟩ := han
  exact hn a ha

/-- A refusal, in the guarded form and in the plain one. -/
theorem safe_refused_bind (hm : m.Sturdy spare) {fault : Fault} :
    Safe m (liftM (sure (.error fault) : Guarded α) >>= next)
      (liftM (.error fault : Except Fault α) >>= rest) R :=
  safe_guarded_bind hm rfl nofun

/-- A computation that has nothing to refuse. -/
theorem safe_some {o : Option α} {a : α} (ho : o = some a) (hm : m.Sturdy spare) (hq : Q a m) :
    Safe m (liftM o) (pure a) Q := by
  rw [ho]
  exact (safe_pure hm hq).congr rfl

/-- A guard that the plain step does not have. -/
theorem safe_some_bind {o : Option α} {a : α} (ho : o = some a) {s : Step σ β}
    (h : Safe m (next a) s R) : Safe m (liftM o >>= next) s R := by
  refine ⟨?_, h.sturdy, h.ok⟩
  rw [ho]
  change ((next a m).map fun o => o.after []) = _
  rw [h.calm]
  rfl

end GuardedStep

namespace Machine

open GuardedStep

variable {m : Machine σ} {spare : Nat}

theorem allocate_safe (hm : m.Sturdy spare) (size : Nat) :
    Safe m (guardedAllocate size) (allocate size) fun address n =>
      EntryId.Fits ⟨address⟩ ∧ n.Sturdy spare ∧ (0 < size → n.Sturdy (spare + 1)) := by
  obtain ⟨events, hwarn⟩ := warnUnlessRoom_apply size m
  have hwarned : Safe m (liftM (warnUnlessRoom size : Step σ Unit)) (warnUnlessRoom size)
      fun _ n => n = m := by
    refine ⟨rfl, ?_, fun _ _ => ?_⟩
    · rw [hwarn]
      exact hm.weaken
    · rw [hwarn]
  refine hwarned.bind fun _ n hn => ?_
  subst hn
  have hsize : n.bytes.used + 1 < sizeLimit := by
    have hsmall : n.bytes.used < addressLimit := Nat.lt_of_le_of_lt hm.fits hm.small
    exact Nat.lt_of_le_of_lt hsmall (by decide)
  refine safe_get_bind <| safe_guarded_bind hm (ByteArena.guardedAllocate_eq hsize size)
    fun handed ha => ?_
  obtain ⟨address, b⟩ := handed
  obtain ⟨hfits, hkept, hspare⟩ := hm.allocated ha
  have hmodify : Safe n (modify fun m => { m with bytes := b }) (modify fun m => { m with bytes := b })
      fun _ o => o = { n with bytes := b } := safe_modify hkept rfl
  refine hmodify.bind fun _ o ho => ?_
  subst ho
  exact safe_pure hkept ⟨hfits, hkept, hspare⟩

theorem write_safe (hm : m.Sturdy spare) (address : Address) (data : List UInt8) :
    Safe m (guardedWrite address data) (write address data) fun _ n => n.Sturdy spare :=
  safe_get_bind <| safe_guarded_bind hm (ByteArena.guardedWrite_eq hm.fits ..) fun _ hb =>
    safe_modify (hm.written hb) (hm.written hb)

theorem writeField_safe (hm : m.Sturdy spare) {id : EntryId} (hid : id.Fits) (field : Entry.Field)
    (value : Nat) :
    Safe m (guardedWriteField id field value) (writeField id field value) fun _ n => n.Sturdy spare :=
  safe_get_bind <| safe_guarded_bind hm (ByteArena.guardedWriteWord_eq hm.fits (hid.place field) value)
    fun _ hb => safe_modify (hm.written hb) (hm.written hb)

theorem storeFloat_safe (hm : m.Sturdy spare) (v : Value) (x : Single) :
    Safe m (guardedStoreFloat v x) (storeFloat v x) fun _ n => n.Sturdy spare := by
  refine safe_get_bind <| safe_guarded_bind hm (ByteArena.guardedStoreFloat_eq hm.fits v x)
    fun b hb => ?_
  have hwrite : ∃ address, m.bytes.write address x.encode = .ok b := by
    unfold ByteArena.storeFloat at hb
    cases ha : v.asFloat with
    | error fault =>
      rw [ha] at hb
      cases hb
    | ok address =>
      rw [ha] at hb
      exact ⟨address.offset, hb⟩
  obtain ⟨_, hw⟩ := hwrite
  exact safe_modify (hm.written hw) (hm.written hw)

theorem readFloat_safe (hm : m.Sturdy spare) (v : Value) :
    Safe m (guardedReadFloat v) (readFloat v) fun _ n => n.Sturdy spare :=
  safe_get_bind <| safe_guarded hm (ByteArena.guardedReadFloat_eq hm.fits v) fun _ _ => hm

theorem readText_safe (hm : m.Sturdy spare) (v : Value) :
    Safe m (guardedReadText v) (readText v) fun _ n => n.Sturdy spare :=
  safe_get_bind <| safe_guarded hm (ByteArena.guardedReadText_eq hm.fits v) fun _ _ => hm

/-- Handing out bytes and copying others into them is one step after the other. -/
theorem allocateCopy_eq (data : List UInt8) : (allocateCopy data : Step σ Address) =
    allocate data.length >>= fun address => write address data >>= fun _ => pure address := by
  funext m
  obtain ⟨events, hwarn⟩ := warnUnlessRoom_apply data.length m
  simp only [allocateCopy, allocate, write, Step.bind_apply, hwarn, Outcome.bind_ok, Step.get_apply,
    Outcome.after_nil, Step.lift_apply, ByteArena.allocateCopy, Step.modify_apply]
  cases m.bytes.allocate data.length with
  | error fault => rfl
  | ok handed =>
    obtain ⟨address, b⟩ := handed
    simp only [Outcome.bind_ok, Outcome.after_nil, Step.bind_apply, Step.modify_apply,
      Step.pure_apply, Outcome.bind_after, Step.get_apply, Step.lift_apply]
    cases b.write address.offset data with
    | error fault => rfl
    | ok c => rfl

theorem allocateCopy_safe (hm : m.Sturdy spare) (data : List UInt8) :
    Safe m (guardedAllocateCopy data) (allocateCopy data) fun _ n => n.Sturdy spare := by
  rw [allocateCopy_eq]
  exact (allocate_safe hm _).bind fun address n hn => (write_safe hn.2.1 address data).bind
    fun _ o ho => safe_pure ho ho

theorem boxFloat_safe (hm : m.Sturdy spare) (x : Single) :
    Safe m (guardedBoxFloat x) (boxFloat x) fun _ n => n.Sturdy spare :=
  (allocateCopy_safe hm x.encode).bind fun _ _ hn => safe_pure hn hn

/-- A string takes a byte at least. -/
theorem boxText_safe (hm : m.Sturdy spare) (text : String) :
    Safe m (guardedBoxText text) (boxText text) fun _ n => n.Sturdy (spare + 1) := by
  unfold guardedBoxText boxText
  simp only
  split
  · rename_i hlen
    have hsize : text.toUTF8.toList.length + 1 < sizeLimit := Nat.lt_of_le_of_lt hlen (by decide)
    refine safe_some_bind (sum_of_lt hsize) <| (allocate_safe hm _).bind fun address n hn => ?_
    exact (write_safe (hn.2.2 (Nat.succ_pos _)) address _).bind fun _ o ho => safe_pure ho ho
  · exact safe_get_bind <| safe_refused_bind hm

theorem changeCell_safe (hm : m.Sturdy spare) {id : CellId} {guarded : Cell σ → Option (Cell σ)}
    {change : Cell σ → Cell σ}
    (hc : ∀ cell, m.cells.get id = .ok cell → guarded cell = some (change cell)) :
    Safe m (guardedChangeCell id guarded) (changeCell id change) fun _ n => n.Sturdy spare := by
  refine safe_get_bind <| safe_guarded_bind hm (CellArena.guardedModify_eq hm.room hc)
    fun cells hcells => ?_
  have hkept : ({ m with cells } : Machine σ).Sturdy spare := by
    cases hg : m.cells.get id with
    | error fault =>
      rw [CellArena.modify_of_error hg] at hcells
      cases hcells
    | ok cell =>
      rw [CellArena.modify_of_get hg] at hcells
      cases hcells
      exact hm.rewired rfl (CellArena.put_capacity ..)
  exact safe_modify hkept hkept

theorem bind_safe (hm : m.Sturdy spare) (cell : CellId) (procedure : Procedure σ) :
    Safe m (guardedBind cell procedure) (bind cell procedure) fun _ n => n.Sturdy spare :=
  changeCell_safe hm fun _ _ => rfl

theorem setPayload_safe (hm : m.Sturdy spare) (cell : CellId) (payload : Value) :
    Safe m (guardedSetPayload cell payload) (setPayload cell payload) fun _ n => n.Sturdy spare :=
  changeCell_safe hm fun _ _ => rfl

theorem bindLiteral_safe (hm : m.Sturdy spare) (cell : CellId) (value : Value) :
    Safe m (guardedBindLiteral cell value) (bindLiteral cell value) fun _ n => n.Sturdy spare :=
  (bind_safe hm cell .literal).bind fun _ _ hn => setPayload_safe hn cell value

theorem link_safe (hm : m.Sturdy spare) (source dest : CellId) :
    Safe m (guardedLink source dest) (link source dest) fun _ n => n.Sturdy spare :=
  safe_get_bind <| safe_guarded_bind hm (CellArena.guardedGet_eq hm.room source) fun _ _ =>
    changeCell_safe hm fun _ _ => rfl

theorem inline_safe (hm : m.Sturdy spare) (source dest : CellId) :
    Safe m (guardedInline source dest) (inline source dest) fun _ n => n.Sturdy spare := by
  refine safe_get_bind <| safe_guarded_bind hm (CellArena.guardedGet_eq hm.room source)
    fun copied _ => ?_
  split
  · exact changeCell_safe hm fun _ _ => rfl
  · exact link_safe hm source dest

theorem beginWord_safe (hm : m.Sturdy spare) (head : CellId) :
    Safe m (guardedBeginWord head) (beginWord head) fun _ n => n.Sturdy spare := by
  refine safe_get_bind <| safe_guarded_bind hm (CellArena.guardedGet_eq hm.room head) fun _ _ => ?_
  simp only
  split
  · refine safe_some_bind (OpenWords.guardedHeads_eq hm.nested) ?_
    split
    · exact safe_refused_bind hm
    · refine safe_guarded_bind hm (OpenWords.guardedPush_eq hm.nested head) fun openWords hp => ?_
      have hkept : ({ m with openWords } : Machine σ).Sturdy spare := by
        unfold OpenWords.push at hp
        split at hp
        · cases hp
          exact { hm with nested := by assumption }
        · cases hp
      exact safe_set_bind (safe_log hkept _ hkept)
  · exact safe_refused_bind hm

theorem endWord_safe (hm : m.Sturdy spare) :
    Safe m guardedEndWord endWord fun _ n => n.Sturdy spare := by
  refine safe_get_bind <| safe_guarded_bind hm (OpenWords.guardedPop_eq hm.nested)
    fun popped hp => ?_
  obtain ⟨head, openWords⟩ := popped
  have hkept : ({ m with openWords } : Machine σ).Sturdy spare := by
    have hnested := hm.nested
    unfold OpenWords.pop at hp
    split at hp
    · cases hp
    · rename_i hheads
      cases hp
      refine { hm with nested := ?_ }
      simp only [OpenWords.depth, hheads, List.length_cons] at hnested ⊢
      omega
  refine safe_set_bind ?_
  simp only
  split
  · refine safe_guarded_bind hkept (CellArena.guardedGet_eq hkept.room head) fun cell _ => ?_
    exact (safe_log hkept _ hkept).bind fun _ _ hn => safe_pure hn hn
  · exact safe_pure hkept hkept

theorem registerStrategy_safe (hm : m.Sturdy spare) (strategy : Strategy σ) :
    Safe m (guardedRegisterStrategy strategy) (registerStrategy strategy) fun _ n =>
      n.Sturdy spare := by
  refine safe_get_bind <| safe_guarded_bind hm (CopyTable.guardedRegister_eq hm.listed strategy)
    fun registered hr => ?_
  obtain ⟨id, copies⟩ := registered
  have hkept : ({ m with copies } : Machine σ).Sturdy spare := by
    unfold CopyTable.register at hr
    split at hr
    · rename_i hlt
      cases hr
      refine { hm with listed := ?_ }
      rw [List.length_append]
      exact hlt
    · cases hr
  exact safe_set_bind <| (safe_log hkept _ hkept).bind fun _ _ hn => safe_pure hn hn

theorem createEntry_safe (hm : m.Sturdy spare) (cell : CellId) :
    Safe m (guardedCreateEntry cell) (createEntry cell) fun id n => id.Fits ∧ n.Sturdy spare := by
  refine safe_get_bind <| safe_guarded_bind hm (CellArena.guardedGet_eq hm.room cell) fun _ _ => ?_
  refine (allocate_safe hm _).bind fun address n hn => ?_
  obtain ⟨hfits, hkept, -⟩ := hn
  exact (writeField_safe hkept hfits ..).bind fun _ _ ho =>
    (writeField_safe ho hfits ..).bind fun _ _ hp => safe_pure hp ⟨hfits, hp⟩

theorem entry_safe (hm : m.Sturdy spare) {id : EntryId} (hid : id.Fits) :
    Safe m (guardedEntry id) (entry id) fun _ n => n = m :=
  safe_get_bind <| safe_guarded hm (Entry.guardedRead_eq hm.fits hid) fun _ _ => rfl

theorem entryName_safe (hm : m.Sturdy spare) {id : EntryId} (hid : id.Fits) :
    Safe m (guardedEntryName id) (entryName id) fun _ n => n.Sturdy spare :=
  (entry_safe hm hid).bind fun record n hn => by
    subst hn
    exact readText_safe hm record.name

theorem setEntryCopy_safe (hm : m.Sturdy spare) {id : EntryId} (hid : id.Fits) (copy : CopyId) :
    Safe m (guardedSetEntryCopy id copy) (setEntryCopy id copy) fun _ n => n.Sturdy spare :=
  safe_get_bind <| safe_guarded_bind hm rfl fun _ _ => writeField_safe hm hid ..

theorem file_safe (hm : m.Sturdy 1) {id : EntryId} (hid : id.Fits) (name : String)
    (index : Fin Dictionary.bucketCount) :
    Safe m (guardedFile index id >>= fun _ => GuardedStep.log (.defined name index))
      (modify (fun m => { m with dictionary := m.dictionary.append index id }) >>= fun _ =>
        Step.log (.defined name index)) fun _ n => n.Sturdy 0 := by
  have hkept : ({ m with dictionary := m.dictionary.append index id } : Machine σ).Sturdy 0 :=
    { hm with defined := hm.defined.append index hid }
  have hfile : Safe m (guardedFile index id)
      (modify fun m => { m with dictionary := m.dictionary.append index id }) fun _ n =>
        n.Sturdy 0 := by
    have happend := Dictionary.guardedAppend_eq hm.defined index id
    refine safe_peek_bind <| safe_some_bind happend ?_
    exact Safe.congr (safe_modify hkept hkept) rfl
  exact hfile.bind fun _ n hn => safe_log hn _ hn

/-- The string that names an entry has used up a byte, so the counters have not run out. -/
theorem define_safe (hm : m.Sturdy 0) (name : String) {id : EntryId} (hid : id.Fits) :
    Safe m (guardedDefine name id) (define name id) fun _ n => n.Sturdy 0 := by
  refine (entry_safe hm hid).bind fun record n hn => ?_
  subst hn
  simp only
  split
  · refine safe_get_bind ?_
    refine (boxText_safe hm name).bind fun v o ho => ?_
    refine safe_guarded_bind ho rfl fun text _ => ?_
    obtain ⟨address, length⟩ := text
    refine (writeField_safe ho hid ..).bind fun _ p hp => ?_
    refine (writeField_safe hp hid ..).bind fun _ q hq => safe_get_bind ?_
    cases hnewest : q.dictionary.newest
      (Dictionary.bucketOf n.dictionary.mode name.toUTF8.toList) with
    | some newest =>
      have hfits : newest.Fits := hq.defined.newest _ newest hnewest
      exact (writeField_safe hq hfits ..).bind fun _ _ hr => file_safe hr hid name _
    | none => exact file_safe hq hid name _
  · exact safe_refused_bind hm

theorem search_safe (hm : m.Sturdy spare) (name : String) :
    Safe m (guardedSearch name) (search name) fun id n => id.Fits ∧ n.Sturdy spare := by
  obtain ⟨hsearch, hfits⟩ := Dictionary.guardedSearch_yields hm.fits hm.defined name.toUTF8.toList
  exact safe_get_bind <| safe_guarded hm hsearch fun id hid => ⟨hfits id hid, hm⟩

theorem push_safe (hm : m.Sturdy spare) (slot : Slot) :
    Safe m (guardedPush slot) (push slot) fun _ n => n.Sturdy spare := by
  have hpush : Safe m (liftM (m.stack.guardedPushSlot slot) >>= fun stack => set { m with stack })
      (liftM (m.stack.pushSlot slot) >>= fun stack => set { m with stack }) fun _ n =>
        n.Sturdy spare := by
    refine safe_guarded_bind hm (Stack.guardedPushSlot_eq hm.stacked slot) fun stack hs => ?_
    have hkept : ({ m with stack } : Machine σ).Sturdy spare := by
      rw [Stack.pushSlot_eq] at hs
      split at hs
      · rename_i hlt
        cases hs
        exact { hm with stacked := hlt }
      · cases hs
    exact safe_set hkept hkept
  refine safe_get_bind ?_
  simp only
  split
  · exact hpush
  · exact safe_log_bind hm _ hpush

theorem pop_safe (hm : m.Sturdy spare) :
    Safe m guardedPop pop fun _ n => n.Sturdy spare := by
  have hpop : Safe m
      (liftM m.stack.guardedPop >>= fun popped => set { m with stack := popped.2 } >>= fun _ =>
        pure popped.1)
      (liftM m.stack.pop >>= fun popped => set { m with stack := popped.2 } >>= fun _ =>
        pure popped.1) fun _ n => n.Sturdy spare := by
    refine safe_guarded_bind hm (Stack.guardedPop_eq hm.stacked) fun popped hs => ?_
    have hkept : ({ m with stack := popped.2 } : Machine σ).Sturdy spare := by
      have hstacked := hm.stacked
      unfold Stack.pop at hs
      split at hs
      · cases hs
        exact { hm with stacked := Nat.le_trans (Nat.sub_le ..) hstacked }
      · cases hs
    exact safe_set_bind (safe_pure hkept hkept)
  refine safe_get_bind ?_
  simp only
  split
  · exact safe_log_bind hm _ hpop
  · exact hpop

theorem floatOf_safe (hm : m.Sturdy spare) (slot : Slot) :
    Safe m (guardedFloatOf slot) (floatOf slot) fun _ n => n.Sturdy spare := by
  obtain ⟨kind, value, scratch⟩ := slot
  cases value with
  | float address => exact readFloat_safe hm _
  | _ => exact safe_pure hm hm

theorem popFloat_safe (hm : m.Sturdy spare) :
    Safe m guardedPopFloat popFloat fun _ n => n.Sturdy spare := by
  refine safe_get_bind <| safe_some_bind (Stack.guardedNth_eq m.stack 0) ?_
  rw [Stack.top?]
  cases m.stack.nth? 0 with
  | none => exact safe_guarded hm rfl nofun
  | some top =>
    simp only
    split
    · exact (floatOf_safe hm top).bind fun _ _ hn => (pop_safe hn).bind fun _ _ ho =>
        safe_pure ho ho
    · exact safe_refused_bind hm

theorem pushLiteral_safe (hm : m.Sturdy spare) (v : Value) :
    Safe m (guardedPushLiteral v) (pushLiteral v) fun _ n => n.Sturdy spare := by
  cases v with
  | float address => exact (readFloat_safe hm _).bind fun _ _ hn => push_safe hn _
  | _ =>
    have hzero : Safe m (pure Single.zero) (pure Single.zero) fun _ n => n.Sturdy spare :=
      safe_pure hm hm
    exact hzero.bind fun _ _ hn => push_safe hn _

/-- Making a run longer leaves the other extents alone. -/
theorem grow_safe (hm : m.Sturdy spare) {head : CellId}
    (hlt : m.cells.extentAt head.index + 1 < wordLimit) :
    Safe m (guardedGrow head) (grow head) fun _ n => n.Sturdy spare ∧
      ∀ i ≠ head.index, n.cells.extentAt i = m.cells.extentAt i := by
  have hgrow : Safe m (guardedGrow head) (grow head) fun _ n => n.Sturdy spare := by
    refine changeCell_safe hm fun cell hc => ?_
    rw [CellArena.extentAt_of_get hc] at hlt
    simp only [sum_of_lt hlt]
    rfl
  refine ⟨hgrow.calm, hgrow.sturdy, fun a ha => ⟨hgrow.ok a ha, fun i hi => ?_⟩⟩
  cases hc : m.cells.get head with
  | error fault => rw [grow, changeCell_of_error hc]
  | ok cell =>
    rw [grow, changeCell_of_get hc]
    simp only [CellArena.extentAt, CellArena.put_lookup_ne _ _ hi]

theorem growAll_safe {heads : List CellId} (hm : m.Sturdy spare) (hnodup : heads.Nodup)
    (hlt : ∀ head ∈ heads, m.cells.extentAt head.index + 1 < wordLimit) :
    Safe m (heads.forM guardedGrow) (heads.forM grow) fun _ n => n.Sturdy spare := by
  induction heads generalizing m with
  | nil => exact safe_pure hm hm
  | cons head rest ih =>
    obtain ⟨hnew, hrest⟩ := List.nodup_cons.mp hnodup
    refine (grow_safe hm (hlt head (List.mem_cons_self ..))).bind fun _ n hn => ?_
    refine ih hn.1 hrest fun other ho => ?_
    have hne : other.index ≠ head.index := by
      intro heq
      obtain rfl : other = head := congrArg CellId.mk heq
      exact hnew ho
    rw [hn.2 other.index hne]
    exact hlt other (List.mem_cons_of_mem _ ho)

/-- Every open word ends with the last cell, so its extent has not run out before the cells have. -/
theorem newCell_safe (hm : m.Sturdy spare) (hb : m.Built) :
    Safe m guardedNewCell newCell fun _ n => n.Sturdy spare := by
  have hallocate : Safe m
      (liftM m.cells.guardedAllocate >>= fun handed => set { m with cells := handed.2 } >>= fun _ =>
        liftM m.openWords.guardedHeads >>= fun heads => heads.reverse.forM guardedGrow >>= fun _ =>
          pure handed.1)
      (liftM m.cells.allocate >>= fun handed => set { m with cells := handed.2 } >>= fun _ =>
        m.openWords.heads.reverse.forM grow >>= fun _ => pure handed.1) fun _ n =>
          n.Sturdy spare := by
    refine safe_guarded_bind hm (CellArena.guardedAllocate_eq hm.numbered) fun handed ha => ?_
    obtain ⟨id, cells⟩ := handed
    unfold CellArena.allocate at ha
    split at ha
    · rename_i hroom
      cases ha
      have hlt : m.cells.used < m.cells.capacity := by simpa [CellArena.hasRoom] using hroom.1
      have hkept : ({ m with cells := { m.cells with used := m.cells.used + 1 } } :
          Machine σ).Sturdy spare := { hm with room := hlt, numbered := hroom.2 }
      refine safe_set_bind <| safe_some_bind (OpenWords.guardedHeads_eq hm.nested) ?_
      have hnodup : m.openWords.heads.reverse.Nodup := List.nodup_reverse.mpr hb.sound.nodup
      -- Growing one word leaves the others as long as they were, since no word is open twice.
      refine (growAll_safe hkept hnodup fun head hh => ?_).bind fun _ _ hn => safe_pure hn hn
      have hends : head.index + m.cells.extentAt head.index = m.cells.used :=
        hb.sound.ends head (List.mem_reverse.mp hh)
      have hword := hroom.2
      change m.cells.extentAt head.index + 1 < wordLimit
      omega
    · cases ha
  refine safe_get_bind ?_
  simp only
  split
  · exact hallocate
  · exact safe_log_bind hm _ hallocate

end Machine

/-- The entries that a request names can be named in a word. -/
def Request.Fits (r : Request σ) : Prop := ∀ handle ∈ r.handles, handle.Fits

open Machine GuardedStep in
theorem perform_safe {m : Machine σ} (hm : m.Sturdy 0) (hb : m.Built) {r : Request σ} (hr : r.Fits) :
    Safe m (guardedPerform r) (perform r) fun _ n => n.Sturdy 0 := by
  cases r with
  | newCell => exact newCell_safe hm hb
  | cell id => exact safe_get_bind <| safe_guarded hm (CellArena.guardedGet_eq hm.room id) fun _ _ => hm
  | bind cell procedure => exact bind_safe hm cell procedure
  | setPayload cell payload => exact setPayload_safe hm cell payload
  | bindLiteral cell value => exact bindLiteral_safe hm cell value
  | link source dest => exact link_safe hm source dest
  | inline source dest => exact inline_safe hm source dest
  | beginWord head => exact beginWord_safe hm head
  | endWord => exact endWord_safe hm
  | currentWord =>
    exact safe_get_bind <| safe_some (OpenWords.guardedCurrent_eq hm.nested) hm hm
  | registerStrategy strategy => exact registerStrategy_safe hm strategy
  | strategy id => exact safe_get_bind <| safe_guarded hm rfl fun _ _ => hm
  | createEntry cell => exact (createEntry_safe hm cell).mono fun _ _ hn => hn.2
  | entry id => exact (entry_safe hm (hr (.entry id) (List.mem_singleton_self _))).mono fun _ _ hn => hn ▸ hm
  | entryName id => exact entryName_safe hm (hr (.entry id) (List.mem_singleton_self _))
  | setEntryCopy id copy => exact setEntryCopy_safe hm (hr (.entry id) (List.mem_singleton_self _)) copy
  | define name id => exact define_safe hm name (hr (.entry id) (List.mem_singleton_self _))
  | search name => exact (search_safe hm name).mono fun _ _ hn => hn.2
  | noteRegistered count => exact safe_log hm _ hm
  | boxFloat x => exact boxFloat_safe hm x
  | readFloat v => exact readFloat_safe hm v
  | storeFloat v x => exact storeFloat_safe hm v x
  | boxText text => exact (boxText_safe hm text).mono fun _ _ hn => hn.weaken
  | readText v => exact readText_safe hm v
  | push slot => exact push_safe hm slot
  | pop => exact pop_safe hm
  | popFloat => exact popFloat_safe hm
  | nth n => exact safe_get_bind <| safe_some (Stack.guardedNth_eq m.stack n) hm hm
  | clear =>
    have hkept : ({ m with stack := m.stack.clear } : Machine σ).Sturdy 0 :=
      { hm with stacked := Nat.zero_le _ }
    exact safe_modify hkept hkept
  | print line => exact safe_pure hm hm

open Machine in
/-- An entry that is handed out can be named in a word. -/
theorem perform_gives {m : Machine σ} (hm : m.Sturdy 0) (r : Request σ) {id : EntryId}
    (hid : Handle.entry id ∈ (Event.served r (perform r m).answer).gives) : id.Fits := by
  rcases Event.gives_entry hid with ⟨cell, he⟩ | ⟨query, he⟩
  · obtain ⟨rfl, ha⟩ := Event.served.inj he
    exact ((createEntry_safe hm cell).ok id (eq_of_heq ha)).1
  · obtain ⟨rfl, ha⟩ := Event.served.inj he
    exact ((search_safe hm query).ok id (eq_of_heq ha)).1

namespace GuardedStep

open Machine

theorem Safe.attempt {m : Machine σ} {g : GuardedStep σ α} {s : Step σ α}
    {Q : α → Machine σ → Prop} (h : Safe m g s Q) :
    Safe m g.attempt s.attempt fun _ n => n.Sturdy 0 where
  calm := by
    rw [GuardedStep.attempt, h.calm]
    rfl
  sturdy := h.sturdy
  ok _ _ := h.sturdy

end GuardedStep

open Machine GuardedStep in
theorem serve_safe {m : Machine σ} (hm : m.Sturdy 0) (hb : m.Built) {r : Request σ} (hr : r.Fits) :
    Safe m (guardedServe r) (serve r) fun _ n => n.Sturdy 0 := by
  refine (perform_safe hm hb hr).attempt.bind fun answer n hn => ?_
  have hemit : Safe n (liftM (Step.emit (.served r answer))) (Step.emit (.served r answer))
      fun _ o => o.Sturdy 0 := ⟨rfl, hn, fun _ _ => hn⟩
  exact hemit.bind fun _ _ ho => safe_guarded ho rfl fun _ _ => ho

end ThreadedCode
