import ThreadedCode.Proofs.Revisions
import ThreadedCode.Proofs.Compiling

/-!
What is known of the byte arena whatever handles have been used. A write may go astray, but only among
the bytes handed out, and what has been made the newest entry of a bucket has been written to.
-/
namespace ThreadedCode

variable {σ : Signature} {α β : Type}

namespace Machine

/-- At least so many bytes have been handed out, and those behind them are zero. Among them lies the
newest entry of each bucket, at least up to its link. -/
structure Moored (floor : Nat) (m : Machine σ) : Prop where
  held : ∃ data, m.bytes.Holds data
  deep : floor ≤ m.bytes.used
  newest : ∀ index e, m.dictionary.newest index = some e →
    e.address.offset + Entry.Field.next.place ≤ m.bytes.used

variable {m n : Machine σ} {floor base : Nat}

namespace Moored

theorem of_eq (h : m.Moored floor) (hb : n.bytes = m.bytes) (hd : n.dictionary = m.dictionary) :
    n.Moored floor :=
  ⟨hb ▸ h.held, hb ▸ h.deep, hb ▸ hd ▸ h.newest⟩

theorem mono (h : m.Moored floor) (hle : base ≤ floor) : m.Moored base :=
  ⟨h.held, Nat.le_trans hle h.deep, h.newest⟩

/-- Bytes have been handed out or written. -/
theorem grown (h : m.Moored floor) {b : ByteArena} {data : List UInt8} (hb : b.Holds data)
    (hle : m.bytes.used ≤ b.used) : Moored floor { m with bytes := b } where
  held := ⟨data, hb⟩
  deep := Nat.le_trans h.deep hle
  newest index e he := Nat.le_trans (h.newest index e he) hle

theorem of_empty {b : ByteArena} (hb : m.bytes = b.reset) {mode : Mode}
    (hd : m.dictionary = .empty mode) : m.Moored 0 where
  held := ⟨[], hb ▸ .of_reset b⟩
  deep := Nat.zero_le _
  newest index e he := by
    have hnone : (Dictionary.empty mode).newest index = none := by
      simp only [Dictionary.newest, Dictionary.empty, Bucket.empty]
      exact congrArg Bucket.newest (Vector.getElem_replicate index.isLt)
    rw [hd, hnone] at he
    cases he

end Moored
end Machine

open Machine

namespace Step

/-- Where so many bytes have been handed out, the step keeps the machine moored. -/
def Moors (base : Nat) (s : Step σ α) : Prop :=
  ∀ (m : Machine σ) floor, base ≤ floor → m.Moored floor → (s m).machine.Moored floor

variable {base : Nat}

theorem moors_still {s : Step σ α} (h : ∀ m, (s m).machine = m) : s.Moors base := by
  intro m floor _ hm
  rw [h m]
  exact hm

theorem moors_done (answer : Except Fault α) : (done answer : Step σ α).Moors base :=
  moors_still fun _ => rfl

theorem moors_bind {s : Step σ α} {next : α → Step σ β} (hs : s.Moors base)
    (hn : ∀ a, (next a).Moors base) : (s >>= next).Moors base := by
  intro m floor hle hm
  cases ha : (s m).answer with
  | error fault =>
    rw [bind_of_error ha]
    exact hs m floor hle hm
  | ok a =>
    rw [bind_of_ok ha]
    exact hn a _ floor hle (hs m floor hle hm)

theorem moors_get_bind {next : Machine σ → Step σ α} (h : ∀ m, (next m).Moors base) :
    (get >>= next).Moors base :=
  fun m => h m m

theorem moors_lift_bind {answer : Except Fault α} {next : α → Step σ β}
    (h : ∀ a, answer = .ok a → (next a).Moors base) : (liftM answer >>= next).Moors base := by
  cases answer with
  | error fault => exact moors_still fun _ => rfl
  | ok a => exact h a rfl

end Step

namespace Machine

open Step

variable {m n : Machine σ} {floor base : Nat}

theorem allocate_moors (size : Nat) : (allocate size : Step σ Address).Moors base := by
  intro m floor _ hm
  obtain ⟨data, hdata⟩ := hm.held
  rcases allocate_cases hdata size with ⟨-, fault, events, ha⟩ | ⟨b, events, ha, hheld, hgrown, -⟩
  · rw [ha]
    exact hm
  · rw [ha]
    exact hm.grown hheld (by rw [hgrown.used]; omega)

theorem allocateCopy_moors (data : List UInt8) : (allocateCopy data : Step σ Address).Moors base := by
  intro m floor _ hm
  obtain ⟨old, hold⟩ := hm.held
  rcases allocateCopy_cases hold data with ⟨-, fault, events, ha⟩ | ⟨b, events, ha, hheld, hgrown, -⟩
  · rw [ha]
    exact hm
  · rw [ha]
    exact hm.grown hheld (by rw [hgrown.used]; omega)

/-- A write within the bytes handed out. -/
theorem Moored.written (h : m.Moored floor) {b : ByteArena} {start : Nat} {data : List UInt8}
    (hw : m.bytes.write start data = .ok b) : Moored floor { m with bytes := b } := by
  obtain ⟨old, hold⟩ := h.held
  obtain ⟨new, hnew⟩ := hold.written hw
  exact h.grown hnew (by rw [(ByteArena.grown_write hw).used]; omega)

theorem write_moors (address : Address) (data : List UInt8) :
    (write address data : Step σ Unit).Moors base := by
  intro m floor _ hm
  simp only [write, bind_apply, get_apply, Outcome.bind_ok, Outcome.after_nil, lift_apply]
  cases hw : m.bytes.write address.offset data with
  | error fault => exact hm
  | ok b => exact hm.written hw

/-- Whatever goes on from writing to a record can rely on the bytes up to there. -/
theorem writeField_bind_moors {id : EntryId} {field : Entry.Field} {value : Nat}
    {next : Unit → Step σ α}
    (hn : (next ()).Moors (max base (id.address.offset + field.place + Word.size))) :
    (writeField id field value >>= next).Moors base := by
  intro m floor hle hm
  simp only [writeField, bind_apply, get_apply, Outcome.bind_ok, Outcome.after_nil, lift_apply]
  cases hw : Entry.writeField m.bytes id field value with
  | error fault => exact hm
  | ok b =>
    have hcovered : id.address.offset + field.place + Word.size ≤ b.used := by
      unfold Entry.writeField ByteArena.writeWord ByteArena.write at hw
      split at hw
      · rename_i hc
        cases hw
        exact (ByteArena.covers_iff.mp hc).1
      · cases hw
    have hb := hm.written hw
    have hdeep : Moored (max floor (id.address.offset + field.place + Word.size))
        { m with bytes := b } := ⟨hb.held, Nat.max_le.mpr ⟨hb.deep, hcovered⟩, hb.newest⟩
    exact (hn _ _ (by omega) hdeep).mono (Nat.le_max_left ..)

theorem writeField_moors (id : EntryId) (field : Entry.Field) (value : Nat) :
    (writeField id field value : Step σ Unit).Moors base := by
  rw [← bind_pure (writeField id field value)]
  exact writeField_bind_moors (moors_done _)

theorem boxFloat_moors (x : Single) : (boxFloat x : Step σ Value).Moors base :=
  moors_bind (allocateCopy_moors _) fun _ => moors_done _

theorem storeFloat_moors (value : Value) (x : Single) :
    (storeFloat value x : Step σ Unit).Moors base := by
  cases value with
  | float address => exact write_moors address x.encode
  | _ => exact moors_still fun _ => rfl

theorem boxText_moors (text : String) : (boxText text : Step σ Value).Moors base := by
  by_cases hlen : text.toUTF8.toList.length < wordLimit
  · simp only [boxText, hlen, if_true]
    exact moors_bind (allocate_moors _) fun _ => moors_bind (write_moors _ _) fun _ => moors_done _
  · simp only [boxText, hlen, if_false]
    exact moors_still fun _ => rfl

theorem createEntry_moors (cell : CellId) : (createEntry cell : Step σ EntryId).Moors base := by
  refine moors_get_bind fun m => moors_lift_bind fun _ _ => moors_bind (allocate_moors _) fun _ => ?_
  exact moors_bind (writeField_moors _ _ _) fun _ => moors_bind (writeField_moors _ _ _) fun _ =>
    moors_done _

theorem setEntryCopy_moors (id : EntryId) (copy : CopyId) :
    (setEntryCopy id copy : Step σ Unit).Moors base :=
  moors_get_bind fun _ => moors_lift_bind fun _ _ => writeField_moors id .copy copy.number

/-- An entry that has been written to up to its link can become the newest one. -/
theorem append_moors (index : Fin Dictionary.bucketCount) {id : EntryId}
    (hid : id.address.offset + Entry.Field.next.place ≤ base) : (modify fun m : Machine σ =>
      { m with dictionary := m.dictionary.append index id } : Step σ PUnit).Moors base := by
  intro m floor hle hm
  refine ⟨hm.held, hm.deep, fun other e he => ?_⟩
  have hnewest : (m.dictionary.append index id).newest other =
      if index.val = other.val then some id else m.dictionary.newest other := by
    simp only [Dictionary.newest, Dictionary.append, Fin.getElem_fin, Vector.getElem_set]
    split <;> rfl
  have he : (m.dictionary.append index id).newest other = some e := he
  rw [hnewest] at he
  have hdeep := hm.deep
  split at he
  · cases he
    change id.address.offset + Entry.Field.next.place ≤ m.bytes.used
    omega
  · exact hm.newest other e he

theorem define_moors (name : String) (id : EntryId) : (define name id : Step σ Unit).Moors base := by
  refine moors_bind (moors_get_bind fun m => moors_done _) fun record => ?_
  split
  swap
  · exact moors_still fun _ => rfl
  refine moors_get_bind fun m => moors_bind (boxText_moors name) fun v => moors_lift_bind fun named _ => ?_
  obtain ⟨address, length⟩ := named
  refine moors_bind (writeField_moors _ _ _) fun _ => writeField_bind_moors (moors_get_bind fun k => ?_)
  have hid : id.address.offset + Entry.Field.next.place ≤
      max base (id.address.offset + Entry.Field.nameLength.place + Word.size) := Nat.le_max_right ..
  split
  · exact moors_bind (writeField_moors _ _ _) fun _ =>
      moors_bind (append_moors _ hid) fun _ => moors_still fun _ => rfl
  · exact moors_bind (append_moors _ hid) fun _ => moors_still fun _ => rfl

/-- No request, whatever handles it uses, unmoors a machine. -/
theorem perform_moors (r : Request σ) : (perform r).Moors base := by
  have hother : ∀ m : Machine σ, r.part ≠ .bytes → r.part ≠ .names →
      (perform r m).machine.bytes = m.bytes ∧ (perform r m).machine.dictionary = m.dictionary := by
    intro m hb hn
    have hkept : r.part.Kept m (perform r m).machine := perform_kept r m
    exact ⟨hkept.bytes hb hn, hkept.dictionary hn⟩
  cases r with
  | boxFloat x => exact boxFloat_moors x
  | storeFloat value x => exact storeFloat_moors value x
  | boxText text => exact boxText_moors text
  | createEntry cell => exact createEntry_moors cell
  | setEntryCopy id copy => exact setEntryCopy_moors id copy
  | define name id => exact define_moors name id
  | _ =>
    intro m floor _ hm
    obtain ⟨hb, hd⟩ := hother m (by simp [Request.part]) (by simp [Request.part])
    exact hm.of_eq hb hd

theorem Moored.move {given : Value → Prop} {events : List (Event σ)} (h : m.Moored floor)
    (hm : Move given m events n) : n.Moored floor := by
  rcases hm.quiet_or_served with ⟨notices, stack, depth, -, rfl⟩ | ⟨r, notices, -, rfl⟩
  · exact h.of_eq rfl rfl
  · have hmoors : (perform r).Moors 0 := perform_moors r
    exact hmoors m floor (Nat.zero_le _) h

theorem Moored.start (h : m.Moored floor) (host : Host σ) (p : Program σ α) :
    (p.start host m).machine.Moored floor := by
  have hmoves : Moves (fun _ => False) m _ _ := p.start_moving host m
  exact hmoves.preserve (I := fun _ m => m.Moored floor) (fun _ _ _ _ hm => hm.move) [] h

theorem writeField_of_ok {id : EntryId} {field : Entry.Field} {value : Nat}
    (h : (writeField id field value m).answer = .ok ()) : ∃ b, writeField id field value m =
      ⟨.ok (), { m with bytes := b }, []⟩ ∧ m.bytes.Grown b 0 := by
  simp only [writeField, bind_apply, get_apply, Outcome.bind_ok, Outcome.after_nil, lift_apply] at h ⊢
  cases hw : Entry.writeField m.bytes id field value with
  | error fault =>
    rw [hw] at h
    cases h
  | ok b => exact ⟨b, rfl, ByteArena.grown_write hw⟩

/-- A definition takes the bytes of its name, and makes its entry the newest of the bucket. -/
theorem define_of_ok {data : List UInt8} (hd : m.bytes.Holds data) {name : String} {id : EntryId}
    (h : (define name id m).answer = .ok ()) : ∃ b, (define name id m).machine = { m with
        bytes := b
        dictionary := m.dictionary.append (Definitions.bucket m.dictionary.mode name) id } ∧
      m.bytes.Grown b (name.toUTF8.toList.length + 1) := by
  rw [define] at h ⊢
  obtain ⟨record, -, hrun⟩ := ok_of_bind h
  rw [hrun, Outcome.after_answer] at h
  rw [hrun, Outcome.after_machine]
  change ((_ : Step σ Unit) m).answer = .ok () at h
  change ∃ b, ((_ : Step σ Unit) m).machine = _ ∧ _
  split at h
  swap
  · cases h
  rename_i hnil
  rw [if_pos hnil]
  simp only [bind_apply, get_apply, Outcome.bind_ok, Outcome.after_nil] at h ⊢
  rw [← bind_apply] at h ⊢
  rcases boxText_held hd name with ⟨fault, ha, -, -⟩ | ⟨b, ha, hm, -, hgrown, -, -⟩
  · rw [bind_of_error ha] at h
    cases h
  rw [bind_of_ok ha, hm, Outcome.after_answer] at h
  rw [bind_of_ok ha, hm, Outcome.after_machine]
  simp only [Value.asString, bind_apply, lift_apply, Outcome.bind_ok, Outcome.after_nil] at h ⊢
  rw [← bind_apply] at h ⊢
  obtain ⟨_, hname, -⟩ := ok_of_bind h
  obtain ⟨c, hc, hgrown1⟩ := writeField_of_ok hname
  rw [bind_of_ok hname, hc, Outcome.after_answer] at h
  rw [bind_of_ok hname, hc, Outcome.after_machine]
  obtain ⟨_, hlength, -⟩ := ok_of_bind h
  obtain ⟨d, hd, hgrown2⟩ := writeField_of_ok hlength
  rw [bind_of_ok hlength, hd, Outcome.after_answer] at h
  rw [bind_of_ok hlength, hd, Outcome.after_machine]
  have hall := (hgrown.trans hgrown1).trans hgrown2
  simp only [bind_apply, get_apply, Outcome.bind_ok, Outcome.after_nil] at h ⊢
  cases hn : m.dictionary.newest (Dictionary.bucketOf m.dictionary.mode name.toUTF8.toList) with
  | none => exact ⟨d, rfl, hall⟩
  | some e =>
    rw [hn] at h
    dsimp only at h ⊢
    obtain ⟨_, hlink, -⟩ := ok_of_bind h
    obtain ⟨e', he', hgrown3⟩ := writeField_of_ok hlink
    rw [bind_of_ok hlink, he', Outcome.after_machine]
    exact ⟨e', rfl, hall.trans hgrown3⟩

end Machine

/-- At every moment of every run, whatever handles have been used. -/
theorem Run.moored {host : Host σ} {given : Value → Prop} {past events : List (Event σ)}
    {m n : Machine σ} (h : Run host past m) (hm : Moves given m events n) : n.Moored 0 := by
  refine hm.preserve (I := fun _ m => m.Moored 0) (fun _ _ _ _ hmoored => hmoored.move) past ?_
  refine h.invariant (I := fun _ m => m.Moored 0) ?_ ?_ ?_
  · exact fun bytes cells settings verbosity => .of_empty rfl rfl
  · exact fun past m _ => .of_empty rfl rfl
  · exact fun given past m events n hmoored => hmoored.move

end ThreadedCode
