import Mathlib.Algebra.Group.Nat.Defs
import ThreadedCode.Proofs.Guarded
import ThreadedCode.Proofs.Freshness
import ThreadedCode.Proofs.Layout
import ThreadedCode.Proofs.Memory
import ThreadedCode.Proofs.Stacks

/-!
The guards hold. An arena or a table that is filled within its bounds is read and written without a
panic, whatever handles are used and whatever its bytes say, and the counters of a dictionary run out
of bytes before they run out of bits.
-/
namespace ThreadedCode

variable {σ : Signature} {α β : Type}

theorem Word.decode_lt (bytes : List UInt8) : Word.decode bytes < 256 ^ bytes.length := by
  induction bytes with
  | nil => exact Nat.one_pos
  | cons b rest ih =>
    have hb := b.toNat_lt
    rw [Word.decode, List.length_cons, Nat.pow_succ]
    omega

namespace Guarded

theorem sum_of_lt {limit a b : Nat} (h : a + b < limit) : sum limit a b = some (a + b) := if_pos h

theorem difference_of_le {a b : Nat} (h : b ≤ a) : difference a b = some (a - b) := if_pos h

theorem place_of_lt {size index : Nat} (h : index < size) : place size index = some index := if_pos h

theorem some_bind (a : α) (next : α → Guarded β) :
    ((liftM (some a) : Guarded α) >>= next) = next a := rfl

/-- Where nothing panics the computation goes on as the plain one. -/
theorem sure_bind {answer : Except Fault α} {next : α → Except Fault β} {g : α → Guarded β}
    (h : ∀ a, answer = .ok a → g a = sure (next a)) :
    (sure answer >>= g) = sure (answer >>= next) := by
  cases answer with
  | error fault => rfl
  | ok a => exact h a rfl

/-- The guarded computation does not panic. It ends as the plain one, and with an answer as it should
be. -/
structure Yields (g : Guarded α) (answer : Except Fault α) (Q : α → Prop) : Prop where
  same : g = sure answer
  ok : ∀ a, answer = .ok a → Q a

theorem Yields.bind {g : Guarded α} {answer : Except Fault α} {Q : α → Prop}
    {next : α → Guarded β} {rest : α → Except Fault β} {R : β → Prop} (h : Yields g answer Q)
    (hn : ∀ a, Q a → Yields (next a) (rest a) R) : Yields (g >>= next) (answer >>= rest) R := by
  obtain ⟨rfl, hok⟩ := h
  cases answer with
  | error fault => exact ⟨rfl, nofun⟩
  | ok a => exact hn a (hok a rfl)

theorem yields_answer {a : α} {Q : α → Prop} (h : Q a) : Yields (pure a) (pure a) Q := by
  refine ⟨rfl, ?_⟩
  rintro _ ⟨⟩
  exact h

end Guarded

open Guarded

namespace ByteArena

variable {a : ByteArena}

theorem guardedEnd_eq (a : ByteArena) (start length : Nat) : a.guardedEnd start length =
    sure (if a.covers start length then .ok (start + length) else .error .invalidHandle) := by
  unfold guardedEnd covers rangeEnd?
  by_cases h : start + length < sizeLimit
  · by_cases hu : start + length ≤ a.used
    · simp only [h, hu, if_true, decide_true]
      rfl
    · simp only [h, hu, if_true, if_false, decide_false]
      rfl
  · simp only [h, if_false]
    rfl

theorem guardedAllocate_eq (h : a.used + 1 < sizeLimit) (size : Nat) :
    a.guardedAllocate size = sure (a.allocate size) := by
  unfold guardedAllocate allocate hasRoom rangeEnd?
  by_cases hs : a.used + size < sizeLimit
  · by_cases hc : a.used + size ≤ a.capacity
    · by_cases hw : a.used + 1 < wordLimit
      · simp only [hs, hc, hw, if_true, decide_true, and_self, sum_of_lt h, some_bind]
        rfl
      · simp only [hs, hc, hw, if_true, if_false, decide_true, and_false, sum_of_lt h, some_bind]
        rfl
    · simp only [hs, hc, if_true, if_false, decide_false]
      rfl
  · simp only [hs, if_false]
    rfl

theorem guardedRead_eq (h : a.used ≤ a.capacity) (start length : Nat) :
    a.guardedRead start length = sure (a.read start length) := by
  rw [guardedRead, guardedEnd_eq, read]
  by_cases hc : a.covers start length
  · have hle := (covers_iff.mp hc).1
    have hsize : start + length ≤ a.buffer.size := Nat.le_trans hle h
    simp only [hc, if_true]
    change (liftM (slice a.buffer start (start + length)) : Guarded _) = _
    rw [slice, if_pos ⟨Nat.le_add_right .., hsize⟩]
    rfl
  · simp only [hc]
    rfl

theorem length_read (h : a.used ≤ a.capacity) {start length : Nat} {bytes : List UInt8}
    (hr : a.read start length = .ok bytes) : bytes.length = length := by
  unfold read at hr
  split at hr
  · rename_i hc
    have hle := (covers_iff.mp hc).1
    have hsize : start + length ≤ a.buffer.size := Nat.le_trans hle h
    cases hr
    simp
    omega
  · cases hr

theorem guardedWrite_eq (h : a.used ≤ a.capacity) (start : Nat) (bytes : List UInt8) :
    a.guardedWrite start bytes = sure (a.write start bytes) := by
  rw [guardedWrite, guardedEnd_eq, write]
  by_cases hc : a.covers start bytes.length
  · have hle := (covers_iff.mp hc).1
    have hsize : start + bytes.length ≤ a.buffer.size := Nat.le_trans hle h
    have hfill : fill a.buffer start (start + bytes.length) bytes =
        some (overwrite a.buffer start bytes) :=
      if_pos ⟨Nat.le_add_right .., hsize, (Nat.add_sub_cancel_left ..).symm⟩
    simp only [hc, if_true]
    change ((liftM (fill a.buffer start (start + bytes.length) bytes) : Guarded _) >>= _) = _
    rw [hfill]
    rfl
  · simp only [hc]
    rfl

theorem guardedReadWord_eq (h : a.used ≤ a.capacity) {address : Address} {field : Nat}
    (hp : address.offset + field < sizeLimit) :
    a.guardedReadWord address field = sure (a.readWord address field) := by
  rw [guardedReadWord, sum_of_lt hp, some_bind, guardedRead_eq h]
  refine sure_bind fun bytes hr => ?_
  rw [copied, if_pos (length_read h hr), some_bind]
  rfl

theorem readWord_lt (h : a.used ≤ a.capacity) {address : Address} {field n : Nat}
    (hr : a.readWord address field = .ok n) : n < wordLimit := by
  unfold readWord at hr
  cases hb : a.read (address.offset + field) Word.size with
  | error fault =>
    rw [hb] at hr
    cases hr
  | ok bytes =>
    rw [hb] at hr
    cases hr
    have hlt := Word.decode_lt bytes
    rw [length_read h hb] at hlt
    exact hlt

theorem guardedWriteWord_eq (h : a.used ≤ a.capacity) {address : Address} {field : Nat}
    (hp : address.offset + field < sizeLimit) (value : Nat) :
    a.guardedWriteWord address field value = sure (a.writeWord address field value) := by
  rw [guardedWriteWord, sum_of_lt hp, some_bind, guardedWrite_eq h]
  rfl

theorem guardedReadFloat_eq (h : a.used ≤ a.capacity) (v : Value) :
    a.guardedReadFloat v = sure (a.readFloat v) := by
  refine sure_bind fun address _ => ?_
  rw [guardedRead_eq h]
  refine sure_bind fun bytes hr => ?_
  rw [copied, if_pos (length_read h hr), some_bind]
  rfl

theorem guardedStoreFloat_eq (h : a.used ≤ a.capacity) (v : Value) (x : Single) :
    a.guardedStoreFloat v x = sure (a.storeFloat v x) :=
  sure_bind fun _ _ => guardedWrite_eq h ..

theorem guardedReadText_eq (h : a.used ≤ a.capacity) (v : Value) :
    a.guardedReadText v = sure (a.readText v) := by
  refine sure_bind fun text _ => ?_
  obtain ⟨address, length⟩ := text
  simp only [guardedRead_eq h]
  refine sure_bind fun bytes _ => ?_
  cases String.fromUTF8? ⟨bytes.toArray⟩ with
  | some text => rfl
  | none => rfl

end ByteArena

namespace CellArena

variable {a : CellArena σ}

theorem guardedAllocate_eq (h : a.used < wordLimit) : a.guardedAllocate = sure a.allocate := by
  have hsize : a.used + 1 < sizeLimit := Nat.lt_of_le_of_lt h (by decide)
  unfold guardedAllocate allocate hasRoom
  by_cases hc : a.capacity ≤ a.used
  · have hfull : ¬ a.used < a.capacity := Nat.not_lt.mpr hc
    simp only [hc, hfull, if_true, decide_false]
    rfl
  · have hroom : a.used < a.capacity := Nat.lt_of_not_le hc
    by_cases hw : a.used + 1 < wordLimit
    · simp only [hc, hroom, hw, if_true, if_false, decide_true, and_self, sum_of_lt hsize, some_bind]
      rfl
    · simp only [hc, hw, if_false, and_false, sum_of_lt hsize, some_bind]
      rfl

theorem guardedGet_eq (h : a.used ≤ a.capacity) (id : CellId) :
    a.guardedGet id = sure (a.get id) := by
  unfold guardedGet
  by_cases hu : a.used ≤ id.index
  · simp only [hu, if_true, get, Nat.not_lt.mpr hu, if_false]
    rfl
  · obtain ⟨cell, hc⟩ := get_of_lt h (Nat.lt_of_not_le hu)
    simp only [hu, if_false, hc, (get_eq_ok.mp hc).2]
    rfl

theorem guardedModify_eq (h : a.used ≤ a.capacity) {id : CellId} {guarded : Cell σ → Option (Cell σ)}
    {change : Cell σ → Cell σ}
    (hchange : ∀ cell, a.get id = .ok cell → guarded cell = some (change cell)) :
    a.guardedModify id guarded = sure (a.modify id change) := by
  rw [guardedModify, guardedGet_eq h]
  refine sure_bind fun cell hc => ?_
  rw [hchange cell hc, some_bind]
  rfl

end CellArena

namespace OpenWords

variable {w : OpenWords}

theorem guardedHeads_eq (h : w.depth ≤ capacity) : w.guardedHeads = some w.heads := if_pos h

theorem guardedPush_eq (h : w.depth ≤ capacity) (head : CellId) :
    w.guardedPush head = sure (w.push head) := by
  unfold guardedPush push
  rcases Nat.lt_or_eq_of_le h with hlt | heq
  · have hsize : w.depth + 1 < sizeLimit := Nat.lt_of_le_of_lt hlt (by decide)
    simp only [Nat.ne_of_lt hlt, hlt, if_true, if_false, place_of_lt hlt, sum_of_lt hsize, some_bind]
    rfl
  · simp only [heq, Nat.lt_irrefl, if_true, if_false]
    rfl

theorem guardedPop_eq (h : w.depth ≤ capacity) : w.guardedPop = sure w.pop := by
  unfold guardedPop pop
  cases hw : w.heads with
  | nil => rfl
  | cons head outer =>
    have hpos : 1 ≤ w.depth := by simp [depth, hw]
    have htop : w.depth - 1 < capacity := by omega
    simp only [difference_of_le hpos, place_of_lt htop, some_bind]
    rfl

theorem guardedCurrent_eq (h : w.depth ≤ capacity) : w.guardedCurrent = some w.current? := by
  unfold guardedCurrent current?
  cases hw : w.heads with
  | nil => rfl
  | cons head outer =>
    have hpos : 1 ≤ w.depth := by simp [depth, hw]
    have htop : w.depth - 1 < capacity := by omega
    simp only [place_of_lt htop]
    rfl

end OpenWords

theorem CopyTable.guardedRegister_eq {t : CopyTable σ} (h : t.rows.length ≤ capacity)
    (strategy : Strategy σ) : t.guardedRegister strategy = sure (t.register strategy) := by
  unfold guardedRegister register
  rcases Nat.lt_or_eq_of_le h with hlt | heq
  · have hsize : t.rows.length + 1 < sizeLimit := Nat.lt_of_le_of_lt hlt (by decide)
    simp only [Nat.ne_of_lt hlt, hlt, if_true, if_false, place_of_lt hlt, sum_of_lt hsize, some_bind]
    rfl
  · simp only [heq, Nat.lt_irrefl, if_true, if_false]
    rfl

namespace Stack

variable {s : Stack}

theorem guardedPushSlot_eq (h : s.depth ≤ capacity) (slot : Slot) :
    s.guardedPushSlot slot = sure (s.pushSlot slot) := by
  rw [pushSlot_eq, guardedPushSlot]
  rcases Nat.lt_or_eq_of_le h with hlt | heq
  · have hsize : s.depth + 1 < sizeLimit := Nat.lt_of_le_of_lt hlt (by decide)
    simp only [Nat.ne_of_lt hlt, hlt, if_true, if_false, place_of_lt hlt, sum_of_lt hsize, some_bind]
    rfl
  · simp only [heq, Nat.lt_irrefl, if_true, if_false]
    rfl

theorem guardedNth_eq (s : Stack) (n : Nat) : s.guardedNth n = some (s.nth? n) := by
  unfold guardedNth nth?
  by_cases hn : s.depth ≤ n
  · simp only [hn, Nat.not_lt.mpr hn, if_true, if_false]
  · have hlt : n < s.depth := Nat.lt_of_not_le hn
    have hpos : 1 ≤ s.depth := by omega
    have hle : n ≤ s.depth - 1 := by omega
    simp only [hn, hlt, if_true, if_false, difference_of_le hpos, bind, Option.bind,
      difference_of_le hle, pure]

theorem guardedPop_eq (h : s.depth ≤ capacity) : s.guardedPop = sure s.pop := by
  unfold guardedPop pop top? nth?
  by_cases hz : s.depth = 0
  · simp only [hz, Nat.lt_irrefl, if_true, if_false]
    rfl
  · have hpos : 0 < s.depth := Nat.pos_of_ne_zero hz
    have htop : s.depth - 1 < capacity := by omega
    have hslot : s.slots[s.depth - 1]? = some s.slots[s.depth - 1] :=
      Vector.getElem?_eq_getElem htop
    simp only [hz, hpos, if_true, if_false, difference_of_le hpos, some_bind, Nat.sub_zero, hslot]
    rfl

end Stack

/-- The address of the record has a word for its number. -/
def EntryId.Fits (id : EntryId) : Prop := id.address.number < wordLimit

/-- An entry can be named in a word. Of other handles nothing is asked. -/
def Handle.Fits : Handle → Prop
  | .entry id => id.Fits
  | _ => True

instance : (handle : Handle) → Decidable handle.Fits
  | .entry id => inferInstanceAs (Decidable (id.address.number < wordLimit))
  | .float _ | .text _ _ => isTrue trivial

theorem EntryId.Fits.place {id : EntryId} (h : id.Fits) (field : Entry.Field) :
    id.address.offset + field.place < sizeLimit := by
  have hplace : field.place ≤ 16 := by cases field <;> decide
  have hlt : id.address.offset + 1 < wordLimit := h
  have hword : wordLimit + 16 ≤ sizeLimit := by decide
  omega

namespace Entry

variable {bytes : ByteArena} {id : EntryId}

theorem guardedReadField_eq (h : bytes.used ≤ bytes.capacity) (hid : id.Fits) (field : Field) :
    guardedReadField bytes id field = sure (readField bytes id field) :=
  ByteArena.guardedReadWord_eq h (hid.place field)

theorem guardedRead_eq (h : bytes.used ≤ bytes.capacity) (hid : id.Fits) :
    guardedRead bytes id = sure (read bytes id) := by
  simp only [guardedRead, guardedReadField_eq h hid]
  refine sure_bind fun number _ => ?_
  cases CellId.ofNumber? number with
  | none => rfl
  | some cell =>
    refine sure_bind fun copy _ => sure_bind fun name _ => ?_
    cases Address.ofNumber? name with
    | none => rfl
    | some address => exact sure_bind fun _ _ => rfl

theorem guardedNext?_eq (h : bytes.used ≤ bytes.capacity) (hid : id.Fits) :
    guardedNext? bytes id = sure (next? bytes id) := by
  simp only [guardedNext?, guardedReadField_eq h hid]
  exact sure_bind fun _ _ => rfl

/-- Whatever a record says, the entry that it names as the next one can be named in a word. -/
theorem guardedNext?_yields (h : bytes.used ≤ bytes.capacity) (hid : id.Fits) :
    Yields (guardedNext? bytes id) (next? bytes id) fun next => ∀ id, next = some id → id.Fits where
  same := guardedNext?_eq h hid
  ok next hn := by
    rintro id rfl
    unfold next? at hn
    cases hw : readField bytes _ .next with
    | error fault =>
      rw [hw] at hn
      cases hn
    | ok number =>
      rw [hw] at hn
      have hlt : number < wordLimit := ByteArena.readWord_lt h hw
      cases number with
      | zero => cases hn
      | succ offset =>
        cases hn
        exact hlt

theorem guardedNameBytes_eq (h : bytes.used ≤ bytes.capacity) (hid : id.Fits) :
    guardedNameBytes bytes id = sure (nameBytes bytes id) := by
  simp only [guardedNameBytes, guardedRead_eq h hid, ByteArena.guardedRead_eq h]
  exact sure_bind fun _ _ => sure_bind fun _ _ => rfl

end Entry

namespace Dictionary

/-- Every entry that the buckets name can be named in a word, and the counters keep so far below the
number of bytes that are used and below the words. -/
structure Bounded (d : Dictionary) (spare used : Nat) : Prop where
  counted : d.count + spare ≤ used
  word : d.count + spare < wordLimit
  sized : ∀ i : Fin bucketCount, d.buckets[i].size ≤ d.count
  oldest : ∀ (i : Fin bucketCount) id, d.buckets[i].oldest = some id → id.Fits
  newest : ∀ (i : Fin bucketCount) id, d.newest i = some id → id.Fits

variable {bytes : ByteArena} {d : Dictionary}

/-- A chain is followed without a panic wherever it leads, and to entries that can be named. -/
theorem guardedFollow_yields (h : bytes.used ≤ bytes.capacity) (mode : Mode) (query : List UInt8)
    (hops : Nat) {cursor found : Option EntryId} (hc : ∀ id, cursor = some id → id.Fits)
    (hf : ∀ id, found = some id → id.Fits) :
    Yields (guardedFollow bytes mode query hops cursor found)
      (follow bytes mode query hops cursor found) fun last => ∀ id, last = some id → id.Fits := by
  -- On the hops, since a chain can lead in circles.
  induction hops generalizing cursor found with
  | zero => exact yields_answer hf
  | succ hops ih =>
    cases cursor with
    | none => exact yields_answer hf
    | some here =>
      have hhere : here.Fits := hc here rfl
      have hsome : ∀ id, some here = some id → id.Fits := by
        rintro id ⟨⟩
        exact hhere
      have hname : Yields (Entry.guardedNameBytes bytes here) (Entry.nameBytes bytes here)
          fun _ => True := ⟨Entry.guardedNameBytes_eq h hhere, fun _ _ => trivial⟩
      simp only [guardedFollow, follow]
      refine hname.bind fun name _ => ?_
      cases answers mode query name with
      | false => exact (Entry.guardedNext?_yields h hhere).bind fun _ hnext => ih hnext hf
      | true =>
        cases mode with
        | compatible => exact yields_answer hsome
        | strict => exact (Entry.guardedNext?_yields h hhere).bind fun _ hnext => ih hnext hsome

theorem guardedSearch_yields {used spare : Nat} (h : bytes.used ≤ bytes.capacity)
    (hd : d.Bounded spare used) (query : List UInt8) :
    Yields (d.guardedSearch bytes query) (d.search bytes query) EntryId.Fits := by
  have hnone : ∀ id, (none : Option EntryId) = some id → id.Fits := nofun
  refine (guardedFollow_yields h d.mode query _ (hd.oldest (bucketOf d.mode query)) hnone).bind
    fun found hfound => ?_
  cases found with
  | none => exact ⟨rfl, nofun⟩
  | some entry => exact yields_answer (hfound entry rfl)

theorem guardedAppend_eq {used : Nat} (hd : d.Bounded 1 used) (index : Fin bucketCount)
    (entry : EntryId) : d.guardedAppend index entry = some (d.append index entry) := by
  have hsize : (d.buckets.get index).size + 1 < wordLimit :=
    Nat.lt_of_le_of_lt (Nat.succ_le_succ (hd.sized index)) hd.word
  have hcount : d.count + 1 < sizeLimit := Nat.lt_trans hd.word (by decide)
  simp only [guardedAppend, append, sum_of_lt hsize, sum_of_lt hcount]
  rfl

theorem Bounded.append {used : Nat} (hd : d.Bounded 1 used) (index : Fin bucketCount) {entry : EntryId}
    (he : entry.Fits) : (d.append index entry).Bounded 0 used := by
  have hself : (d.append index entry).buckets[index] = ⟨d.buckets[index].size + 1,
      if d.buckets[index].newest.isSome then d.buckets[index].oldest else some entry,
      some entry⟩ := by
    simp [Dictionary.append]
  have hother : ∀ i : Fin bucketCount, i ≠ index →
      (d.append index entry).buckets[i] = d.buckets[i] := by
    intro i hi
    have hne : index.val ≠ i.val := fun h => hi (Fin.ext h.symm)
    simp [Dictionary.append, Vector.getElem_set_ne, hne]
  have hentry : ∀ id, some entry = some id → id.Fits := by
    rintro id ⟨⟩
    exact he
  refine ⟨hd.counted, hd.word, fun i => ?_, fun i id hid => ?_, fun i id hid => ?_⟩
  · by_cases hi : i = index
    · subst hi
      rw [hself]
      exact Nat.succ_le_succ (hd.sized i)
    · rw [hother i hi]
      exact Nat.le_succ_of_le (hd.sized i)
  · by_cases hi : i = index
    · subst hi
      rw [hself] at hid
      simp only at hid
      split at hid
      · exact hd.oldest i id hid
      · exact hentry id hid
    · rw [hother i hi] at hid
      exact hd.oldest i id hid
  · unfold Dictionary.newest at hid
    by_cases hi : i = index
    · subst hi
      rw [hself] at hid
      exact hentry id hid
    · rw [hother i hi] at hid
      exact hd.newest i id hid

end Dictionary
end ThreadedCode
