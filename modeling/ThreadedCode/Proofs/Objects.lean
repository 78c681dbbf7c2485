import ThreadedCode.Machine.Naming
import ThreadedCode.Proofs.Memory

/-!
What the bytes in use stand for: records of entries, boxed floats and boxed strings, one behind
another as they were handed out.
-/
namespace ThreadedCode

theorem toList_loop (b : ByteArray) (i : Nat) (r : List UInt8) :
    ByteArray.toList.loop b i r = r.reverse ++ b.data.toList.drop i := by
  induction hk : b.size - i generalizing i r with
  | zero =>
    have hle : b.data.toList.length ≤ i := by
      change b.data.size ≤ i
      change b.data.size - i = 0 at hk
      omega
    rw [ByteArray.toList.loop, if_neg (by omega), List.drop_of_length_le hle, List.append_nil]
  | succ k ih =>
    have hlt : i < b.size := by omega
    have hlt' : i < b.data.toList.length := hlt
    have hget : b.get! i = b.data.toList[i] := by
      rw [Array.getElem_toList]
      exact getElem!_pos b.data i hlt
    rw [ByteArray.toList.loop, if_pos hlt, ih _ _ (by omega), List.drop_eq_getElem_cons hlt']
    simp [hget]

/-- The bytes of a string tell the string. -/
theorem utf8_inj {s t : String} : s.toUTF8.toList = t.toUTF8.toList ↔ s = t := by
  refine ⟨fun h => ?_, fun h => by rw [h]⟩
  have hs : s.toUTF8.toList = _ := toList_loop s.toUTF8 0 []
  have ht : t.toUTF8.toList = _ := toList_loop t.toUTF8 0 []
  rw [hs, ht] at h
  have hdata : s.toUTF8.data.toList = t.toUTF8.data.toList := by simpa using h
  exact String.toByteArray_inj.mp (ByteArray.ext (Array.toList_inj.mp hdata))

/-- The words of an entry's record. -/
abbrev Record := Entry.Field → Nat

def Record.set (w : Record) (field : Entry.Field) (value : Nat) : Record :=
  fun other => if other = field then value else w other

@[simp] theorem Record.set_self (w : Record) (field : Entry.Field) (value : Nat) :
    w.set field value field = value := if_pos rfl

theorem Record.set_ne (w : Record) {field other : Entry.Field} (value : Nat) (h : other ≠ field) :
    w.set field value other = w other := if_neg h

/-- Something that bytes have been handed out for. -/
inductive Object where
  | record (words : Record)
  | float (x : Single)
  | text (s : String)

namespace Object

def bytes : Object → List UInt8
  | record w => Word.encode (w .cell) ++ Word.encode (w .copy) ++ Word.encode (w .name) ++
      Word.encode (w .nameLength) ++ Word.encode (w .next)
  | float x => x.encode
  | text s => s.toUTF8.toList ++ [0]

theorem bytes_pos (o : Object) : 0 < o.bytes.length := by
  cases o with
  | record w => simp [bytes, Word.size]
  | float x => simp [bytes, Single.encode, Word.size]
  | text s => simp [bytes]

/-- A field is four bytes at its place. -/
theorem record_split (w : Record) (field : Entry.Field) : ∃ pre post, pre.length = field.place ∧
    (record w).bytes = pre ++ Word.encode (w field) ++ post ∧
    ∀ value, (record (w.set field value)).bytes = pre ++ Word.encode value ++ post := by
  cases field with
  | cell => exact ⟨[], _, rfl, by simp [bytes]; rfl, fun v => by simp [bytes, Record.set]⟩
  | copy =>
    exact ⟨Word.encode (w .cell), _, rfl, by simp [bytes]; rfl, fun v => by simp [bytes, Record.set]⟩
  | name =>
    exact ⟨Word.encode (w .cell) ++ Word.encode (w .copy), _, rfl, by simp [bytes]; rfl,
      fun v => by simp [bytes, Record.set]⟩
  | nameLength =>
    exact ⟨Word.encode (w .cell) ++ Word.encode (w .copy) ++ Word.encode (w .name), _, rfl,
      by simp [bytes]; rfl, fun v => by simp [bytes, Record.set]⟩
  | next =>
    exact ⟨Word.encode (w .cell) ++ Word.encode (w .copy) ++ Word.encode (w .name) ++
      Word.encode (w .nameLength), [], rfl, by simp [bytes], fun v => by simp [bytes, Record.set]⟩

end Object

/-- Everything handed out, in order. -/
abbrev Heap := List Object

namespace Heap

variable {heap heap' : Heap} {a b : Address} {o o' x : Object}

def bytes (heap : Heap) : List UInt8 := heap.flatMap Object.bytes

@[simp] theorem bytes_append (heap heap' : Heap) : (heap ++ heap').bytes = heap.bytes ++ heap'.bytes :=
  List.flatMap_append

@[simp] theorem bytes_cons (o : Object) (heap : Heap) :
    bytes (o :: heap) = o.bytes ++ heap.bytes := rfl

@[simp] theorem bytes_nil : bytes [] = [] := rfl

/-- The object that starts at an address. -/
def Places (heap : Heap) (a : Address) (o : Object) : Prop :=
  ∃ before after : Heap, heap = before ++ o :: after ∧ a.offset = before.bytes.length

theorem Places.lt (h : heap.Places a o) : a.offset < heap.bytes.length := by
  obtain ⟨before, after, rfl, ha⟩ := h
  have := o.bytes_pos
  simp
  omega

/-- Objects have bytes, so that an address tells where a heap is to be split. -/
theorem split_unique {before before' after after' : Heap}
    (hs : before ++ o :: after = before' ++ o' :: after')
    (hlen : before.bytes.length = before'.bytes.length) :
    before = before' ∧ o = o' ∧ after = after' := by
  induction before generalizing before' with
  | nil =>
    cases before' with
    | nil =>
      obtain ⟨ho, ha⟩ := List.cons.inj hs
      exact ⟨rfl, ho, ha⟩
    | cons y before' =>
      have := y.bytes_pos
      simp only [bytes_cons, bytes_nil, List.length_append, List.length_nil] at hlen
      omega
  | cons y before ih =>
    cases before' with
    | nil =>
      have := y.bytes_pos
      simp only [bytes_cons, bytes_nil, List.length_append, List.length_nil] at hlen
      omega
    | cons z before' =>
      obtain ⟨rfl, hrest⟩ := List.cons.inj hs
      obtain ⟨rfl, ho, ha⟩ := ih hrest (by simpa using hlen)
      exact ⟨rfl, ho, ha⟩

theorem Places.unique (h : heap.Places a o) (h' : heap.Places a o') : o = o' := by
  obtain ⟨before, after, rfl, ha⟩ := h
  obtain ⟨before', after', hs, ha'⟩ := h'
  exact (split_unique hs (ha.symm.trans ha')).2.1

theorem Places.append (h : heap.Places a o) (more : Heap) : (heap ++ more).Places a o := by
  obtain ⟨before, after, rfl, ha⟩ := h
  exact ⟨before, after ++ more, by simp, ha⟩

theorem places_last (heap : Heap) (o : Object) : (heap ++ [o]).Places ⟨heap.bytes.length⟩ o :=
  ⟨heap, [], rfl, rfl⟩

/-- One object more is the one at the end. -/
theorem Places.of_append (h : (heap ++ [o]).Places a x) :
    heap.Places a x ∨ (a = ⟨heap.bytes.length⟩ ∧ x = o) := by
  obtain ⟨before, after, hs, ha⟩ := h
  rcases List.eq_nil_or_concat after with rfl | ⟨init, last, rfl⟩
  · obtain ⟨hb, hx⟩ := List.append_inj' hs rfl
    obtain rfl : o = x := by simpa using hx
    exact .inr ⟨by cases a; simp_all, rfl⟩
  · refine .inl ⟨before, init, ?_, ha⟩
    have hs' : heap ++ [o] = (before ++ x :: init) ++ [last] := by simp [hs]
    exact (List.append_inj' hs' rfl).1

/-- The heap with another object of the same size at one address. -/
structure Replaced (heap : Heap) (a : Address) (o : Object) (heap' : Heap) : Prop where
  self : heap'.Places a o
  others : ∀ b, b ≠ a → ∀ x, heap'.Places b x ↔ heap.Places b x

theorem replaced_of_split {before after : Heap} (hsize : o'.bytes.length = o.bytes.length) :
    Replaced (before ++ o :: after) ⟨before.bytes.length⟩ o' (before ++ o' :: after) := by
  -- Both directions are the same argument with the two objects exchanged.
  have hmove : ∀ {o o' : Object}, o'.bytes.length = o.bytes.length → ∀ b : Address,
      b ≠ ⟨before.bytes.length⟩ → ∀ x, Places (before ++ o :: after) b x →
      Places (before ++ o' :: after) b x := by
    rintro o o' hsize b hne x ⟨before', after', hs, hb⟩
    rcases List.append_eq_append_iff.mp hs with ⟨mid, rfl, hmid⟩ | ⟨mid, rfl, hmid⟩
    · cases mid with
      | nil =>
        refine absurd ?_ hne
        cases b
        simp_all
      | cons y mid =>
        obtain ⟨rfl, rfl⟩ := List.cons.inj hmid
        refine ⟨before ++ o' :: mid, after', by simp, ?_⟩
        simp only [bytes_append, bytes_cons, List.length_append] at hb ⊢
        omega
    · cases mid with
      | nil =>
        refine absurd ?_ hne
        cases b
        simp_all
      | cons y mid =>
        obtain ⟨rfl, rfl⟩ := List.cons.inj hmid
        exact ⟨before', mid ++ o' :: after, by simp, hb⟩
  exact ⟨⟨before, after, rfl, rfl⟩, fun b hne x => ⟨hmove hsize.symm b hne x, hmove hsize b hne x⟩⟩

end Heap

namespace ByteArena

open Heap

variable {a : ByteArena} {heap : Heap} {at' : Address} {w : Record}

/-- The bytes in use are those of these objects. -/
def Stores (a : ByteArena) (heap : Heap) : Prop := a.Holds heap.bytes

variable {address : Address} {x : Single} {s : String} {id : EntryId}

/-- A piece of an object can be read, and replaced by one that makes another object of it. -/
theorem Stores.piece (h : a.Stores heap) {o : Object} (o' : Object) (hp : heap.Places address o)
    (pre : List UInt8) {mid new : List UInt8} (post : List UInt8) (ho : o.bytes = pre ++ mid ++ post)
    (ho' : o'.bytes = pre ++ new ++ post) (hlen : new.length = mid.length) :
    a.read (address.offset + pre.length) mid.length = .ok mid ∧
    ∃ b heap', a.write (address.offset + pre.length) new = .ok b ∧ b.Stores heap' ∧
      Replaced heap address o' heap' ∧ b.capacity = a.capacity := by
  obtain ⟨before, after, rfl, haddr⟩ := hp
  have hheld : a.Holds ((before.bytes ++ pre) ++ mid ++ (post ++ after.bytes)) := by
    have hb : (before ++ o :: after).bytes = (before.bytes ++ pre) ++ mid ++ (post ++ after.bytes) := by
      simp [ho]
    rw [← hb]
    exact h
  have hread := hheld.read
  obtain ⟨b, hb, hnew, hcap⟩ := hheld.write hlen
  rw [List.length_append, ← haddr] at hread hb
  refine ⟨hread, b, before ++ o' :: after, hb, ?_, ?_, hcap⟩
  · have hb' : (before ++ o' :: after).bytes =
        (before.bytes ++ pre) ++ new ++ (post ++ after.bytes) := by
      simp [ho']
    rw [Stores, hb']
    exact hnew
  · have hsize : o'.bytes.length = o.bytes.length := by simp [ho, ho', hlen]
    have heq : address = ⟨before.bytes.length⟩ := by
      cases address
      simp_all
    rw [heq]
    exact replaced_of_split hsize

theorem Holds.readField {pre post : List UInt8} (h : a.Holds (pre ++ (Object.record w).bytes ++ post))
    (hid : id.address.offset = pre.length) (field : Entry.Field) (hlt : w field < wordLimit) :
    Entry.readField a id field = .ok (w field) := by
  obtain ⟨before, after, hbefore, hbytes, -⟩ := Object.record_split w field
  have hheld : a.Holds (pre ++ before ++ Word.encode (w field) ++ (after ++ post)) := by
    rw [hbytes] at h
    simpa only [List.append_assoc] using h
  have hread := hheld.read
  rw [List.length_append, ← hid, hbefore, Word.length_encode] at hread
  simp only [Entry.readField, readWord, hread]
  exact congrArg Except.ok (Word.decode_encode _ hlt)

theorem Holds.writeField {pre post : List UInt8} (h : a.Holds (pre ++ (Object.record w).bytes ++ post))
    (hid : id.address.offset = pre.length) (field : Entry.Field) (value : Nat) :
    ∃ b, Entry.writeField a id field value = .ok b ∧
      b.Holds (pre ++ (Object.record (w.set field value)).bytes ++ post) := by
  obtain ⟨before, after, hbefore, hbytes, hset⟩ := Object.record_split w field
  have hheld : a.Holds (pre ++ before ++ Word.encode (w field) ++ (after ++ post)) := by
    rw [hbytes] at h
    simpa only [List.append_assoc] using h
  have hlength : (Word.encode value).length = (Word.encode (w field)).length := rfl
  obtain ⟨b, hb, hnew, -⟩ := hheld.write hlength
  rw [List.length_append, ← hid, hbefore] at hb
  refine ⟨b, hb, ?_⟩
  rw [hset value]
  simpa only [List.append_assoc] using hnew

/-- A record lies between what has been handed out before it and what behind it. -/
theorem Stores.record (h : a.Stores heap) (hp : heap.Places id.address (.record w)) :
    ∃ before after : Heap, heap = before ++ .record w :: after ∧
      id.address.offset = before.bytes.length ∧
      a.Holds (before.bytes ++ (Object.record w).bytes ++ after.bytes) := by
  obtain ⟨before, after, rfl, ha⟩ := hp
  refine ⟨before, after, rfl, ha, ?_⟩
  rw [Stores, bytes_append, bytes_cons, ← List.append_assoc] at h
  exact h

theorem Stores.readField (h : a.Stores heap) (hp : heap.Places id.address (.record w))
    (field : Entry.Field) (hlt : w field < wordLimit) :
    Entry.readField a id field = .ok (w field) := by
  obtain ⟨before, after, -, hid, hheld⟩ := h.record hp
  exact hheld.readField hid field hlt

theorem Stores.writeField (h : a.Stores heap) (hp : heap.Places id.address (.record w))
    (field : Entry.Field) (value : Nat) :
    ∃ b heap', Entry.writeField a id field value = .ok b ∧ b.Stores heap' ∧
      Replaced heap id.address (.record (w.set field value)) heap' := by
  obtain ⟨before, after, rfl, hid, hheld⟩ := h.record hp
  obtain ⟨b, hb, hnew⟩ := hheld.writeField hid field value
  have hrecord : id.address = ⟨before.bytes.length⟩ := congrArg Address.mk hid
  refine ⟨b, before ++ .record (w.set field value) :: after, hb, ?_, ?_⟩
  · rw [Stores, bytes_append, bytes_cons, ← List.append_assoc]
    exact hnew
  · rw [hrecord]
    exact replaced_of_split rfl

theorem readFloat_of_read (h : a.read address.offset Word.size = .ok x.encode) :
    a.readFloat (.float address) = .ok x := by
  simp only [ByteArena.readFloat, Value.asFloat, bind, Except.bind, h]
  exact congrArg Except.ok x.decode_encode

theorem Stores.readFloat (h : a.Stores heap) (hp : heap.Places address (.float x)) :
    a.readFloat (.float address) = .ok x :=
  readFloat_of_read (h.piece (.float x) hp [] [] (List.append_nil _).symm
    (List.append_nil _).symm rfl).1

theorem Stores.storeFloat (h : a.Stores heap) (hp : heap.Places address (.float x)) (y : Single) :
    ∃ b heap', a.storeFloat (.float address) y = .ok b ∧ b.Stores heap' ∧
      Replaced heap address (.float y) heap' ∧ b.capacity = a.capacity := by
  obtain ⟨b, heap', hb, hs, hr, hcap⟩ := (h.piece (.float y) hp [] []
    (List.append_nil _).symm (List.append_nil _).symm rfl).2
  rw [List.length_nil, Nat.add_zero] at hb
  exact ⟨b, heap', hb, hs, hr, hcap⟩

/-- The bytes of a string, without the zero behind them. -/
theorem Stores.readBytes (h : a.Stores heap) (hp : heap.Places address (.text s)) :
    a.read address.offset s.toUTF8.toList.length = .ok s.toUTF8.toList :=
  (h.piece (.text s) hp [] [0] rfl rfl rfl).1

end ByteArena
end ThreadedCode
