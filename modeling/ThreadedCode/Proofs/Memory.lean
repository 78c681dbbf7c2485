import ThreadedCode.Machine.Boxing

/-!
The byte arena as a list of bytes that grows at its end. What is handed out is zero until it is
written, and a write replaces bytes in place.
-/
namespace ThreadedCode
namespace ByteArena

variable {a : ByteArena} {data pre mid post new : List UInt8}

/-- The bytes handed out are `data`, and the others are zero. -/
structure Holds (a : ByteArena) (data : List UInt8) : Prop where
  bytes : ∃ spare, a.buffer.toList = data ++ List.replicate spare 0
  used : a.used = data.length
  sized : a.used < sizeLimit

theorem Holds.of_reset (a : ByteArena) : a.reset.Holds [] where
  bytes := ⟨a.capacity, by simp [reset]⟩
  used := rfl
  sized := (by decide : 0 < sizeLimit)

theorem Holds.fits (h : a.Holds data) : a.used ≤ a.capacity := by
  obtain ⟨spare, hs⟩ := h.bytes
  have hlen := congrArg List.length hs
  simp only [Array.length_toList, List.length_append, List.length_replicate] at hlen
  have hu := h.used
  unfold capacity
  omega

/-- The bytes not handed out yet are zero. -/
theorem Holds.zero (h : a.Holds data) {i : Nat} (hi : a.used ≤ i) (hc : i < a.capacity) :
    a.buffer[i]? = some 0 := by
  obtain ⟨spare, hs⟩ := h.bytes
  have hlen := congrArg List.length hs
  simp only [Array.length_toList, List.length_append, List.length_replicate] at hlen
  have hu := h.used
  unfold capacity at hc
  have hlt : i - data.length < spare := by omega
  rw [← Array.getElem?_toList, hs, List.getElem?_append_right (by omega),
    List.getElem?_replicate_of_lt hlt]

theorem covers_iff {start length : Nat} :
    a.covers start length = true ↔ start + length ≤ a.used ∧ start + length < sizeLimit := by
  unfold covers rangeEnd?
  by_cases h : start + length < sizeLimit
  · simp [h]
  · simp [h]

theorem hasRoom_iff {size : Nat} :
    a.hasRoom size = true ↔ a.used + size ≤ a.capacity ∧ a.used + size < sizeLimit := by
  unfold hasRoom rangeEnd?
  by_cases h : a.used + size < sizeLimit
  · simp [h]
  · simp [h]

theorem Holds.covers (h : a.Holds (pre ++ mid ++ post)) :
    a.covers pre.length mid.length = true := by
  have hu := h.used
  have hs := h.sized
  simp only [List.length_append] at hu
  exact covers_iff.mpr ⟨by omega, by omega⟩

/-- Reading gives the bytes at a place. -/
theorem Holds.read (h : a.Holds (pre ++ mid ++ post)) : a.read pre.length mid.length = .ok mid := by
  obtain ⟨spare, hs⟩ := h.bytes
  rw [ByteArena.read, if_pos h.covers, Array.toList_extract, hs]
  simp

theorem length_overwrite (buffer : Array UInt8) (start : Nat) (new : List UInt8) :
    (overwrite buffer start new).size = buffer.size := by
  induction new generalizing buffer start with
  | nil => rfl
  | cons b rest ih => simp [overwrite, ih]

theorem toList_overwrite (buffer : Array UInt8) (hb : buffer.toList = pre ++ mid ++ post)
    (hlen : new.length = mid.length) :
    (overwrite buffer pre.length new).toList = pre ++ new ++ post := by
  induction new generalizing buffer pre mid with
  | nil =>
    obtain rfl : mid = [] := List.length_eq_zero_iff.mp hlen.symm
    exact hb
  | cons b rest ih =>
    cases mid with
    | nil => cases hlen
    | cons c mid =>
      have hset : (buffer.setIfInBounds pre.length b).toList = (pre ++ [b]) ++ mid ++ post := by
        rw [Array.toList_setIfInBounds, hb]
        simp
      have hrest := ih _ hset (Nat.succ.inj hlen)
      rw [List.length_append, List.length_singleton] at hrest
      rw [overwrite, hrest]
      simp

/-- Writing replaces the bytes at a place and nothing else. -/
theorem Holds.write (h : a.Holds (pre ++ mid ++ post)) (hlen : new.length = mid.length) :
    ∃ b, a.write pre.length new = .ok b ∧ b.Holds (pre ++ new ++ post) ∧ b.capacity = a.capacity := by
  obtain ⟨spare, hs⟩ := h.bytes
  refine ⟨{ a with buffer := overwrite a.buffer pre.length new }, ?_, ⟨⟨spare, ?_⟩, ?_, h.sized⟩, ?_⟩
  · rw [ByteArena.write, hlen, if_pos h.covers]
  · rw [List.append_assoc] at hs
    simp only [toList_overwrite a.buffer hs hlen, List.append_assoc]
  · rw [h.used]
    simp [hlen]
  · exact length_overwrite ..

/-- A range of bytes handed out has bytes before it and bytes behind it. -/
theorem Holds.split (h : a.Holds data) {start length : Nat} (hle : start + length ≤ a.used) :
    ∃ pre mid post, data = pre ++ mid ++ post ∧ pre.length = start ∧ mid.length = length := by
  rw [h.used] at hle
  refine ⟨data.take start, (data.drop start).take length, data.drop (start + length), ?_, ?_, ?_⟩
  · rw [List.append_assoc, ← List.drop_drop, List.take_append_drop, List.take_append_drop]
  · rw [List.length_take]
    omega
  · rw [List.length_take, List.length_drop]
    omega

/-- Bytes handed out can be replaced through any handle; the others stay zero. -/
theorem Holds.written {b : ByteArena} (h : a.Holds data) {start : Nat}
    (hw : a.write start new = .ok b) : ∃ data', b.Holds data' := by
  have hc : a.covers start new.length := by
    unfold ByteArena.write at hw
    split at hw
    · assumption
    · cases hw
  obtain ⟨pre, mid, post, rfl, rfl, hmid⟩ := h.split (covers_iff.mp hc).1
  obtain ⟨b', hb, hheld, -⟩ := h.write hmid.symm
  rw [hw] at hb
  cases hb
  exact ⟨_, hheld⟩

theorem used_of_read {start length : Nat} {bytes : List UInt8} (h : a.read start length = .ok bytes) :
    start + length ≤ a.used := by
  unfold ByteArena.read at h
  split at h
  · rename_i hc
    exact (covers_iff.mp hc).1
  · cases h

/-- What has been read goes on to read the same when bytes are added behind. -/
theorem Holds.read_append {b : ByteArena} {more bytes : List UInt8} (h : a.Holds data)
    (h' : b.Holds (data ++ more)) {start length : Nat} (hr : a.read start length = .ok bytes) :
    b.read start length = .ok bytes := by
  obtain ⟨pre, mid, post, rfl, rfl, rfl⟩ := h.split (used_of_read hr)
  rw [h.read] at hr
  rw [List.append_assoc _ post more] at h'
  exact h'.read.trans hr

theorem Holds.readFloat_append {b : ByteArena} {more : List UInt8} (h : a.Holds data)
    (h' : b.Holds (data ++ more)) {v : Value} {x : Single} (hr : a.readFloat v = .ok x) :
    b.readFloat v = .ok x := by
  cases v with
  | float address =>
    cases hbytes : a.read address.offset Word.size with
    | ok bytes =>
      have hread := h.read_append h' hbytes
      simp only [readFloat, Value.asFloat, hbytes, bind, Except.bind] at hr
      simp only [readFloat, Value.asFloat, hread, bind, Except.bind]
      exact hr
    | error fault =>
      simp only [readFloat, Value.asFloat, hbytes, bind, Except.bind] at hr
      cases hr
  | _ => cases hr

/-- Whether so many bytes more can be handed out: they fit, and their address is a word. -/
def Gives (a : ByteArena) (size : Nat) : Prop := a.hasRoom size ∧ a.used + 1 < wordLimit

instance (a : ByteArena) (size : Nat) : Decidable (a.Gives size) :=
  inferInstanceAs (Decidable (_ ∧ _))

/-- The arena after so many bytes more have been handed out. -/
structure Grown (a b : ByteArena) (size : Nat) : Prop where
  used : b.used = a.used + size
  capacity : b.capacity = a.capacity

theorem Grown.trans {b c : ByteArena} {size more : Nat} (h : a.Grown b size) (h' : b.Grown c more) :
    a.Grown c (size + more) :=
  ⟨by rw [h'.used, h.used, Nat.add_assoc], h'.capacity.trans h.capacity⟩

/-- Writing hands out nothing. -/
theorem grown_write {b : ByteArena} {start : Nat} (h : a.write start new = .ok b) : a.Grown b 0 := by
  unfold write at h
  split at h
  · cases h
    exact ⟨rfl, length_overwrite ..⟩
  · cases h

theorem allocate_error {size : Nat} (hfull : ¬ a.Gives size) :
    a.allocate size = .error (a.full size) := if_neg hfull

theorem allocate_eq_ok {b : ByteArena} {size : Nat} {address : Address}
    (h : a.allocate size = .ok (address, b)) :
    a.Gives size ∧ address = ⟨a.used⟩ ∧ b = { a with used := a.used + size } := by
  unfold allocate at h
  split at h
  · rename_i hg
    cases h
    exact ⟨hg, rfl, rfl⟩
  · cases h

/-- What is handed out are zero bytes at the end. -/
theorem Holds.allocate (h : a.Holds data) {size : Nat} (hroom : a.Gives size) :
    ∃ b, a.allocate size = .ok (⟨data.length⟩, b) ∧ b.Holds (data ++ List.replicate size 0) ∧
      a.Grown b size := by
  obtain ⟨spare, hs⟩ := h.bytes
  have hlen := congrArg List.length hs
  have hu := h.used
  obtain ⟨hfit, hsized⟩ := hasRoom_iff.mp hroom.1
  simp only [Array.length_toList, List.length_append, List.length_replicate] at hlen
  refine ⟨{ a with used := a.used + size }, ?_, ⟨⟨spare - size, ?_⟩, ?_, hsized⟩, rfl, rfl⟩
  · unfold Gives at hroom
    rw [ByteArena.allocate, if_pos hroom, hu]
  · simp only [capacity] at hfit
    rw [hs, List.append_assoc, List.replicate_append_replicate]
    congr 2
    omega
  · simp [hu]

theorem Holds.allocateCopy (h : a.Holds data) (new : List UInt8) :
    (¬ a.Gives new.length ∧ ∃ fault, a.allocateCopy new = (.error fault, a)) ∨
    ∃ b, a.allocateCopy new = (.ok ⟨data.length⟩, b) ∧ b.Holds (data ++ new) ∧
      a.Grown b new.length ∧ data.length + 1 < wordLimit := by
  by_cases hroom : a.Gives new.length
  · obtain ⟨b, hb, hheld, hgrown⟩ := h.allocate hroom
    have hheld' : b.Holds (data ++ List.replicate new.length 0 ++ []) := by simpa using hheld
    have hlength : new.length = (List.replicate new.length (0 : UInt8)).length :=
      List.length_replicate.symm
    obtain ⟨c, hc, hnew, -⟩ := hheld'.write hlength
    refine .inr ⟨c, ?_, by simpa using hnew, hgrown.trans (grown_write hc), ?_⟩
    · simp [ByteArena.allocateCopy, hb, hc]
    · rw [← h.used]
      exact hroom.2
  · exact .inl ⟨hroom, _, by rw [ByteArena.allocateCopy, allocate_error hroom]⟩

end ByteArena
end ThreadedCode
