import Mathlib.Data.List.Nodup
import ThreadedCode.Proofs.Memory
import ThreadedCode.Proofs.Transcripts

/-!
The byte arena on its own, asked for anything in any order. It answers as a list of bytes does that
grows at its end, and so the regions that it hands out stay apart.
-/
namespace ThreadedCode

namespace ByteArena

/-- What a byte arena can be asked for. -/
inductive Command where
  | allocate (size : Nat)
  /-- Allocate as many bytes as are given and copy them in. -/
  | allocateCopy (data : List UInt8)
  | read (address : Address) (length : Nat)
  /-- Overwrite as many bytes as are given. -/
  | write (address : Address) (data : List UInt8)
  | reset

/-- What a command is answered with. -/
inductive Reply where
  | address (address : Address)
  | bytes (data : List UInt8)
  | done
deriving DecidableEq

def obey (a : ByteArena) : Command → Except Fault Reply × ByteArena
  | .allocate size =>
    match a.allocate size with
    | .ok (address, b) => (.ok (.address address), b)
    | .error fault => (.error fault, a)
  | .allocateCopy data =>
    match a.allocateCopy data with
    | (.ok address, b) => (.ok (.address address), b)
    | (.error fault, b) => (.error fault, b)
  | .read address length =>
    match a.read address.offset length with
    | .ok data => (.ok (.bytes data), a)
    | .error fault => (.error fault, a)
  | .write address data =>
    match a.write address.offset data with
    | .ok b => (.ok .done, b)
    | .error fault => (.error fault, a)
  | .reset => (.ok .done, a.reset)

/-- A range of bytes. -/
structure Region where
  start : Nat
  length : Nat
deriving DecidableEq

namespace Region

def stop (r : Region) : Nat := r.start + r.length

/-- So many bytes from there on lie inside the region. -/
def Covers (r : Region) (start length : Nat) : Prop := r.start ≤ start ∧ start + length ≤ r.stop

end Region

/-- The region that a command has been given. -/
def Command.region? : Command → Except Fault Reply → Option Region
  | .allocate size, .ok (.address a) => some ⟨a.offset, size⟩
  | .allocateCopy data, .ok (.address a) => some ⟨a.offset, data.length⟩
  | _, _ => none

/-- A reset takes all regions back. -/
def handed (regions : List Region) : Command × Except Fault Reply → List Region
  | (.reset, _) => []
  | (command, answer) => regions ++ (command.region? answer).toList

/-- The regions handed out since the last reset, in that order. -/
def regions (past : List (Command × Except Fault Reply)) : List Region := past.foldl handed []

end ByteArena

/-- A list of bytes that grows at its end, up to a capacity. -/
structure ByteList where
  data : List UInt8
  capacity : Nat

namespace ByteList

open ByteArena

/-- Appends bytes, if they fit and the number of the first one is a word. -/
def append (l : ByteList) (new : List UInt8) : Except Fault Reply × ByteList :=
  if l.data.length + new.length ≤ l.capacity ∧ l.data.length + 1 < wordLimit then
    (.ok (.address ⟨l.data.length⟩), { l with data := l.data ++ new })
  else (.error (.byteArenaFull new.length l.data.length l.capacity), l)

def obey (l : ByteList) : Command → Except Fault Reply × ByteList
  | .allocate size => l.append (List.replicate size 0)
  | .allocateCopy new => l.append new
  | .read address length =>
    if address.offset + length ≤ l.data.length then
      (.ok (.bytes ((l.data.drop address.offset).take length)), l)
    else (.error .invalidHandle, l)
  | .write address new =>
    if address.offset + new.length ≤ l.data.length then
      let stop := address.offset + new.length
      (.ok .done, { l with data := l.data.take address.offset ++ new ++ l.data.drop stop })
    else (.error .invalidHandle, l)
  | .reset => (.ok .done, { l with data := [] })

theorem capacity_obey (l : ByteList) (command : Command) : (l.obey command).2.capacity = l.capacity := by
  have hsplit : ∀ {c : Prop} [Decidable c] {x y : Except Fault Reply × ByteList},
      x.2.capacity = l.capacity → y.2.capacity = l.capacity →
      (if c then x else y).2.capacity = l.capacity := by
    intro c _ x y hx hy
    split
    · exact hx
    · exact hy
  cases command with
  | allocate | allocateCopy | read | write => exact hsplit rfl rfl
  | reset => rfl

end ByteList

namespace ByteArena

variable {a : ByteArena} {l : ByteList} {data new : List UInt8} {size : Nat}

/-- The arena holds the bytes of the list and has the same capacity, which is a size. -/
structure Lists (a : ByteArena) (l : ByteList) : Prop where
  holds : a.Holds l.data
  capacity : a.capacity = l.capacity
  sized : l.capacity < sizeLimit

namespace Lists

theorem of_create (buffer : Array UInt8) (h : buffer.size < sizeLimit) :
    (create buffer).Lists ⟨[], buffer.size⟩ where
  holds := .of_reset _
  capacity := by simp [create, reset, ByteArena.capacity]
  sized := h

/-- With a capacity that is a size, sums need no other bound. -/
theorem gives_iff (h : a.Lists l) (size : Nat) :
    a.Gives size ↔ l.data.length + size ≤ l.capacity ∧ l.data.length + 1 < wordLimit := by
  have hsized := h.sized
  rw [Gives, hasRoom_iff, h.holds.used, h.capacity]
  constructor
  · exact fun ⟨⟨hfits, _⟩, hword⟩ => ⟨hfits, hword⟩
  · exact fun ⟨hfits, hword⟩ => ⟨⟨hfits, by omega⟩, hword⟩

theorem covers_iff (h : a.Lists l) (start length : Nat) :
    a.covers start length = true ↔ start + length ≤ l.data.length := by
  have hused := h.holds.used
  have hsized := h.holds.sized
  rw [ByteArena.covers_iff]
  omega

theorem full_eq (h : a.Lists l) (size : Nat) :
    a.full size = .byteArenaFull size l.data.length l.capacity := by
  rw [full, h.holds.used, h.capacity]

theorem append_of_fits (h : l.data.length + new.length ≤ l.capacity ∧ l.data.length + 1 < wordLimit) :
    l.append new = (.ok (.address ⟨l.data.length⟩), { l with data := l.data ++ new }) := if_pos h

theorem append_of_full
    (h : ¬ (l.data.length + new.length ≤ l.capacity ∧ l.data.length + 1 < wordLimit)) :
    l.append new = (.error (.byteArenaFull new.length l.data.length l.capacity), l) := if_neg h

/-- The arena answers as the list does, holds what the list comes to, and is left alone by a command
that fails. -/
def Follows (a : ByteArena) (l : ByteList) (command : Command) : Prop :=
  (a.obey command).1 = (l.obey command).1 ∧ (a.obey command).2.Lists (l.obey command).2 ∧
    ∀ fault, (a.obey command).1 = .error fault → (a.obey command).2 = a

theorem allocate (h : a.Lists l) (size : Nat) : Follows a l (.allocate size) := by
  have hlength : (List.replicate size (0 : UInt8)).length = size := List.length_replicate
  unfold Follows
  by_cases hg : a.Gives size
  · obtain ⟨b, hb, hholds, hgrown⟩ := h.holds.allocate hg
    have hfits := (h.gives_iff size).mp hg
    rw [← hlength] at hfits
    simp only [obey, hb, ByteList.obey, append_of_fits hfits]
    exact ⟨trivial, ⟨hholds, hgrown.capacity.trans h.capacity, h.sized⟩, nofun⟩
  · have hfull := mt (h.gives_iff size).mpr hg
    rw [← hlength] at hfull
    simp only [obey, allocate_error hg, ByteList.obey, append_of_full hfull, h.full_eq, hlength]
    exact ⟨trivial, h, fun _ _ => trivial⟩

theorem allocateCopy (h : a.Lists l) (new : List UInt8) : Follows a l (.allocateCopy new) := by
  unfold Follows
  by_cases hg : a.Gives new.length
  · rcases h.holds.allocateCopy new with ⟨hfull, -⟩ | ⟨b, hb, hholds, hgrown, -⟩
    · exact absurd hg hfull
    · simp only [obey, hb, ByteList.obey, append_of_fits ((h.gives_iff _).mp hg)]
      exact ⟨trivial, ⟨hholds, hgrown.capacity.trans h.capacity, h.sized⟩, nofun⟩
  · have hfull := mt (h.gives_iff new.length).mpr hg
    have hcopy : a.allocateCopy new = (.error (a.full new.length), a) := by
      rw [ByteArena.allocateCopy, allocate_error hg]
    simp only [obey, hcopy, ByteList.obey, append_of_full hfull, h.full_eq]
    exact ⟨trivial, h, fun _ _ => trivial⟩

theorem read (h : a.Lists l) (address : Address) (length : Nat) :
    Follows a l (.read address length) := by
  unfold Follows
  by_cases hle : address.offset + length ≤ l.data.length
  · obtain ⟨pre, mid, post, hdata, hpre, hmid⟩ := h.holds.split (h.holds.used ▸ hle)
    have hread := h.holds
    rw [hdata] at hread
    have hslice : (l.data.drop address.offset).take length = mid := by
      rw [hdata, ← hpre, ← hmid]
      simp
    have hok : a.read address.offset length = .ok mid := by rw [← hpre, ← hmid, hread.read]
    simp only [obey, hok, ByteList.obey, if_pos hle, hslice]
    exact ⟨trivial, h, nofun⟩
  · have hfail : a.read address.offset length = .error .invalidHandle :=
      if_neg (mt (h.covers_iff _ _).mp hle)
    simp only [obey, hfail, ByteList.obey, if_neg hle]
    exact ⟨trivial, h, fun _ _ => trivial⟩

theorem write (h : a.Lists l) (address : Address) (new : List UInt8) :
    Follows a l (.write address new) := by
  unfold Follows
  by_cases hle : address.offset + new.length ≤ l.data.length
  · obtain ⟨pre, mid, post, hdata, hpre, hmid⟩ := h.holds.split (h.holds.used ▸ hle)
    have hheld := h.holds
    rw [hdata] at hheld
    obtain ⟨b, hb, hholds, hcapacity⟩ := hheld.write hmid.symm
    have hreplaced : l.data.take address.offset ++ new ++ l.data.drop (address.offset + new.length) =
        pre ++ new ++ post := by
      rw [hdata, ← hpre, ← hmid, ← List.length_append, List.drop_left, List.append_assoc pre mid post,
        List.take_left]
    rw [hpre] at hb
    simp only [obey, hb, ByteList.obey, if_pos hle, hreplaced]
    exact ⟨trivial, ⟨hholds, hcapacity.trans h.capacity, h.sized⟩, nofun⟩
  · have hfail : a.write address.offset new = .error .invalidHandle :=
      if_neg (mt (h.covers_iff _ _).mp hle)
    simp only [obey, hfail, ByteList.obey, if_neg hle]
    exact ⟨trivial, h, fun _ _ => trivial⟩

theorem reset (h : a.Lists l) : Follows a l .reset := by
  refine ⟨rfl, ⟨.of_reset a, ?_, h.sized⟩, nofun⟩
  change a.reset.capacity = l.capacity
  rw [← h.capacity]
  exact Array.size_replicate

theorem follows (h : a.Lists l) (command : Command) : Follows a l command := by
  cases command with
  | allocate size => exact h.allocate size
  | allocateCopy new => exact h.allocateCopy new
  | read address length => exact h.read address length
  | write address new => exact h.write address new
  | reset => exact h.reset

end Lists
end ByteArena

namespace ByteList

open ByteArena

variable {l : ByteList} {rs : List Region}

/-- The regions follow one another, and they lie within the list. -/
structure Apart (l : ByteList) (rs : List Region) : Prop where
  ordered : rs.Pairwise fun r s => r.stop ≤ s.start
  within : ∀ r ∈ rs, r.stop ≤ l.data.length

namespace Apart

/-- The bytes appended are a region behind all others. -/
theorem append (h : l.Apart rs) (new : List UInt8) {command : Command}
    (hreset : command ≠ .reset)
    (hregion : ∀ address, command.region? (.ok (.address address)) = some ⟨address.offset, new.length⟩)
    (hnone : ∀ fault, command.region? (.error fault) = none) :
    (l.append new).2.Apart (handed rs (command, (l.append new).1)) := by
  have hhanded : ∀ answer, handed rs (command, answer) = rs ++ (command.region? answer).toList := by
    intro answer
    cases command with
    | reset => exact absurd rfl hreset
    | _ => rfl
  rw [hhanded]
  by_cases hfits : l.data.length + new.length ≤ l.capacity ∧ l.data.length + 1 < wordLimit
  · rw [Lists.append_of_fits hfits]
    simp only [hregion, Option.toList]
    refine ⟨?_, fun r hr => ?_⟩
    · refine List.pairwise_append.mpr ⟨h.ordered, List.pairwise_singleton .., fun r hr s hs => ?_⟩
      rw [List.mem_singleton.mp hs]
      exact h.within r hr
    · rw [List.length_append]
      rcases List.mem_append.mp hr with hr | hr
      · exact Nat.le_add_right_of_le (h.within r hr)
      · rw [List.mem_singleton.mp hr]
        exact Nat.le_refl _
  · rw [Lists.append_of_full hfits, hnone]
    simpa using h

theorem obey (h : l.Apart rs) (command : Command) :
    (l.obey command).2.Apart (handed rs (command, (l.obey command).1)) := by
  cases command with
  | allocate size =>
    refine h.append _ nofun (fun address => ?_) fun _ => rfl
    rw [List.length_replicate]
    rfl
  | allocateCopy new => exact h.append new nofun (fun _ => rfl) fun _ => rfl
  | read address length =>
    simp only [ByteList.obey]
    split
    · simpa [handed, Command.region?] using h
    · simpa [handed, Command.region?] using h
  | write address new =>
    simp only [ByteList.obey]
    split
    · rename_i hle
      refine ⟨by simpa [handed, Command.region?] using h.ordered, fun r hr => ?_⟩
      have hr' : r ∈ rs := by simpa [handed, Command.region?] using hr
      have hwithin := h.within r hr'
      simp only [List.length_append, List.length_take, List.length_drop]
      omega
    · simpa [handed, Command.region?] using h
  | reset => exact ⟨.nil, nofun⟩

/-- Of two regions one lies behind the other. -/
theorem either (h : l.Apart rs) {i j : Nat} {r s : Region} (hr : rs[i]? = some r) (hs : rs[j]? = some s)
    (hne : i ≠ j) : r.stop ≤ s.start ∨ s.stop ≤ r.start := by
  obtain ⟨hi, rfl⟩ := List.getElem?_eq_some_iff.mp hr
  obtain ⟨hj, rfl⟩ := List.getElem?_eq_some_iff.mp hs
  have hordered := List.pairwise_iff_getElem.mp h.ordered
  rcases Nat.lt_or_gt_of_ne hne with hlt | hlt
  · exact .inl (hordered i j hi hj hlt)
  · exact .inr (hordered j i hj hi hlt)

end Apart

/-- What is written beside a range leaves the bytes there. -/
theorem slice_beside {data new : List UInt8} {o start length : Nat} (hle : o + new.length ≤ data.length)
    (hbeside : o + new.length ≤ start ∨ start + length ≤ o) :
    ((data.take o ++ new ++ data.drop (o + new.length)).drop start).take length =
      (data.drop start).take length := by
  have htake : (data.take o).length = o := by
    rw [List.length_take]
    omega
  rcases hbeside with hbehind | hbefore
  · have hfront : (data.take o ++ new).length = o + new.length := by rw [List.length_append, htake]
    rw [List.drop_append, List.drop_eq_nil_of_le (by omega), List.nil_append, hfront, List.drop_drop,
      Nat.add_sub_cancel' hbehind]
  · have hinside : ∀ rest, ((data.take o ++ rest).drop start).take length =
        ((data.take o).drop start).take length := by
      intro rest
      rw [List.drop_append_of_le_length (by omega), List.take_append_of_le_length]
      rw [List.length_drop]
      omega
    have hself := hinside (data.drop o)
    rw [List.take_append_drop] at hself
    rw [List.append_assoc, hinside, hself]

theorem obey_write {l : ByteList} {address : Address} {new : List UInt8}
    (hle : address.offset + new.length ≤ l.data.length) :
    l.obey (.write address new) = (.ok .done, { l with
      data := l.data.take address.offset ++ new ++ l.data.drop (address.offset + new.length) }) :=
  if_pos hle

/-- A read beside what has been written is answered as before. -/
theorem read_beside {l : ByteList} {address place : Address} {new : List UInt8} {length : Nat}
    (hle : address.offset + new.length ≤ l.data.length)
    (hbeside : address.offset + new.length ≤ place.offset ∨ place.offset + length ≤ address.offset) :
    ((l.obey (.write address new)).2.obey (.read place length)).1 =
      (l.obey (.read place length)).1 := by
  have hlength : (l.data.take address.offset ++ new ++
      l.data.drop (address.offset + new.length)).length = l.data.length := by
    simp only [List.length_append, List.length_take, List.length_drop]
    omega
  rw [obey_write hle]
  simp only [obey, hlength, slice_beside hle hbeside]
  split
  · rfl
  · rfl

end ByteList

namespace ByteArena

/-- On a buffer of any contents, the arena answers whatever it is asked for as a list of bytes does
that is empty at first and after every reset, and what fails changes nothing. The regions handed out
since the last reset lie one behind the other, and to write inside one of them goes well and leaves what
can be read in the others as it was. -/
theorem answers_as_list (buffer : Array UInt8) (hsize : buffer.size < sizeLimit)
    (commands : List Command) :
    let said := transcript obey (create buffer) commands
    let meant := transcript ByteList.obey ⟨[], buffer.size⟩ commands
    said.1 = meant.1 ∧ said.2.Holds meant.2.data ∧ said.2.capacity = buffer.size ∧
    (∀ command fault, (said.2.obey command).1 = .error fault → (said.2.obey command).2 = said.2) ∧
    (regions said.1).Pairwise (fun r s => r.stop ≤ s.start) ∧
    (∀ r ∈ regions said.1, r.stop ≤ meant.2.data.length) ∧
    ∀ (i j : Nat) (r s : Region), (regions said.1)[i]? = some r → (regions said.1)[j]? = some s → i ≠ j →
      ∀ address new, r.Covers address.offset new.length →
        let written := said.2.obey (.write address new)
        written.1 = .ok .done ∧ ∀ place length, s.Covers place.offset length →
          (written.2.obey (.read place length)).1 = (said.2.obey (.read place length)).1 := by
  intro said meant
  have hstep : ∀ (a : ByteArena) (l : ByteList) command, a.Lists l ∧ l.capacity = buffer.size →
      (a.obey command).1 = (l.obey command).1 ∧
        (a.obey command).2.Lists (l.obey command).2 ∧ (l.obey command).2.capacity = buffer.size := by
    intro a l command ⟨h, hcapacity⟩
    obtain ⟨hanswer, hnext, -⟩ := h.follows command
    exact ⟨hanswer, hnext, (l.capacity_obey command).trans hcapacity⟩
  obtain ⟨hsaid, hlists, hcapacity⟩ :=
    transcript_eq hstep commands ⟨Lists.of_create buffer hsize, rfl⟩
  have hnone : (⟨[], buffer.size⟩ : ByteList).Apart (regions []) := ⟨.nil, nofun⟩
  have hapart : meant.2.Apart (regions said.1) := by
    rw [hsaid]
    refine transcript_invariant (I := fun past (l : ByteList) => l.Apart (regions past)) ?_ commands
      hnone
    intro past l command h
    rw [regions, List.foldl_append]
    exact h.obey command
  refine ⟨hsaid, hlists.holds, hlists.capacity.trans hcapacity, fun command => (hlists.follows command).2.2,
    hapart.ordered, hapart.within, fun i j r s hr hs hne address new hinside => ?_⟩
  obtain ⟨hstart, hstop⟩ := hinside
  have hle : address.offset + new.length ≤ meant.2.data.length :=
    Nat.le_trans hstop (hapart.within r (List.mem_of_getElem? hr))
  obtain ⟨hwritten, hnext, -⟩ := hlists.follows (.write address new)
  refine ⟨hwritten.trans (congrArg Prod.fst (ByteList.obey_write hle)), fun place length hread => ?_⟩
  obtain ⟨hfrom, hto⟩ := hread
  have hbeside := hapart.either hr hs hne
  rw [(hnext.follows _).1, (hlists.follows _).1, ByteList.read_beside hle (by omega)]

/-- Six bytes, handed out as two and three of them, then written, filled up, and taken back. -/
theorem answers_as_list_of_twoRegions :
    let buffer : Array UInt8 := #[7, 7, 7, 7, 7, 7]
    let commands : List Command := [.allocate 2, .allocateCopy [1, 2, 3], .allocate 2,
      .write ⟨0⟩ [8, 9], .read ⟨1⟩ 4, .read ⟨5⟩ 1, .allocate 1, .read ⟨5⟩ 1]
    let said := transcript obey (create buffer) commands
    buffer.size < sizeLimit ∧ said.1 = (transcript ByteList.obey ⟨[], 6⟩ commands).1 ∧
    said.1.map Prod.snd = [.ok (.address ⟨0⟩), .ok (.address ⟨2⟩), .error (.byteArenaFull 2 5 6),
      .ok .done, .ok (.bytes [9, 1, 2, 3]), .error .invalidHandle, .ok (.address ⟨5⟩),
      .ok (.bytes [0])] ∧
    (regions said.1).Pairwise (fun r s => r.stop ≤ s.start) ∧
    ((said.2.obey (.write ⟨3⟩ [4])).2.obey (.read ⟨0⟩ 2)).1 = (said.2.obey (.read ⟨0⟩ 2)).1 := by
  intro buffer commands said
  have hsize : buffer.size < sizeLimit := by decide
  obtain ⟨hsaid, -, -, -, hordered, -, hothers⟩ := answers_as_list buffer hsize commands
  have hregions : regions said.1 = [⟨0, 2⟩, ⟨2, 3⟩, ⟨5, 1⟩] := by decide +kernel
  have hread := (hothers 1 0 ⟨2, 3⟩ ⟨0, 2⟩ (by rw [hregions]; rfl) (by rw [hregions]; rfl) (by decide)
    ⟨3⟩ [4] ⟨by decide, by decide⟩).2 ⟨0⟩ 2 ⟨by decide, by decide⟩
  exact ⟨hsize, hsaid, by decide +kernel, hordered, hread⟩

end ByteArena
end ThreadedCode
