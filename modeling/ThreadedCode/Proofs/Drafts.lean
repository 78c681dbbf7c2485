import ThreadedCode.Proofs.Histories
import ThreadedCode.Proofs.Registration
import ThreadedCode.Proofs.Rollback
import ThreadedCode.Proofs.Strategies

/-!
What becomes of a line that is compiled. Three things can run out on the way, and a name may not be
found. The first of these faults ends it, and what has been compiled before stays behind, in a word
that is closed.
-/
namespace ThreadedCode

variable {σ : Signature} {α : Type}

namespace ByteArena

variable {a : ByteArena} {data : List UInt8} {floats : List Single}

/-- The arena with floats boxed in it, one after another. -/
def filled (a : ByteArena) (floats : List Single) : ByteArena :=
  floats.foldl (fun a x => (a.allocateCopy x.encode).2) a

theorem filled_append (a : ByteArena) (floats more : List Single) :
    a.filled (floats ++ more) = (a.filled floats).filled more := List.foldl_append

/-- One float more comes to lie behind the others. -/
theorem Holds.box (h : a.Holds data) (hsmall : a.capacity + 1 < wordLimit)
    (hfits : a.used + Word.size ≤ a.capacity) (x : Single) :
    a.allocateCopy x.encode = (.ok ⟨data.length⟩, a.filled [x]) ∧
      (a.filled [x]).Holds (data ++ x.encode) ∧ a.Grown (a.filled [x]) Word.size := by
  have hlength : x.encode.length = Word.size := Word.length_encode _
  rcases h.allocateCopy x.encode with ⟨hfull, -⟩ | ⟨b, hb, hheld, hgrown, -⟩
  · rw [hlength, gives_iff hsmall (by decide)] at hfull
    exact absurd hfits hfull
  · rw [hlength] at hgrown
    have hfilled : a.filled [x] = b := congrArg Prod.snd hb
    rw [hfilled]
    exact ⟨hb, hheld, hgrown⟩

theorem Holds.filled (h : a.Holds data) (hsmall : a.capacity + 1 < wordLimit)
    (hfits : a.used + Word.size * floats.length ≤ a.capacity) :
    (a.filled floats).Holds (data ++ floats.flatMap Single.encode) ∧
      a.Grown (a.filled floats) (Word.size * floats.length) := by
  induction floats generalizing a data with
  | nil => exact ⟨by simpa [ByteArena.filled] using h, rfl, rfl⟩
  | cons x rest ih =>
    rw [List.length_cons, Nat.mul_succ, Nat.add_comm (Word.size * _)] at hfits ⊢
    obtain ⟨-, hbox, hgrown⟩ := h.box hsmall (by omega) x
    obtain ⟨hheld, hrest⟩ := ih hbox (by rw [hgrown.capacity]; exact hsmall)
      (by rw [hgrown.capacity, hgrown.used]; omega)
    rw [List.append_assoc] at hheld
    exact ⟨hheld, hgrown.trans hrest⟩

end ByteArena

namespace Machine

open Step

variable {m n : Machine σ} {floats : List Single}

/-- The machine with floats boxed, one after another. -/
def boxed (m : Machine σ) (floats : List Single) : Machine σ :=
  { m with bytes := m.bytes.filled floats }

theorem boxed_nil (m : Machine σ) : m.boxed [] = m := rfl

/-- Only the byte arena and the dictionary are looked at in a search. -/
theorem search_congr (hbytes : n.bytes = m.bytes) (hdictionary : n.dictionary = m.dictionary)
    (query : String) : (search query n).answer = (search query m).answer := by
  change (n.dictionary.search n.bytes _) = (m.dictionary.search m.bytes _)
  rw [hbytes, hdictionary]

theorem entry_congr (hbytes : n.bytes = m.bytes) (id : EntryId) :
    (entry id n).answer = (entry id m).answer := by
  change Entry.read n.bytes id = Entry.read m.bytes id
  rw [hbytes]

theorem boxFloat_apply (x : Single) (m : Machine σ) :
    (boxFloat x m).answer = (m.bytes.allocateCopy x.encode).1.map Value.float ∧
      (boxFloat x m).machine = m.boxed [x] := by
  obtain ⟨events, hwarn⟩ := warnUnlessRoom_apply x.encode.length m
  simp only [boxFloat, allocateCopy, bind_apply, hwarn, Outcome.bind_ok, get_apply, Outcome.after_nil,
    modify_apply, lift_apply]
  cases (m.bytes.allocateCopy x.encode).1 <;> exact ⟨rfl, rfl⟩

/-- A float is boxed exactly where it fits. -/
theorem boxFloat_ends {data : List UInt8} (h : m.bytes.Holds data)
    (hsmall : m.bytes.capacity + 1 < wordLimit) (x : Single) :
    (m.bytes.capacity < m.bytes.used + Word.size ∧
      (serve (.boxFloat x)).Ends m [] (.error (m.bytes.full Word.size)) m) ∨
    (m.bytes.used + Word.size ≤ m.bytes.capacity ∧
      (serve (.boxFloat x)).Ends m [] (.ok (.float ⟨data.length⟩)) (m.boxed [x])) := by
  obtain ⟨ha, hmachine⟩ := boxFloat_apply x m
  by_cases hfits : m.bytes.used + Word.size ≤ m.bytes.capacity
  · rw [(h.box hsmall hfits x).1] at ha
    exact .inr ⟨hfits, .serve (r := .boxFloat x) ha hmachine⟩
  · have hfull : ¬ m.bytes.Gives x.encode.length := by
      rw [Single.encode, Word.length_encode, ByteArena.gives_iff hsmall (by decide)]
      exact hfits
    have hfail : m.bytes.allocateCopy x.encode = (.error (m.bytes.full Word.size), m.bytes) := by
      rw [ByteArena.allocateCopy, ByteArena.allocate_error hfull, Single.encode, Word.length_encode]
    have hsame : m.boxed [x] = m := by
      rw [boxed, show m.bytes.filled [x] = m.bytes from congrArg Prod.snd hfail]
    rw [hfail] at ha
    exact .inl ⟨Nat.lt_of_not_le hfits, .serve (r := .boxFloat x) ha (hmachine.trans hsame)⟩

/-- The storage is in order, there are numbers for all of it, and the strategy that links is where it
belongs. -/
structure Tidy (m : Machine σ) : Prop where
  built : m.Built
  held : ∃ data, m.bytes.Holds data
  cells : m.cells.capacity + 1 < wordLimit
  bytes : m.bytes.capacity + 1 < wordLimit
  links : m.copies.get CopyTable.link = .ok .link

end Machine

namespace Calculator

open Machine Step

/-- The numbers among the words of a line. -/
def boxes (words : List String) : List Single := words.filterMap Single.ofText?

/-- Every name is found when its turn comes. -/
def Finds (m : Machine σ) (words : List String) : Prop :=
  ∀ before word after, words = before ++ word :: after → Single.ofText? word = none →
    ∃ id, (search word (m.boxed (boxes before))).answer = .ok id

/-- Every name that is found when its turn comes is that of an entry which links to a cell that is
there by then. -/
def Links (m : Machine σ) (words : List String) : Prop :=
  ∀ before word after, words = before ++ word :: after → Single.ofText? word = none →
    ∀ id, (search word (m.boxed (boxes before))).answer = .ok id →
    ∃ e, (Machine.entry id (m.boxed (boxes before))).answer = .ok e ∧
      e.copy = CopyTable.link ∧ e.cell.index < m.cells.used + (before.length + 2)

/-- There is all that it takes to compile a line. -/
structure Accepts (m : Machine σ) (words : List String) : Prop where
  cells : words.length + 1 ≤ m.cells.capacity - m.cells.used
  depth : m.openWords.depth < OpenWords.capacity
  bytes : Word.size * (boxes words).length ≤ m.bytes.remaining
  names : Finds m words

/-- Why a line is not compiled, how many cells it has taken until then, and which numbers have been
boxed for it. -/
inductive Refuses (m : Machine σ) (words : List String) : Rejection → Nat → List Single → Prop
  | cell (hfull : m.cells.capacity ≤ m.cells.used) :
    Refuses m words ⟨none, .cellArenaFull m.cells.capacity⟩ 0 []
  | opening (hroom : m.cells.used < m.cells.capacity)
    (hdeep : OpenWords.capacity ≤ m.openWords.depth) :
    Refuses m words ⟨none, .compileNestingExceeded⟩ 1 []
  /-- A number has no room, and no cell has been asked for. -/
  | box {before after : List String} {word : String} {x : Single}
    (hwords : words = before ++ word :: after) (hbefore : Accepts m before)
    (hx : Single.ofText? word = some x)
    (hfull : m.bytes.remaining < Word.size * (boxes before).length + Word.size) :
    Refuses m words
      ⟨some word, .byteArenaFull Word.size
        (m.bytes.used + Word.size * (boxes before).length) m.bytes.capacity⟩
      (before.length + 1) (boxes before)
  /-- A name is not found, and no cell has been asked for. -/
  | name {before after : List String} {word : String} {fault : Fault}
    (hwords : words = before ++ word :: after) (hbefore : Accepts m before)
    (hx : Single.ofText? word = none)
    (hfault : (search word (m.boxed (boxes before))).answer = .error fault) :
    Refuses m words ⟨some word, fault⟩ (before.length + 1) (boxes before)
  /-- There is no cell for a word. If this is a number, it has been boxed. -/
  | place {before after : List String} {word : String}
    (hwords : words = before ++ word :: after) (hbefore : Accepts m before)
    (hboxes : Word.size * (boxes (before ++ [word])).length ≤ m.bytes.remaining)
    (hnames : Finds m (before ++ [word]))
    (hfull : m.cells.capacity ≤ m.cells.used + (before.length + 1)) :
    Refuses m words ⟨some word, .cellArenaFull m.cells.capacity⟩ (before.length + 1)
      (boxes (before ++ [word]))

/-- The leaf that a word is compiled to, behind others: it pushes the number, boxed anew, or links to
the cell of the entry. -/
inductive Wires (m : Machine σ) (b : ByteArena) (before : List String) (word : String) :
    Cell σ → Prop
  | number {x : Single} {v : Value} (hx : Single.ofText? word = some x)
    (hv : v = .float ⟨m.bytes.used + Word.size * (boxes before).length⟩)
    (hread : b.readFloat v = .ok x) : Wires m b before word ⟨.literal, v, 1⟩
  | name {id : EntryId} {e : Entry} (hx : Single.ofText? word = none)
    (hid : (search word (m.boxed (boxes before))).answer = .ok id)
    (he : (Machine.entry id (m.boxed (boxes before))).answer = .ok e) :
    Wires m b before word ⟨.link, .cell e.cell, 1⟩

/-- So many cells and these floats have been taken for the words of a line. The first cell is the head
of a run of all of them, and the words have got one each of the others. -/
structure Drafted (words : List String) (count : Nat) (floats : List Single) (m n : Machine σ) :
    Prop where
  frame : n = { m with
    bytes := m.bytes.filled floats, cells := n.cells, openWords := n.openWords }
  bytes : ∃ data, m.bytes.Holds data ∧ n.bytes.Holds (data ++ floats.flatMap Single.encode)
  grown : m.bytes.Grown n.bytes (Word.size * floats.length)
  used : n.cells.used = m.cells.used + count
  capacity : n.cells.capacity = m.cells.capacity
  kept : ∀ id c, m.cells.get id = .ok c → n.cells.get id =
    .ok { c with extent := c.extent + m.openWords.heads.count id * count }
  head : 0 < count → n.cells.get ⟨m.cells.used⟩ = .ok ⟨.zero, .nil, count⟩
  leaves : ∀ before word after, words = before ++ word :: after → before.length + 1 < count →
    ∃ c, Wires m n.bytes before word c ∧
      n.cells.get ⟨m.cells.used + (before.length + 1)⟩ = .ok c

variable {host : Host σ} {m k n : Machine σ} {words before after : List String} {word : String}
  {count : Nat} {floats : List Single}

theorem boxes_append (before after : List String) :
    boxes (before ++ after) = boxes before ++ boxes after := List.filterMap_append

theorem boxes_number {x : Single} (hx : Single.ofText? word = some x) (rest : List String) :
    boxes (word :: rest) = x :: boxes rest := List.filterMap_cons_some hx

theorem boxes_name (hx : Single.ofText? word = none) (rest : List String) :
    boxes (word :: rest) = boxes rest := List.filterMap_cons_none hx

theorem Finds.append (h : Finds m before) (hword : Single.ofText? word = none →
    ∃ id, (search word (m.boxed (boxes before))).answer = .ok id) : Finds m (before ++ [word]) := by
  intro first other rest hsplit hx
  rcases List.eq_nil_or_concat rest with rfl | ⟨rest, last, rfl⟩
  · obtain ⟨rfl, hlast⟩ := List.append_inj' hsplit rfl
    cases hlast
    exact hword hx
  · rw [List.concat_eq_append, ← List.cons_append, ← List.append_assoc] at hsplit
    exact h first other rest (List.append_inj' hsplit rfl).1 hx

/-- A line that is refused lacks something. -/
theorem Refuses.lacks {rejection : Rejection} (h : Refuses m words rejection count floats) :
    ¬ Accepts m words := by
  rintro ⟨hcells, hdepth, hbytes, hnames⟩
  cases h with
  | cell hfull => omega
  | opening _ hdeep => omega
  | box hwords _ hx hfull =>
    rw [hwords, boxes_append, boxes_number hx, List.length_append, List.length_cons, Nat.mul_add,
      Nat.mul_succ] at hbytes
    omega
  | name hwords _ hx hfault =>
    obtain ⟨id, hid⟩ := hnames _ _ _ hwords hx
    cases hid.symm.trans hfault
  | place hwords _ _ _ hfull =>
    rw [hwords, List.length_append, List.length_cons] at hcells
    omega

namespace Drafted

theorem none (hm : m.Tidy) (words : List String) : Drafted words 0 [] m m where
  frame := rfl
  bytes := by
    obtain ⟨data, hdata⟩ := hm.held
    exact ⟨data, hdata, by simpa using hdata⟩
  grown := ⟨rfl, rfl⟩
  used := rfl
  capacity := rfl
  kept id c hc := hc
  head h := absurd h (Nat.lt_irrefl 0)
  leaves _ _ _ _ h := absurd h (Nat.not_lt_zero _)

/-- The head. -/
theorem opened (hm : m.Tidy) (hroom : m.cells.used < m.cells.capacity) (words : List String) :
    Drafted words 1 [] m m.extended where
  frame := rfl
  bytes := (none hm words).bytes
  grown := ⟨rfl, rfl⟩
  used := rfl
  capacity := extended_capacity
  kept id c hc := by
    rw [Nat.mul_one]
    exact get_extended hc
  head _ := (newCell_ends hm.built hroom (by have := hm.cells; omega)).2
  leaves _ _ _ _ h := absurd h (by simp)

theorem of_words (h : Drafted words count floats m k) {openWords : OpenWords} :
    Drafted words count floats m { k with openWords } where
  frame := by
    rw [h.frame]
  bytes := h.bytes
  grown := h.grown
  used := h.used
  capacity := h.capacity
  kept := h.kept
  head := h.head
  leaves := h.leaves

/-- A number is boxed behind the others. -/
theorem box (h : Drafted words count floats m k) (x : Single)
    (hfits : k.bytes.used + Word.size ≤ k.bytes.capacity) (hsmall : k.bytes.capacity + 1 < wordLimit) :
    Drafted words count (floats ++ [x]) m (k.boxed [x]) := by
  obtain ⟨data, hdata, hheld⟩ := h.bytes
  obtain ⟨-, hnew, hgrown⟩ := hheld.box hsmall hfits x
  have hframe : k.bytes = m.bytes.filled floats := congrArg Machine.bytes h.frame
  refine ⟨?_, ⟨data, hdata, ?_⟩, ?_, h.used, h.capacity, h.kept, h.head,
    fun before word after hwords hlt => ?_⟩
  · rw [boxed, ByteArena.filled_append, ← hframe, h.frame]
  · rw [List.flatMap_append, List.flatMap_singleton, ← List.append_assoc]
    exact hnew
  · rw [List.length_append, List.length_singleton, Nat.mul_succ]
    exact h.grown.trans hgrown
  · obtain ⟨c, hc, hget⟩ := h.leaves before word after hwords hlt
    refine ⟨c, ?_, hget⟩
    cases hc with
    | number hx hv hread => exact .number hx hv (hheld.readFloat_append hnew hread)
    | name hx hid he => exact .name hx hid he

/-- A word gets a cell behind the others. -/
theorem place (hm : m.Tidy) (h : Drafted words (count + 1) floats m k)
    (hopen : k.openWords.heads = ⟨m.cells.used⟩ :: m.openWords.heads)
    (hget : k.extended.cells.get ⟨k.cells.used⟩ = .ok .empty) {c : Cell σ}
    (hwires : ∀ before word after, words = before ++ word :: after → before.length = count →
      Wires m k.bytes before word c) : Drafted words (count + 2) floats m (k.furnished c) := by
  have hclosed : ∀ i, m.openWords.heads.count ⟨m.cells.used + i⟩ = 0 := fun i =>
    List.count_eq_zero.mpr (hm.built.sound.not_open_of_le (Nat.le_add_right ..))
  have hused := h.used
  refine ⟨?_, h.bytes, h.grown, ?_, ?_, fun id d hd => ?_, fun _ => ?_,
    fun before word after hwords hlt => ?_⟩
  · rw [h.frame]
    rfl
  · exact congrArg (· + 1) hused
  · exact furnished_capacity.trans h.capacity
  · have hne : (⟨m.cells.used⟩ : CellId) ≠ id := by
      rintro rfl
      exact Nat.lt_irrefl _ (CellArena.get_eq_ok.mp hd).1
    rw [furnished_kept (h.kept id d hd), hopen, List.count_cons_of_ne hne, Nat.add_assoc]
    rfl
  · rw [furnished_kept (h.head (Nat.succ_pos _)), hopen, List.count_cons_self,
      show m.openWords.heads.count ⟨m.cells.used⟩ = 0 from hclosed 0]
  · by_cases hlast : before.length = count
    · refine ⟨c, hwires before word after hwords hlast, ?_⟩
      rw [hlast, ← hused]
      exact furnished_get hget c
    · obtain ⟨d, hd, hdget⟩ := h.leaves before word after hwords (by omega)
      refine ⟨d, hd, ?_⟩
      have hne : (⟨m.cells.used⟩ : CellId) ≠ ⟨m.cells.used + (before.length + 1)⟩ := by
        intro he
        have := congrArg CellId.index he
        simp only at this
        omega
      rw [furnished_kept hdget, hopen, List.count_cons_of_ne hne, hclosed]
      rfl

end Drafted

/-- The new cell is linked to that of an entry which links. -/
theorem link_ends (host : Host σ) {id : EntryId} {e : Entry}
    (he : (Machine.entry id k).answer = .ok e) (hcopy : k.copies.get e.copy = .ok .link)
    (hroom : k.cells.used < k.cells.capacity)
    (hget : k.extended.cells.get ⟨k.cells.used⟩ = .ok .empty)
    (hthere : e.cell.index < k.cells.used + 1) :
    (do
      let entry ← serve (.entry id)
      let strategy ← serve (.strategy entry.copy)
      (strategy.program host entry.cell ⟨k.cells.used⟩).start host : Step σ Unit).Ends
        k.extended [] (.ok ()) (k.furnished ⟨.link, .cell e.cell, 1⟩) := by
  have hread : (serve (.entry id)).Ends k.extended [] (.ok e) k.extended :=
    .serve (r := .entry id) he rfl
  have hlink : (serve (.strategy e.copy)).Ends k.extended [] (.ok .link) k.extended :=
    .serve (r := .strategy e.copy) hcopy rfl
  have hlast : k.extended.cells.used ≤ k.extended.cells.capacity := by
    rw [extended_capacity]
    exact hroom
  obtain ⟨c, hsource⟩ := CellArena.get_of_lt hlast hthere
  have hlinked := link_of_get hsource hget
  refine hread.silent (hlink.silent ?_)
  rw [Strategy.program, Program.start, Program.run_request]
  exact .serve (r := .link _ _) (congrArg Outcome.answer hlinked) (congrArg Outcome.machine hlinked)

/-- The words before have been compiled, and the word that they belong to is still open. -/
structure Drafting (words before : List String) (m k : Machine σ) : Prop where
  drafted : Drafted words (before.length + 1) (boxes before) m k
  opened : k.openWords.heads = ⟨m.cells.used⟩ :: m.openWords.heads
  accepts : Accepts m before
  built : k.Built

/-- What has become of the next word. -/
inductive Drafting.Next (words before : List String) (word : String) (m k : Machine σ) :
    Except Fault Unit → Machine σ → Prop
  | done {n : Machine σ} (h : Drafting words (before ++ [word]) m n) : Next words before word m k (.ok ()) n
  | failed {fault : Fault} {count : Nat} {floats : List Single} {n : Machine σ}
    (hrefuses : Refuses m words ⟨some word, fault⟩ count floats) (h : Drafted words count floats m n)
    (hopened : n.openWords = k.openWords) : Next words before word m k (.error fault) n

namespace Drafting

/-- Where there is no cell for a word, what has been boxed stays behind. -/
theorem unplaced (h : Drafting words before m k) (hwords : words = before ++ word :: after)
    (hd : Drafted words (before.length + 1) (boxes (before ++ [word])) m n)
    (hboxes : Word.size * (boxes (before ++ [word])).length ≤ m.bytes.remaining)
    (hnames : Finds m (before ++ [word])) (hopened : n.openWords = k.openWords)
    (hfull : n.cells.capacity ≤ n.cells.used) :
    Next words before word m k (.error (.cellArenaFull n.cells.capacity)) n := by
  rw [hd.capacity]
  refine .failed (.place hwords h.accepts hboxes hnames ?_) hd hopened
  rw [← hd.capacity, ← hd.used]
  exact hfull

theorem placed (hm : m.Tidy) (h : Drafting words before m k) (hwords : words = before ++ word :: after)
    (hd : Drafted words (before.length + 1) (boxes (before ++ [word])) m n)
    (hboxes : Word.size * (boxes (before ++ [word])).length ≤ m.bytes.remaining)
    (hnames : Finds m (before ++ [word])) (hopened : n.openWords = k.openWords)
    (hroom : n.cells.used < n.cells.capacity)
    (hget : n.extended.cells.get ⟨n.cells.used⟩ = .ok .empty) {c : Cell σ}
    (hwires : Wires m n.bytes before word c) (hb : (n.furnished c).Built) :
    Next words before word m k (.ok ()) (n.furnished c) := by
  have hused := hd.used
  have hcapacity := hd.capacity
  have hlength : (before ++ [word]).length = before.length + 1 := List.length_append
  have hheads : n.openWords.heads = ⟨m.cells.used⟩ :: m.openWords.heads := by
    rw [hopened]
    exact h.opened
  refine .done ⟨?_, hheads, ⟨?_, h.accepts.depth, hboxes, hnames⟩, hb⟩
  · rw [hlength]
    refine hd.place hm hheads hget fun first other rest hsplit hlen => ?_
    obtain ⟨rfl, hrest⟩ := List.append_inj (hwords.symm.trans hsplit) hlen.symm
    cases hrest
    exact hwires
  · omega

/-- A number is boxed, and its cell pushes it. -/
theorem number (hm : m.Tidy) (h : Drafting words before m k) (hwords : words = before ++ word :: after)
    {x : Single} (hx : Single.ofText? word = some x) :
    ∃ answer n, ((compileWord host word).start host).Ends k [] answer n ∧
      Next words before word m k answer n := by
  obtain ⟨hused, hcapacity⟩ := h.drafted.grown
  obtain ⟨data, hdata, hheld⟩ := h.drafted.bytes
  have hsmall : k.bytes.capacity + 1 < wordLimit := by
    rw [hcapacity]
    exact hm.bytes
  have hsize : Word.size = 4 := rfl
  rcases boxFloat_ends hheld hsmall x with ⟨hfull, hbox⟩ | ⟨hfits, hbox⟩
  · refine ⟨_, _, by rw [start_number hx]; exact hbox.fail, .failed ?_ h.drafted rfl⟩
    rw [ByteArena.full, hused, hcapacity]
    refine .box hwords h.accepts hx ?_
    rw [ByteArena.remaining]
    omega
  obtain ⟨-, hnew, -⟩ := hheld.box hsmall hfits x
  have hboxes : boxes (before ++ [word]) = boxes before ++ [x] := by
    rw [boxes_append, boxes_number hx]
    rfl
  have hd := h.drafted.box x hfits hsmall
  rw [← hboxes] at hd
  have hb : (k.boxed [x]).Built := (h.built.untouched (n := k.boxed [x]) rfl rfl).1
  have hroom : Word.size * (boxes (before ++ [word])).length ≤ m.bytes.remaining := by
    rw [hboxes, ByteArena.remaining, List.length_append, List.length_singleton, Nat.mul_succ]
    omega
  have hnames : Finds m (before ++ [word]) := h.accepts.names.append fun hnone => by
    cases hx.symm.trans hnone
  by_cases hplace : (k.boxed [x]).cells.used < (k.boxed [x]).cells.capacity
  swap
  · have hfull := Nat.le_of_not_lt hplace
    exact ⟨_, _, by rw [start_number hx]; exact hbox.silent (newCell_ends_full hfull).fail,
      h.unplaced hwords hd hroom hnames rfl hfull⟩
  have hcells := hd.capacity
  obtain ⟨hcell, hget⟩ := newCell_ends hb hplace (by have := hm.cells; omega)
  let v : Value := .float ⟨(data ++ (boxes before).flatMap Single.encode).length⟩
  have hbound := bindLiteral_of_get hget v
  have hends : ((compileWord host word).start host).Ends k [] (.ok ())
      ((k.boxed [x]).furnished ⟨.literal, v, 1⟩) := by
    rw [start_number hx]
    exact hbox.silent (hcell.silent (.serve (r := .bindLiteral _ _)
      (congrArg Outcome.answer hbound) (congrArg Outcome.machine hbound)))
  have hbuilt := h.built.start host (compileWord host word)
  rw [hends.machine] at hbuilt
  refine ⟨_, _, hends, h.placed hm hwords hd hroom hnames rfl hplace hget (.number hx ?_ ?_) hbuilt⟩
  · exact congrArg (fun offset => Value.float ⟨offset⟩) (hheld.used.symm.trans hused)
  · rw [← List.append_nil (_ ++ x.encode)] at hnew
    exact ByteArena.readFloat_of_read hnew.read

/-- A name is searched, and its cell links to that of the entry. -/
theorem name (hm : m.Tidy) (hlinks : Links m words) (h : Drafting words before m k)
    (hwords : words = before ++ word :: after) (hx : Single.ofText? word = none) :
    ∃ answer n, ((compileWord host word).start host).Ends k [] answer n ∧
      Next words before word m k answer n := by
  have hframe := h.drafted.frame
  have hbytes : k.bytes = (m.boxed (boxes before)).bytes := (congrArg Machine.bytes hframe :)
  have hdictionary : k.dictionary = (m.boxed (boxes before)).dictionary :=
    (congrArg Machine.dictionary hframe :)
  have hcopies : k.copies = m.copies := (congrArg Machine.copies hframe :)
  have hsearch := search_congr hbytes hdictionary word
  cases hfound : (search word (m.boxed (boxes before))).answer with
  | error fault =>
    have hmissed : (serve (.search word)).Ends k [] (.error fault) k :=
      .serve (r := .search word) (hsearch.trans hfound) rfl
    exact ⟨_, _, by rw [start_name hx]; exact hmissed.fail,
      .failed (.name hwords h.accepts hx hfound) h.drafted rfl⟩
  | ok id =>
  have hhit : (serve (.search word)).Ends k [] (.ok id) k :=
    .serve (r := .search word) (hsearch.trans hfound) rfl
  have hboxes : boxes (before ++ [word]) = boxes before := by
    rw [boxes_append, boxes_name hx]
    exact List.append_nil _
  have hd := h.drafted
  rw [← hboxes] at hd
  have hroom : Word.size * (boxes (before ++ [word])).length ≤ m.bytes.remaining := by
    rw [hboxes]
    exact h.accepts.bytes
  have hnames : Finds m (before ++ [word]) := h.accepts.names.append fun _ => ⟨id, hfound⟩
  by_cases hplace : k.cells.used < k.cells.capacity
  swap
  · have hfull := Nat.le_of_not_lt hplace
    exact ⟨_, _, by rw [start_name hx]; exact hhit.silent (newCell_ends_full hfull).fail,
      h.unplaced hwords hd hroom hnames rfl hfull⟩
  have hcells := hd.capacity
  have hused := hd.used
  obtain ⟨hcell, hget⟩ := newCell_ends h.built hplace (by have := hm.cells; omega)
  obtain ⟨e, he, hcopy, hthere⟩ := hlinks before word after hwords hx id hfound
  have hstrategy : k.copies.get e.copy = .ok .link := by
    rw [hcopies, hcopy]
    exact hm.links
  have hwired := link_ends host ((entry_congr hbytes id).trans he) hstrategy hplace hget (by omega)
  have hends : ((compileWord host word).start host).Ends k [] (.ok ())
      (k.furnished ⟨.link, .cell e.cell, 1⟩) := by
    rw [start_name hx]
    exact hhit.silent (hcell.silent hwired)
  have hbuilt := h.built.start host (compileWord host word)
  rw [hends.machine] at hbuilt
  exact ⟨_, _, hends, h.placed hm hwords hd hroom hnames rfl hplace hget (.name hx hfound he) hbuilt⟩

theorem next (host : Host σ) (hm : m.Tidy) (hlinks : Links m words) (h : Drafting words before m k)
    (hwords : words = before ++ word :: after) :
    ∃ answer n, ((compileWord host word).start host).Ends k [] answer n ∧
      Next words before word m k answer n := by
  cases hx : Single.ofText? word with
  | some x => exact h.number hm hwords hx
  | none => exact h.name hm hlinks hwords hx

end Drafting

/-- A line is compiled, or refused for the first fault on the way. -/
inductive Drafts (words : List String) (m n : Machine σ) (a : α) : Except Rejection α → Prop
  | compiled (haccepts : Accepts m words)
    (hdrafted : Drafted words (words.length + 1) (boxes words) m n) : Drafts words m n a (.ok a)
  | stopped {rejection : Rejection} {count : Nat} {floats : List Single}
    (hrefuses : Refuses m words rejection count floats)
    (hdrafted : Drafted words count floats m n) : Drafts words m n a (.error rejection)

theorem Drafts.ok_iff {a : α} {result : Except Rejection α} (h : Drafts words m n a result) :
    (∃ b, result = .ok b) ↔ Accepts m words := by
  cases h with
  | compiled haccepts => exact iff_of_true ⟨a, rfl⟩ haccepts
  | stopped hrefuses => exact iff_of_false nofun hrefuses.lacks

/-- The words behind those that have been compiled are compiled up to the first fault. -/
theorem Drafting.finish (host : Host σ) (hm : m.Tidy) (hlinks : Links m words) {rest : List String}
    (h : Drafting words before m k) (hwords : words = before ++ rest) :
    ∃ result n, ((compileWords host rest).start host).Ends k [] (.ok result) n ∧
      n.openWords = k.openWords ∧ Drafts words m n () result := by
  induction rest generalizing before k with
  | nil =>
    obtain rfl : words = before := by rw [hwords, List.append_nil]
    exact ⟨_, k, .pure _ k, rfl, .compiled h.accepts h.drafted⟩
  | cons word rest ih =>
    rw [start_compileWords]
    obtain ⟨answer, n, hends, hnext⟩ := h.next host hm hlinks hwords
    cases hnext with
    | failed hrefuses hd hopened =>
      exact ⟨_, n, hends.attempt.silent (.pure _ n), hopened, .stopped hrefuses hd⟩
    | done h' =>
      obtain ⟨result, o, hrest, hopened, hdrafts⟩ :=
        ih h' (by rw [hwords, List.append_assoc, List.singleton_append])
      refine ⟨result, o, hends.attempt.silent hrest, hopened.trans ?_, hdrafts⟩
      exact congrArg OpenWords.mk (h'.opened.trans h.opened.symm)

/-- A word can be opened on the last cell, unless there are too many open ones already. -/
theorem beginWord_ends (hm : m.Tidy) (hroom : m.cells.used < m.cells.capacity) :
    (OpenWords.capacity ≤ m.openWords.depth ∧ (serve (.beginWord ⟨m.cells.used⟩)).Ends m.extended []
      (.error .compileNestingExceeded) m.extended) ∨
    (m.openWords.depth < OpenWords.capacity ∧ (serve (.beginWord ⟨m.cells.used⟩)).Ends m.extended []
      (.ok ()) { m.extended with openWords := ⟨⟨m.cells.used⟩ :: m.openWords.heads⟩ }) := by
  have hsmall := hm.cells
  obtain ⟨-, hget⟩ := newCell_ends hm.built hroom (by omega)
  have hlast := extended_last (m := m) (by omega)
  have hnew : (⟨m.cells.used⟩ : CellId) ∉ m.extended.openWords.heads :=
    hm.built.sound.not_open_of_le (Nat.le_refl _)
  rcases beginWord_of_last hget hlast hnew with ⟨hdeep, hbegin⟩ | ⟨hfew, hbegin⟩
  · exact .inl ⟨hdeep, .serve (r := .beginWord _) (congrArg Outcome.answer hbegin)
      (congrArg Outcome.machine hbegin)⟩
  · exact .inr ⟨hfew, .serve (r := .beginWord _) (congrArg Outcome.answer hbegin)
      (congrArg Outcome.machine hbegin)⟩

/-- A word is opened for a line, or the line is refused before its first word. -/
theorem openWord_drafts (host : Host σ) (hm : m.Tidy) (words : List String) :
    (∃ fault count n, (openWord.start host).Ends m [] (.error fault) n ∧ n.openWords = m.openWords ∧
      Refuses m words ⟨none, fault⟩ count [] ∧ Drafted words count [] m n) ∨
    ∃ k, (openWord.start host).Ends m [] (.ok ()) k ∧ Drafting words [] m k := by
  have hbuilt := hm.built.start host openWord
  rw [start_openWord] at hbuilt ⊢
  by_cases hroom : m.cells.used < m.cells.capacity
  swap
  · have hfull := Nat.le_of_not_lt hroom
    exact .inl ⟨_, 0, m, (newCell_ends_full hfull).fail, rfl, .cell hfull, .none hm words⟩
  have hsmall := hm.cells
  obtain ⟨hcell, -⟩ := newCell_ends hm.built hroom (by omega)
  have hopened := Drafted.opened hm hroom words
  rcases beginWord_ends hm hroom with ⟨hdeep, hbegin⟩ | ⟨hfew, hbegin⟩
  · exact .inl ⟨_, 1, _, hcell.silent hbegin, rfl, .opening hroom hdeep, hopened⟩
  have hends : (serve (.newCell : Request σ) >>= fun head => serve (.beginWord head)).Ends m []
      (.ok ()) { m.extended with openWords := ⟨⟨m.cells.used⟩ :: m.openWords.heads⟩ } :=
    hcell.silent hbegin
  rw [hends.machine] at hbuilt
  refine .inr ⟨_, hends, hopened.of_words, rfl, ⟨?_, hfew, Nat.zero_le _, ?_⟩, hbuilt⟩
  · rw [List.length_nil]
    omega
  · intro before word after hnil
    cases before <;> cases hnil

/-- To compile a line is to open a word, to compile the words into it, and to close it. -/
theorem compile_drafts (host : Host σ) (hm : m.Tidy) (hlinks : Links m words) :
    ∃ result n, ((compile host words).start host).Ends m [] (.ok result) n ∧
      n.openWords = m.openWords ∧ Drafts words m n ⟨m.cells.used⟩ result := by
  rw [start_compile]
  rcases openWord_drafts host hm words with
    ⟨fault, count, n, hopen, hwords, hrefuses, hdrafted⟩ | ⟨k, hopen, hfirst⟩
  · exact ⟨_, n, hopen.attempt.silent (.pure _ n), hwords, .stopped hrefuses hdrafted⟩
  obtain ⟨compiled, n, hends, hopened, hdrafts⟩ :=
    hfirst.finish host hm hlinks (List.nil_append _).symm
  have hbuilt := hfirst.built.start host (compileWords host words)
  rw [hends.machine] at hbuilt
  have hclose := endWord_ends hbuilt (hopened ▸ hfirst.opened)
  cases hdrafts with
  | compiled haccepts hdrafted =>
    exact ⟨_, _, hopen.attempt.silent (hends.silent (hclose.attempt.silent (.pure _ _))), rfl,
      .compiled haccepts hdrafted.of_words⟩
  | stopped hrefuses hdrafted =>
    exact ⟨_, _, hopen.attempt.silent (hends.silent (hclose.attempt.silent (.pure _ _))), rfl,
      .stopped hrefuses hdrafted.of_words⟩

end Calculator

namespace Machine.Ledger

variable {m : Machine σ} {known : List Handle} {defs : Definitions}

/-- Boxed floats leave the entries as they were, and what a search finds. -/
theorem boxed (h : m.Ledger known defs) (floats : List Single) :
    (∃ more, (m.boxed floats).Ledger (known ++ more) defs) ∧ ∀ id, .entry id ∈ known →
      (Machine.entry id (m.boxed floats)).answer = (Machine.entry id m).answer := by
  induction floats generalizing m known with
  | nil => exact ⟨⟨[], by rw [List.append_nil]; exact h⟩, fun _ _ => rfl⟩
  | cons x rest ih =>
    obtain ⟨ha, hmachine⟩ := boxFloat_apply x m
    have hposted := h.perform (r := .boxFloat x) (List.nil_subset _)
    rw [Posted, show (Event.served (.boxFloat x) _).defines = [] from rfl, List.append_nil,
      show (ThreadedCode.perform (.boxFloat x) m).machine = m.boxed [x] from hmachine] at hposted
    obtain ⟨⟨more, hl⟩, hentries⟩ := ih hposted
    rw [List.append_assoc] at hl
    refine ⟨⟨_, hl⟩, fun id hid => (hentries id (List.mem_append_left _ hid)).trans ?_⟩
    have hreads : m.Reads [.entry id] _ := h.reads (r := .boxFloat x) ?_ (List.nil_subset _)
      (fun v hv => ?_) (fun _ _ => rfl) fun _ _ => List.not_mem_nil
    · rw [← hmachine]
      exact hreads.entry id (List.mem_singleton_self _)
    · exact List.cons_subset.mpr ⟨hid, List.nil_subset _⟩
    · change (Event.served (.boxFloat x) (Machine.boxFloat x m).answer).writes v = none
      rw [ha]
      cases (m.bytes.allocateCopy x.encode).1 with
      | error fault => rfl
      | ok address =>
        refine if_neg ?_
        rintro rfl
        cases List.mem_singleton.mp (hv (List.mem_singleton_self _))

end Machine.Ledger

section

variable {host : Host σ} {past events : List (Event σ)} {m n : Machine σ} {allowed : Value → Prop}

theorem Run.tidy_amid (h : Run host past m) (hm : Moves allowed m events n)
    (hcells : n.cells.capacity + 1 < wordLimit) (hbytes : n.bytes.capacity + 1 < wordLimit) :
    n.Tidy where
  built := (h.built.1.moves hm).1
  held := (h.moored hm).held
  cells := hcells
  bytes := hbytes
  links := by
    have hr : n.Registered := hm.preserve (I := fun _ m => m.Registered)
      (fun _ _ _ _ hr hmove => hr.move hmove) past h.registered
    exact CopyTable.get_of_prefix hr.1 rfl

/-- In a fresh run a search finds the same whatever has been boxed, and the cells of all entries are
there. -/
theorem FreshRun.links_amid (h : FreshRun host past m) (hallowed : ∀ v, allowed v → v.handles ⊆ given past)
    (hev : Fresh (given past) events) (hm : Moves allowed m events n) :
    (∀ query floats, (Machine.search query (n.boxed floats)).answer = (Machine.search query n).answer) ∧
    ∀ words, (∀ word ∈ words, Single.ofText? word = none → ∀ id e,
      (Machine.search word n).answer = .ok id → (Machine.entry id n).answer = .ok e →
      e.copy = CopyTable.link) → Calculator.Links n words := by
  have hl := h.ledger_amid hallowed hev hm
  have hsearch : ∀ query floats, (Machine.search query (n.boxed floats)).answer = (Machine.search query n).answer := by
    intro query floats
    obtain ⟨⟨more, hl'⟩, -⟩ := hl.boxed floats
    rw [hl'.search_answer, hl.search_answer]
    rfl
  refine ⟨hsearch, fun words hcopies before word after hwords hx id hid => ?_⟩
  rw [hsearch] at hid
  have hc := h.chronicled hallowed hev hm
  obtain ⟨name, hname⟩ := hl.found hid
  have hknown := hc.defined id (List.mem_map.mpr ⟨_, hname, rfl⟩)
  obtain ⟨cell, hmade⟩ := hc.created id hknown
  obtain ⟨w, -, hread, -⟩ := hc.entry hl hmade
  have he := congrArg Outcome.answer hread
  have hcell := (h.run.wired hm).cells cell id hmade
  have hmem : word ∈ words := by
    rw [hwords]
    exact List.mem_append_right _ (List.mem_cons_self ..)
  refine ⟨_, ((hl.boxed (Calculator.boxes before)).2 id hknown).trans he, hcopies word hmem hx id _ hid he, ?_⟩
  exact Nat.lt_of_lt_of_le hcell (Nat.le_add_right ..)

end

/-- At every moment of every run, where the names of a line that are found link to cells that are
there, the line is compiled exactly if a cell for each word and one for the head are left, a word can be
opened, the numbers fit into the byte arena, and every name is found. Otherwise it is refused for the
first fault on the way. The open words, the stack and the dictionary are the same again, the words that
are open have grown by the cells taken, and behind the head of the new word lie its leaves. In a fresh
run the cells of all entries are there, and names are found or not whatever has been boxed. -/
theorem Run.compile_outcome {host : Host σ} {past events : List (Event σ)} {m n : Machine σ}
    {allowed : Value → Prop} (h : Run host past m) (hm : Moves allowed m events n)
    (hcells : n.cells.capacity + 1 < wordLimit) (hbytes : n.bytes.capacity + 1 < wordLimit)
    (words : List String) :
    (FreshRun host past m → (∀ v, allowed v → v.handles ⊆ given past) → Fresh (given past) events →
      (∀ query floats,
        (Machine.search query (n.boxed floats)).answer = (Machine.search query n).answer) ∧
      ((∀ word ∈ words, Single.ofText? word = none → ∀ id e,
        (Machine.search word n).answer = .ok id → (Machine.entry id n).answer = .ok e →
        e.copy = CopyTable.link) → Calculator.Links n words)) ∧
    (Calculator.Links n words →
      let o := (Calculator.compile host words).start host n
      ∃ result, o.answer = .ok result ∧
        ((∃ head, result = .ok head) ↔ Calculator.Accepts n words) ∧
        Calculator.Drafts words n o.machine ⟨n.cells.used⟩ result ∧
        o.machine.openWords = n.openWords ∧ n.openWords.heads.Nodup ∧
        ∀ rejection, result = .error rejection → rejection.message =
          (rejection.word.elim "" fun word => word ++ ": ") ++ rejection.fault.message) := by
  refine ⟨fun hrun hallowed hev => ?_, fun hlinks => ?_⟩
  · obtain ⟨hsearch, hcopies⟩ := hrun.links_amid hallowed hev hm
    exact ⟨hsearch, hcopies words⟩
  · obtain ⟨result, o, hends, hopened, hdrafts⟩ :=
      Calculator.compile_drafts host (h.tidy_amid hm hcells hbytes) hlinks
    rw [← hends.machine] at hopened hdrafts
    have hb : n.Built := (h.built.1.moves hm).1
    refine ⟨result, hends.answer, hdrafts.ok_iff, hdrafts, hopened, hb.sound.nodup, ?_⟩
    rintro ⟨word, fault⟩ -
    cases word <;> simp [Calculator.Rejection.message]

/-- A line of a number, a name and a word without a meaning. -/
def Stock.mixed : List String := ["2.5", "bc", "none"]

open Stock in
/-- The head, the number and the name have got their cells when the last word is not found. -/
theorem Run.compile_outcome_of_mixed :
    let m : Machine signature := .create (.replicate 64 7) (.replicate 8 .empty) ⟨1, .strict⟩ none
    let registered := (Words.register twoRows).start host m
    let n := registered.machine
    let o := (Calculator.compile host mixed).start host n
    FreshRun host [] m ∧ Fresh (given ([] : List (Event signature))) registered.events ∧
    Moves (Operation.program (Words.register twoRows)).Gives m registered.events n ∧
    n.cells.capacity + 1 < wordLimit ∧ n.bytes.capacity + 1 < wordLimit ∧
    Calculator.Links n mixed ∧ ¬ Calculator.Accepts n mixed ∧
    o.answer = .ok (.error ⟨some "none", .notFound⟩) ∧
    Calculator.Drafts mixed n o.machine (⟨n.cells.used⟩ : CellId)
      (.error ⟨some "none", .notFound⟩) := by
  intro m registered n o
  have hrun : FreshRun host [] m := .created (.replicate 64 7) (.replicate 8 .empty) ⟨1, .strict⟩ none
  have hmoves : Moves (Operation.program (Words.register twoRows)).Gives m registered.events n :=
    (Operation.program (Words.register twoRows)).moves host m
  have hfresh : Fresh (given ([] : List (Event signature))) registered.events := by decide +kernel
  have hcells : n.cells.capacity + 1 < wordLimit := by decide +kernel
  have hbytes : n.bytes.capacity + 1 < wordLimit := by decide +kernel
  obtain ⟨hlinking, houtcome⟩ := Run.compile_outcome hrun.run hmoves hcells hbytes mixed
  have hfound : ∀ word ∈ mixed, (Machine.search word n).answer = .ok ⟨⟨22⟩⟩ ∨
      (Machine.search word n).answer = .error .notFound := by decide +kernel
  have hentry : (Machine.entry ⟨⟨22⟩⟩ n).answer.map Entry.copy = .ok CopyTable.link := by decide +kernel
  have hlinks := (hlinking hrun nofun hfresh).2 fun word hword _ id e hid he => by
    rcases hfound word hword with hone | hnone
    · cases hid.symm.trans hone
      rw [he] at hentry
      exact Except.ok.inj hentry
    · cases hid.symm.trans hnone
  have hanswer : o.answer = .ok (.error ⟨some "none", .notFound⟩) := by decide +kernel
  obtain ⟨result, hresult, haccepts, hdrafts, -⟩ := houtcome hlinks
  obtain rfl := Except.ok.inj (hresult.symm.trans hanswer)
  refine ⟨hrun, hfresh, hmoves, hcells, hbytes, hlinks, fun h => ?_, hanswer, hdrafts⟩
  obtain ⟨head, hhead⟩ := haccepts.mpr h
  cases hhead

open Stock in
/-- A name has been given to a record that a float lies in. There is all that it takes to compile it,
and it links, but there is no such cell. -/
theorem Run.compile_misfiled :
    let m : Machine signature := .create (.replicate 64 7) (.replicate 8 .empty) ⟨1, .strict⟩ none
    let emptied := (Machine.reset (oneEntry.start host m).machine).machine
    let n := ((misfiled 5).start host emptied).machine
    m.cells.capacity + 1 < wordLimit ∧ m.bytes.capacity + 1 < wordLimit ∧
    (∃ past, Run host past n) ∧ Calculator.Accepts n ["x"] ∧
    (Machine.search "x" n).answer = .ok ⟨⟨0⟩⟩ ∧
    (Machine.entry ⟨⟨0⟩⟩ n).answer.map Entry.copy = .ok CopyTable.link ∧
    ((Calculator.compile host ["x"]).start host n).answer =
      .ok (.error ⟨some "x", .invalidCell ⟨4⟩⟩) := by
  intro m emptied n
  have hcreated : Run host [] m := .created (.replicate 64 7) (.replicate 8 .empty) ⟨1, .strict⟩ none
  have hemptied : Run host [] emptied := (hcreated.operated (.program oneEntry)).emptied
  have hfound : (Machine.search "x" n).answer = .ok ⟨⟨0⟩⟩ := by decide +kernel
  refine ⟨by decide +kernel, by decide +kernel, ⟨_, hemptied.operated (.program (misfiled 5))⟩,
    ⟨?_, ?_, ?_, ?_⟩, hfound, ?_, ?_⟩
  · decide +kernel
  · decide +kernel
  · decide +kernel
  · intro before word after hword _
    rcases before with _ | ⟨first, _ | _⟩ <;> cases hword
    rw [Calculator.boxes, List.filterMap_nil, Machine.boxed_nil]
    exact ⟨_, hfound⟩
  · decide +kernel
  · decide +kernel

end ThreadedCode
