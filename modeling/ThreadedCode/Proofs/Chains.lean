import ThreadedCode.Proofs.Objects
import ThreadedCode.Dictionary.Table

/-!
The chains of the dictionary. The entries of a bucket are linked in the order of their definition, so
that a search along the chain is a search through all definitions.
-/
namespace ThreadedCode

/-- The words of a record that can be read back as they are. -/
structure Record.Sound (w : Record) : Prop where
  cell : w .cell ≠ 0
  bounded : ∀ field, w field < wordLimit

/-- The entry that a record tells. -/
def Record.entry (w : Record) : Entry where
  cell := ⟨w .cell - 1⟩
  copy := ⟨w .copy⟩
  name := match Address.ofNumber? (w .name) with
    | none => .nil
    | some address => .string address (w .nameLength)

/-- Names with their entries, in the order of their definition. -/
abbrev Definitions := List (String × EntryId)

namespace Definitions

def bucket (mode : Mode) (name : String) : Fin Dictionary.bucketCount :=
  Dictionary.bucketOf mode name.toUTF8.toList

/-- Whether a definition lies in this bucket. -/
def isIn (mode : Mode) (index : Fin Dictionary.bucketCount) (d : String × EntryId) : Bool :=
  bucket mode d.1 = index

/-- Whether a definition answers a query, if it is in the bucket of the query. -/
def answers (mode : Mode) (query : String) (d : String × EntryId) : Bool :=
  Dictionary.answers mode query.toUTF8.toList d.1.toUTF8.toList

/-- The first entry of a bucket among these definitions. -/
def first (mode : Mode) (index : Fin Dictionary.bucketCount) (defs : Definitions) : Option EntryId :=
  (defs.find? (isIn mode index)).map Prod.snd

/-- The last entry of a bucket. -/
def last (mode : Mode) (index : Fin Dictionary.bucketCount) (defs : Definitions) : Option EntryId :=
  (defs.reverse.find? (isIn mode index)).map Prod.snd

/-- What a name stands for. In compatible mode it is the oldest definition in the bucket of the query
that begins with it, in strict mode the newest definition of that very name. -/
def lookup (mode : Mode) (defs : Definitions) (query : String) : Option EntryId :=
  match mode with
  | .compatible => (defs.find? fun d => bucket .compatible d.1 = bucket .compatible query ∧
      query.toUTF8.toList <+: d.1.toUTF8.toList).map Prod.snd
  | .strict => (defs.reverse.find? fun d => d.1 = query).map Prod.snd

/-- The answer to a search. -/
def verdict (mode : Mode) (defs : Definitions) (query : String) : Except Fault EntryId :=
  match lookup mode defs query with
  | some id => .ok id
  | none => .error .notFound

end Definitions

/-- The number in a record that stands for an entry, or for none. -/
def EntryId.link : Option EntryId → Nat
  | none => 0
  | some id => id.address.number

theorem EntryId.of_link (id? : Option EntryId) :
    (Address.ofNumber? (link id?)).map EntryId.mk = id? := by
  cases id? with
  | none => rfl
  | some id => rfl

open Definitions Heap

/-- The records in the heap and the table of buckets say what has been defined. -/
structure Filed (heap : Heap) (defs : Definitions) (d : Dictionary) : Prop where
  named : ∀ n id, (n, id) ∈ defs → ∃ w address, heap.Places id.address (.record w) ∧
    w .name = address.number ∧ w .nameLength = n.toUTF8.toList.length ∧
    heap.Places address (.text n)
  spare : ∀ address w, heap.Places address (.record w) → ⟨address⟩ ∉ defs.map Prod.snd →
    w .name = 0 ∧ w .next = 0
  distinct : (defs.map Prod.snd).Nodup
  linked : ∀ before n id after w, defs = before ++ (n, id) :: after →
    heap.Places id.address (.record w) → w .next = EntryId.link (first d.mode (bucket d.mode n) after)
  buckets : ∀ index : Fin Dictionary.bucketCount, d.buckets.get index =
    ⟨defs.countP (isIn d.mode index), first d.mode index defs, last d.mode index defs⟩
  count : d.count = defs.length

namespace ByteArena

variable {a : ByteArena} {heap : Heap} {id : EntryId} {w : Record}

/-- An entry is read field by field. -/
theorem read_of_fields {id : EntryId} {w : Record} (hcell : w .cell ≠ 0)
    (h : ∀ field, Entry.readField a id field = .ok (w field)) : Entry.read a id = .ok w.entry := by
  have hnumber : CellId.ofNumber? (w .cell) = some ⟨w .cell - 1⟩ := by
    obtain ⟨k, hk⟩ : ∃ k, w .cell = k + 1 := ⟨w .cell - 1, by omega⟩
    rw [hk]
    rfl
  simp only [Entry.read, h, bind, Except.bind, hnumber, Record.entry]
  cases Address.ofNumber? (w .name) <;> rfl

theorem Stores.readEntry (h : a.Stores heap) (hp : heap.Places id.address (.record w))
    (hw : w.Sound) : Entry.read a id = .ok w.entry :=
  read_of_fields hw.cell fun field => h.readField hp field (hw.bounded field)

theorem Stores.next (h : a.Stores heap) (hp : heap.Places id.address (.record w))
    (hw : w.Sound) {id? : Option EntryId} (hnext : w .next = EntryId.link id?) :
    Entry.next? a id = .ok id? := by
  simp only [Entry.next?, h.readField hp .next (hw.bounded .next), bind, Except.bind, hnext]
  exact congrArg Except.ok (EntryId.of_link id?)

theorem Stores.nameBytes (h : a.Stores heap) (hp : heap.Places id.address (.record w))
    (hw : w.Sound) {address : Address} {n : String} (hname : w .name = address.number)
    (hlength : w .nameLength = n.toUTF8.toList.length) (ht : heap.Places address (.text n)) :
    Entry.nameBytes a id = .ok n.toUTF8.toList := by
  simp only [Entry.nameBytes, h.readEntry hp hw, Record.entry, hname, Address.ofNumber?_number,
    Value.asString, bind, Except.bind, hlength]
  exact h.readBytes ht

end ByteArena

/-- Every record of the heap can be read back. -/
def Heap.Sound (heap : Heap) : Prop := ∀ address w, heap.Places address (.record w) → w.Sound

namespace Filed

variable {heap : Heap} {defs : Definitions} {d : Dictionary} {a : ByteArena}

/-- The best answer among the definitions of a bucket. -/
def best (mode : Mode) (index : Fin Dictionary.bucketCount) (query : String) (defs : Definitions) :
    Option EntryId :=
  match mode with
  | .compatible => (defs.find? fun d => isIn .compatible index d && answers .compatible query d).map
      Prod.snd
  | .strict => (defs.reverse.find? fun d => isIn .strict index d && answers .strict query d).map
      Prod.snd

theorem best_cons_of_not {mode : Mode} {index : Fin Dictionary.bucketCount} {query : String}
    {entry : String × EntryId} (h : ¬ (isIn mode index entry = true ∧ answers mode query entry = true))
    (rest : Definitions) : best mode index query (entry :: rest) = best mode index query rest := by
  have hfalse : (isIn mode index entry && answers mode query entry) = false := by simpa using h
  cases mode with
  | compatible => rw [best, List.find?_cons, hfalse, best]
  | strict =>
    rw [best, List.reverse_cons, List.find?_append, List.find?_cons, hfalse, List.find?_nil,
      Option.or_none, best]

theorem best_cons_compatible {mode : Mode} {index : Fin Dictionary.bucketCount} {query : String}
    {entry : String × EntryId} (hm : mode = .compatible) (hin : isIn mode index entry = true)
    (hans : answers mode query entry = true) (rest : Definitions) :
    best mode index query (entry :: rest) = some entry.2 := by
  subst hm
  simp [best, hin, hans]

theorem best_cons_strict {mode : Mode} {index : Fin Dictionary.bucketCount} {query : String}
    {entry : String × EntryId} (hm : mode = .strict) (hin : isIn mode index entry = true)
    (hans : answers mode query entry = true) (rest : Definitions) :
    best mode index query (entry :: rest) =
      (best mode index query rest).or (some entry.2) := by
  subst hm
  simp [best, hin, hans, List.find?_append]

/-- Following the chain from any place on finds the best answer among the definitions from there on,
and otherwise the one that is known already. -/
theorem follow (hf : Filed heap defs d) (ha : a.Stores heap) (hs : heap.Sound) (query : String)
    (index : Fin Dictionary.bucketCount) {before rest : Definitions} (hsplit : defs = before ++ rest)
    {hops : Nat} (hhops : rest.countP (isIn d.mode index) ≤ hops) (found : Option EntryId) :
    Dictionary.follow a d.mode query.toUTF8.toList hops (first d.mode index rest) found =
      .ok ((best d.mode index query rest).or found) := by
  induction rest generalizing before hops found with
  | nil =>
    have hbest : best d.mode index query [] = none := by cases d.mode <;> rfl
    rw [hbest, Option.none_or]
    cases hops <;> rfl
  | cons entry rest ih =>
    obtain ⟨n, id⟩ := entry
    have hrest : defs = (before ++ [(n, id)]) ++ rest := by simp [hsplit]
    by_cases hin : isIn d.mode index (n, id) = true
    · obtain ⟨w, address, hp, hname, hlength, ht⟩ := hf.named n id (by simp [hsplit])
      have hw := hs _ _ hp
      have hnext := hf.linked before n id rest w hsplit hp
      have hindex : bucket d.mode n = index := by simpa [isIn] using hin
      rw [hindex] at hnext
      rw [List.countP_cons_of_pos hin] at hhops
      obtain ⟨hops, rfl⟩ : ∃ k, hops = k + 1 := ⟨hops - 1, by omega⟩
      have hfirst : first d.mode index ((n, id) :: rest) = some id := by simp [first, hin]
      have hhops' : rest.countP (isIn d.mode index) ≤ hops := by omega
      have hih := ih hrest hhops'
      simp only [hfirst, Dictionary.follow, ha.nameBytes hp hw hname hlength ht, ha.next hp hw hnext,
        bind, Except.bind]
      cases hans : Dictionary.answers d.mode query.toUTF8.toList n.toUTF8.toList with
      | false =>
        have hnot : ¬ (isIn d.mode index (n, id) = true ∧ answers d.mode query (n, id) = true) := by
          rintro ⟨-, hyes⟩
          exact Bool.false_ne_true (hans.symm.trans hyes)
        rw [best_cons_of_not hnot]
        exact hih found
      | true =>
        cases hm : d.mode with
        | compatible =>
          rw [← hm, best_cons_compatible hm hin hans, Option.some_or]
          simp only [hm]
          rfl
        | strict =>
          rw [← hm, best_cons_strict hm hin hans, Option.or_assoc, Option.some_or, ← hih]
          simp only [hm]
    · rw [List.countP_cons_of_neg hin] at hhops
      have hfirst : first d.mode index ((n, id) :: rest) = first d.mode index rest := by
        simp [first, hin]
      rw [hfirst, best_cons_of_not (fun h => hin h.1), ih hrest hhops found]

/-- In its bucket a query's best answer is what it stands for: only there can its answers be. -/
theorem best_eq_lookup (mode : Mode) (query : String) (defs : Definitions) :
    best mode (bucket mode query) query defs = lookup mode defs query := by
  cases mode with
  | compatible =>
    simp only [best, lookup]
    congr 2
    funext entry
    rw [Bool.eq_iff_iff]
    simp [isIn, answers, Dictionary.answers]
  | strict =>
    simp only [best, lookup]
    congr 2
    funext entry
    rw [Bool.eq_iff_iff]
    simp only [isIn, answers, Dictionary.answers, Bool.and_eq_true, decide_eq_true_eq, beq_iff_eq]
    refine ⟨fun h => utf8_inj.mp h.2, ?_⟩
    intro h
    rw [h]
    exact ⟨rfl, rfl⟩

/-- A search answers as the definitions do. -/
theorem search (hf : Filed heap defs d) (ha : a.Stores heap) (hs : heap.Sound) (query : String) :
    d.search a query.toUTF8.toList = verdict d.mode defs query := by
  have hfollow := hf.follow ha hs query (bucket d.mode query) (List.nil_append defs).symm
    (Nat.le_refl _) none
  have hbucket : d.buckets[bucket d.mode query] = _ := hf.buckets (bucket d.mode query)
  rw [Option.or_none, best_eq_lookup] at hfollow
  simp only [bucket] at hbucket hfollow
  simp only [Dictionary.search, hbucket, hfollow, bind, Except.bind, verdict]
  cases lookup d.mode defs query <;> rfl

end Filed
end ThreadedCode
