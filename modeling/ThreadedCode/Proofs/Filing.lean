import Mathlib.Data.List.Nodup
import ThreadedCode.Proofs.Chains

/-!
How the chains of the dictionary survive what is done to the heap, and how a definition extends them.
-/
namespace ThreadedCode

namespace Heap

variable {heap heap' heap'' : Heap} {a : Address} {o o' : Object} {w w' : Record} {x : Single}

theorem Replaced.trans (h : Replaced heap a o heap') (h' : Replaced heap' a o' heap'') :
    Replaced heap a o' heap'' :=
  ⟨h'.self, fun b hb y => (h'.others b hb y).trans (h.others b hb y)⟩

/-- One object more is an object put where there was none. -/
theorem replaced_append (heap : Heap) (o : Object) :
    Replaced heap ⟨heap.bytes.length⟩ o (heap ++ [o]) := by
  refine ⟨places_last heap o, fun b hb y => ⟨fun h => ?_, fun h => h.append [o]⟩⟩
  rcases h.of_append with h | ⟨he, -⟩
  · exact h
  · exact absurd he hb

theorem not_places_end (heap : Heap) (y : Object) : ¬ heap.Places ⟨heap.bytes.length⟩ y :=
  fun h => Nat.lt_irrefl _ h.lt

/-- What a handle refers to keeps its kind, and strings keep their text. -/
structure Evolves (heap heap' : Heap) : Prop where
  records : ∀ b w, heap.Places b (.record w) → ∃ w', heap'.Places b (.record w')
  floats : ∀ b x, heap.Places b (.float x) → ∃ y, heap'.Places b (.float y)
  texts : ∀ b s, heap.Places b (.text s) → heap'.Places b (.text s)

namespace Evolves

theorem refl (heap : Heap) : Evolves heap heap :=
  ⟨fun _ w h => ⟨w, h⟩, fun _ x h => ⟨x, h⟩, fun _ _ h => h⟩

theorem trans (h : Evolves heap heap') (h' : Evolves heap' heap'') : Evolves heap heap'' where
  records b w hw := by
    obtain ⟨w', hw'⟩ := h.records b w hw
    exact h'.records b w' hw'
  floats b x hx := by
    obtain ⟨y, hy⟩ := h.floats b x hx
    exact h'.floats b y hy
  texts b s hs := h'.texts b s (h.texts b s hs)

theorem of_fresh (hfresh : ∀ y, ¬ heap.Places a y) (h : Replaced heap a o heap') :
    Evolves heap heap' := by
  have hkeep : ∀ b y, heap.Places b y → heap'.Places b y := by
    intro b y hy
    refine (h.others b ?_ y).mpr hy
    rintro rfl
    exact hfresh y hy
  exact ⟨fun b w hw => ⟨w, hkeep b _ hw⟩, fun b x hx => ⟨x, hkeep b _ hx⟩, fun b s hs => hkeep b _ hs⟩

theorem of_record (hp : heap.Places a (.record w)) (h : Replaced heap a (.record w') heap') :
    Evolves heap heap' where
  records b v hv := by
    by_cases hb : b = a
    · exact ⟨w', hb ▸ h.self⟩
    · exact ⟨v, (h.others b hb _).mpr hv⟩
  floats b y hy := by
    by_cases hb : b = a
    · cases (hb ▸ hy).unique hp
    · exact ⟨y, (h.others b hb _).mpr hy⟩
  texts b s hs := by
    by_cases hb : b = a
    · cases (hb ▸ hs).unique hp
    · exact (h.others b hb _).mpr hs

theorem of_float (hp : heap.Places a (.float x)) {y : Single} (h : Replaced heap a (.float y) heap') :
    Evolves heap heap' where
  records b v hv := by
    by_cases hb : b = a
    · cases (hb ▸ hv).unique hp
    · exact ⟨v, (h.others b hb _).mpr hv⟩
  floats b z hz := by
    by_cases hb : b = a
    · exact ⟨y, hb ▸ h.self⟩
    · exact ⟨z, (h.others b hb _).mpr hz⟩
  texts b s hs := by
    by_cases hb : b = a
    · cases (hb ▸ hs).unique hp
    · exact (h.others b hb _).mpr hs

end Evolves

/-- Every record is one from before with the same name in the same chain, or a new one outside of
all chains. -/
def SameNames (heap heap' : Heap) : Prop :=
  ∀ a w', heap'.Places a (.record w') →
    (∃ w, heap.Places a (.record w) ∧ w' .name = w .name ∧ w' .nameLength = w .nameLength ∧
      w' .next = w .next) ∨
    ((∀ w, ¬ heap.Places a (.record w)) ∧ w' .name = 0 ∧ w' .next = 0)

theorem SameNames.of_replaced (h : Replaced heap a o heap')
    (ho : ∀ w', o = .record w' → (∃ w, heap.Places a (.record w) ∧ w' .name = w .name ∧
      w' .nameLength = w .nameLength ∧ w' .next = w .next) ∨
      ((∀ w, ¬ heap.Places a (.record w)) ∧ w' .name = 0 ∧ w' .next = 0)) :
    SameNames heap heap' := by
  intro b w' hw'
  by_cases hb : b = a
  · subst hb
    exact ho w' (h.self.unique hw')
  · exact .inl ⟨w', (h.others b hb _).mp hw', rfl, rfl, rfl⟩

/-- The record of an entry has got its name, and that of the entry which was the newest of the bucket
has got its link. -/
structure Defines (heap : Heap) (newest : Option EntryId) (id : EntryId) (w : Record) (n : String)
    (text : Address) (heap' : Heap) : Prop where
  filed : heap'.Places text (.text n)
  self : ∀ w', heap'.Places id.address (.record w') → w' .name = text.number ∧
    w' .nameLength = n.toUTF8.toList.length ∧ w' .next = w .next
  others : ∀ b w', b ≠ id.address → heap'.Places b (.record w') →
    ∃ v, heap.Places b (.record v) ∧ w' .name = v .name ∧ w' .nameLength = v .nameLength ∧
      w' .next = if newest = some ⟨b⟩ then id.address.number else v .next

end Heap

open Definitions Heap

namespace Definitions

variable {mode : Mode} {index : Fin Dictionary.bucketCount} {defs before after : Definitions}
  {n : String} {id : EntryId}

theorem first_append (mode : Mode) (index : Fin Dictionary.bucketCount) (defs : Definitions)
    (n : String) (id : EntryId) : first mode index (defs ++ [(n, id)]) =
      (first mode index defs).or (if bucket mode n = index then some id else none) := by
  by_cases h : bucket mode n = index
  · have hin : isIn mode index (n, id) = true := by simpa [isIn] using h
    rw [if_pos h, first, List.find?_append, List.find?_cons, hin, Option.map_or, Option.map_some, first]
  · simp [first, isIn, h]

theorem last_append (mode : Mode) (index : Fin Dictionary.bucketCount) (defs : Definitions)
    (n : String) (id : EntryId) : last mode index (defs ++ [(n, id)]) =
      if bucket mode n = index then some id else last mode index defs := by
  by_cases h : bucket mode n = index <;> simp [last, isIn, h]

theorem first_eq_none : first mode index defs = none ↔ ∀ d ∈ defs, bucket mode d.1 ≠ index := by
  simp [first, isIn]

theorem last_eq_none : last mode index defs = none ↔ ∀ d ∈ defs, bucket mode d.1 ≠ index := by
  simp [last, isIn]

theorem mem_of_last (h : last mode index defs = some id) :
    ∃ n, (n, id) ∈ defs ∧ bucket mode n = index := by
  obtain ⟨⟨n, id'⟩, hfind, rfl⟩ := Option.map_eq_some_iff.mp h
  refine ⟨n, List.mem_reverse.mp (List.mem_of_find?_eq_some hfind), ?_⟩
  simpa [isIn] using List.find?_some hfind

theorem mem_of_lookup {query : String} (h : lookup mode defs query = some id) :
    ∃ n, (n, id) ∈ defs := by
  cases mode with
  | compatible =>
    obtain ⟨⟨n, _⟩, hfind, rfl⟩ := Option.map_eq_some_iff.mp h
    exact ⟨n, List.mem_of_find?_eq_some hfind⟩
  | strict =>
    obtain ⟨⟨n, _⟩, hfind, rfl⟩ := Option.map_eq_some_iff.mp h
    exact ⟨n, List.mem_reverse.mp (List.mem_of_find?_eq_some hfind)⟩

theorem name_unique (hd : (defs.map Prod.snd).Nodup) {n' : String} (h : (n, id) ∈ defs)
    (h' : (n', id) ∈ defs) : n = n' :=
  congrArg Prod.fst (List.inj_on_of_nodup_map hd h h' rfl)

/-- The last entry of a bucket is the one in it that none in it follows. -/
theorem last_iff (mode : Mode) (index : Fin Dictionary.bucketCount)
    (hd : (defs.map Prod.snd).Nodup) (hsplit : defs = before ++ (n, id) :: after) :
    last mode index defs = some id ↔ bucket mode n = index ∧ first mode index after = none := by
  have hmem : (n, id) ∈ defs := by simp [hsplit]
  have hlast : last mode index defs = (last mode index after).or
      (if bucket mode n = index then some id else last mode index before) := by
    rw [hsplit, last, List.reverse_append, List.reverse_cons, List.find?_append, List.find?_append,
      List.find?_cons, Option.map_or, Option.map_or, Option.or_assoc]
    by_cases h : bucket mode n = index
    · have hin : isIn mode index (n, id) = true := by simpa [isIn] using h
      simp [hin, h, last]
    · have hin : isIn mode index (n, id) = false := by simpa [isIn] using h
      simp [hin, h, last]
  refine ⟨fun h => ?_, fun h => ?_⟩
  · obtain ⟨n', hn', hb⟩ := mem_of_last h
    rw [← name_unique hd hmem hn'] at hb
    refine ⟨hb, first_eq_none.mpr fun d hmemd hbd => ?_⟩
    obtain ⟨id', hid'⟩ : ∃ id', last mode index after = some id' :=
      Option.ne_none_iff_exists'.mp fun hnone => last_eq_none.mp hnone d hmemd hbd
    rw [hid', Option.some_or] at hlast
    obtain rfl : id' = id := Option.some.inj (hlast.symm.trans h)
    obtain ⟨n'', hn'', -⟩ := mem_of_last hid'
    rw [hsplit, List.map_append, List.map_cons] at hd
    have htail := (List.nodup_append.mp hd).2.1
    exact (List.nodup_cons.mp htail).1 (List.mem_map.mpr ⟨_, hn'', rfl⟩)
  · obtain ⟨hb, hf⟩ := h
    rw [hlast, last_eq_none.mpr (first_eq_none.mp hf), Option.none_or, if_pos hb]

end Definitions

namespace Filed

variable {heap heap' : Heap} {defs : Definitions} {d : Dictionary}

/-- What changes no name and no link leaves the dictionary as it is. -/
theorem of_sameNames (hf : Filed heap defs d) (he : Evolves heap heap')
    (hr : SameNames heap heap') : Filed heap' defs d where
  named n id hmem := by
    obtain ⟨w, address, hp, hname, hlength, ht⟩ := hf.named n id hmem
    obtain ⟨w', hp'⟩ := he.records _ w hp
    rcases hr _ w' hp' with ⟨v, hv, hname', hlength', -⟩ | ⟨hnone, -⟩
    · cases hv.unique hp
      exact ⟨w', address, hp', hname'.trans hname, hlength'.trans hlength, he.texts _ _ ht⟩
    · exact absurd hp (hnone w)
  spare a w' hp' hmem := by
    rcases hr _ w' hp' with ⟨w, hp, hname, -, hnext⟩ | ⟨-, hname, hnext⟩
    · obtain ⟨h, h'⟩ := hf.spare a w hp hmem
      exact ⟨hname.trans h, hnext.trans h'⟩
    · exact ⟨hname, hnext⟩
  distinct := hf.distinct
  linked before n id after w' hsplit hp' := by
    rcases hr _ w' hp' with ⟨w, hp, -, -, hnext⟩ | ⟨hnone, -⟩
    · exact hnext.trans (hf.linked before n id after w hsplit hp)
    · obtain ⟨w, -, hp, -⟩ := hf.named n id (by simp [hsplit])
      exact absurd hp (hnone w)
  buckets := hf.buckets
  count := hf.count

theorem newest (hf : Filed heap defs d) (index : Fin Dictionary.bucketCount) :
    d.newest index = last d.mode index defs := by
  exact congrArg Bucket.newest (hf.buckets index)

/-- The size of a bucket is the number of names that belong there. -/
theorem bucketSize (hf : Filed heap defs d) (index : Nat) :
    d.bucketSize index = defs.countP fun entry => (bucket d.mode entry.1).val = index := by
  unfold Dictionary.bucketSize
  by_cases h : index < Dictionary.bucketCount
  · have hsize := congrArg Bucket.size (hf.buckets ⟨index, h⟩)
    rw [Vector.getElem?_eq_getElem h]
    refine hsize.trans (List.countP_congr fun entry _ => ?_)
    simp [isIn, Fin.ext_iff]
  · rw [Vector.getElem?_eq_none (Nat.le_of_not_lt h)]
    refine (List.countP_eq_zero.mpr fun entry _ => ?_).symm
    have := (bucket d.mode entry.1).isLt
    simp only [decide_eq_true_eq]
    omega

/-- An entry without a name has not been defined. -/
theorem not_mem_of_unnamed (hf : Filed heap defs d) {id : EntryId} {w : Record}
    (hp : heap.Places id.address (.record w)) (hw : w .name = 0) : id ∉ defs.map Prod.snd := by
  intro hmem
  obtain ⟨⟨n, id⟩, hdef, rfl⟩ := List.mem_map.mp hmem
  obtain ⟨v, address, hv, hname, -⟩ := hf.named n id hdef
  cases hv.unique hp
  rw [hw] at hname
  exact absurd hname (Nat.succ_ne_zero _).symm

/-- The table of buckets takes in a definition at the end. -/
theorem buckets_append (hf : Filed heap defs d) (n : String) (id : EntryId)
    (index : Fin Dictionary.bucketCount) :
    (d.append (bucket d.mode n) id).buckets.get index =
      ⟨(defs ++ [(n, id)]).countP (isIn d.mode index), first d.mode index (defs ++ [(n, id)]),
        last d.mode index (defs ++ [(n, id)])⟩ := by
  rw [first_append, last_append, List.countP_append, List.countP_singleton]
  have hold : d.buckets[index] = _ := hf.buckets index
  change (d.append (bucket d.mode n) id).buckets[index] = _
  by_cases hin : bucket d.mode n = index
  · have hself : (d.append (bucket d.mode n) id).buckets[index] =
        ⟨d.buckets[index].size + 1,
          if d.buckets[index].newest.isSome then d.buckets[index].oldest else some id, some id⟩ := by
      subst hin
      simp [Dictionary.append]
    rw [hself, hold]
    simp only [hin, isIn, decide_true, if_true, Bucket.mk.injEq, and_true, true_and]
    cases hlast : last d.mode index defs with
    | none => simp [first_eq_none.mpr (last_eq_none.mp hlast)]
    | some e =>
      have hsome : first d.mode index defs ≠ none := fun hnone => by
        rw [last_eq_none.mpr (first_eq_none.mp hnone)] at hlast
        cases hlast
      obtain ⟨e', he'⟩ := Option.ne_none_iff_exists'.mp hsome
      simp [he']
  · have hother : (d.append (bucket d.mode n) id).buckets[index] = d.buckets[index] := by
      have hne : (bucket d.mode n).val ≠ index.val := fun h => hin (Fin.ext h)
      simp [Dictionary.append, Vector.getElem_set_ne, hne]
    rw [hother, hold]
    simp [hin, isIn]

/-- An entry that has been defined is another one. -/
theorem address_ne (hf : Filed heap defs d) {id id' : EntryId} {w : Record}
    (hp : heap.Places id.address (.record w)) (hw : w .name = 0) (hmem : id' ∈ defs.map Prod.snd) :
    id'.address ≠ id.address := by
  intro heq
  obtain rfl : id' = id := by
    cases id'
    cases id
    exact congrArg EntryId.mk heq
  exact hf.not_mem_of_unnamed hp hw hmem

section Define

variable {n : String} {id : EntryId} {w : Record} {text : Address}

theorem named_append (hf : Filed heap defs d) (hp : heap.Places id.address (.record w))
    (hw : w .name = 0) (he : Evolves heap heap')
    (hd : Defines heap (last d.mode (bucket d.mode n) defs) id w n text heap')
    {n' : String} {id' : EntryId} (hmem : (n', id') ∈ defs ++ [(n, id)]) :
    ∃ w' address, heap'.Places id'.address (.record w') ∧ w' .name = address.number ∧
      w' .nameLength = n'.toUTF8.toList.length ∧ heap'.Places address (.text n') := by
  rcases List.mem_append.mp hmem with hmem | hmem
  · obtain ⟨v, address, hv, hname, hlength, ht⟩ := hf.named n' id' hmem
    have hne := hf.address_ne hp hw (List.mem_map.mpr ⟨_, hmem, rfl⟩)
    obtain ⟨w', hw'⟩ := he.records _ v hv
    obtain ⟨v', hv', hname', hlength', -⟩ := hd.others _ w' hne hw'
    cases hv'.unique hv
    exact ⟨w', address, hw', hname'.trans hname, hlength'.trans hlength, he.texts _ _ ht⟩
  · obtain ⟨rfl, rfl⟩ := Prod.mk.inj (List.mem_singleton.mp hmem)
    obtain ⟨w', hw'⟩ := he.records _ w hp
    obtain ⟨hname, hlength, -⟩ := hd.self w' hw'
    exact ⟨w', text, hw', hname, hlength, hd.filed⟩

theorem spare_append (hf : Filed heap defs d)
    (hd : Defines heap (last d.mode (bucket d.mode n) defs) id w n text heap')
    {b : Address} {w' : Record} (hw' : heap'.Places b (.record w'))
    (hmem : ⟨b⟩ ∉ (defs ++ [(n, id)]).map Prod.snd) : w' .name = 0 ∧ w' .next = 0 := by
  rw [List.map_append, List.mem_append, not_or] at hmem
  have hb : b ≠ id.address := by
    rintro rfl
    exact hmem.2 (by simp)
  obtain ⟨v, hv, hname, -, hnext⟩ := hd.others b w' hb hw'
  obtain ⟨hv0, hv0'⟩ := hf.spare b v hv hmem.1
  rw [if_neg] at hnext
  · exact ⟨hname.trans hv0, hnext.trans hv0'⟩
  · intro hlast
    obtain ⟨n', hn', -⟩ := mem_of_last hlast
    exact hmem.1 (List.mem_map.mpr ⟨_, hn', rfl⟩)

/-- The link of an entry that was defined before leads to the new one if it was the last of the same
bucket, and to where it led otherwise. -/
theorem linked_before (hf : Filed heap defs d) (hp : heap.Places id.address (.record w))
    (hw : w .name = 0) (hd : Defines heap (last d.mode (bucket d.mode n) defs) id w n text heap')
    {before after : Definitions} {n' : String} {id' : EntryId} {w' : Record}
    (hsplit : defs = before ++ (n', id') :: after) (hw' : heap'.Places id'.address (.record w')) :
    w' .next = EntryId.link (first d.mode (bucket d.mode n') (after ++ [(n, id)])) := by
  have hmem : id' ∈ defs.map Prod.snd := List.mem_map.mpr ⟨(n', id'), by simp [hsplit], rfl⟩
  obtain ⟨v, hv, -, -, hnext⟩ := hd.others _ w' (hf.address_ne hp hw hmem) hw'
  have hlink := hf.linked before n' id' after v hsplit hv
  have hlast := last_iff d.mode (bucket d.mode n) hf.distinct hsplit
  rw [hnext, first_append]
  by_cases hnow : last d.mode (bucket d.mode n) defs = some id'
  · obtain ⟨hb, hnone⟩ := hlast.mp hnow
    rw [if_pos hnow, hb, hnone, Option.none_or, if_pos rfl]
    rfl
  · rw [if_neg hnow, hlink]
    cases hfirst : first d.mode (bucket d.mode n') after with
    | some y => rfl
    | none =>
      rw [if_neg]
      · rfl
      · intro hb
        rw [← hb] at hfirst
        exact hnow (hlast.mpr ⟨hb.symm, hfirst⟩)

theorem linked_append (hf : Filed heap defs d) (hp : heap.Places id.address (.record w))
    (hw : w .name = 0) (hd : Defines heap (last d.mode (bucket d.mode n) defs) id w n text heap')
    {before after : Definitions} {n' : String} {id' : EntryId} {w' : Record}
    (hsplit : defs ++ [(n, id)] = before ++ (n', id') :: after)
    (hw' : heap'.Places id'.address (.record w')) :
    w' .next = EntryId.link (first d.mode (bucket d.mode n') after) := by
  rcases List.eq_nil_or_concat after with rfl | ⟨after, x, rfl⟩
  · obtain ⟨-, hx⟩ := List.append_inj' hsplit rfl
    obtain ⟨rfl, rfl⟩ := Prod.mk.inj (List.cons.inj hx).1
    exact (hd.self w' hw').2.2.trans (hf.spare _ w hp (hf.not_mem_of_unnamed hp hw)).2
  · rw [List.concat_eq_append] at hsplit ⊢
    have hs : defs ++ [(n, id)] = (before ++ (n', id') :: after) ++ [x] := by simp [hsplit]
    obtain ⟨hdefs, hx⟩ := List.append_inj' hs rfl
    obtain rfl := (List.cons.inj hx).1
    exact hf.linked_before hp hw hd hdefs hw'

/-- A definition at the end: the dictionary takes it in. -/
theorem define (hf : Filed heap defs d) (hp : heap.Places id.address (.record w)) (hw : w .name = 0)
    (he : Evolves heap heap')
    (hd : Defines heap (last d.mode (bucket d.mode n) defs) id w n text heap') :
    Filed heap' (defs ++ [(n, id)]) (d.append (bucket d.mode n) id) where
  named _ _ hmem := hf.named_append hp hw he hd hmem
  spare _ _ hw' hmem := hf.spare_append hd hw' hmem
  distinct := by
    rw [List.map_append]
    refine List.nodup_append.mpr ⟨hf.distinct, by simp, ?_⟩
    rintro x hx y hy rfl
    obtain rfl : x = id := by simpa using hy
    exact hf.not_mem_of_unnamed hp hw hx
  linked _ _ _ _ _ hsplit hw' := hf.linked_append hp hw hd hsplit hw'
  buckets := hf.buckets_append n id
  count := by
    change d.count + 1 = (defs ++ [(n, id)]).length
    simp [hf.count]

end Define

end Filed
end ThreadedCode
