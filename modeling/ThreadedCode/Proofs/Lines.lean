import ThreadedCode.Proofs.Meanings
import ThreadedCode.Proofs.Primitives
import ThreadedCode.Proofs.Staging

/-!
Compiling where there is room. A line of words that all mean something is compiled to items that stand
for their meanings; any other line is refused for its first word without a meaning.
-/
namespace ThreadedCode
namespace Calculator

open Machine Step

variable {m n : Machine signature} {known : List Handle} {bound size count : Nat} {mode : Mode}
  {word : String}

/-- The vocabulary as a table of native words. -/
def natives : List (String × Procedure signature) :=
  vocabulary.map fun (text, word) => (text, .native (id word))

/-- The item stands for the meaning: a number lies in the byte arena, and a primitive is a leaf below
the bound. -/
inductive Means (known : List Handle) (bound : Nat) (m : Machine signature) : Meaning → Item → Prop
  | number {x : Single} {v : Value} (hv : v.handles ⊆ known) (hx : m.bytes.readFloat v = .ok x) :
    Means known bound m (.number x) (.literal v)
  | primitive {word : Word} {source : CellId} (hlt : source.index < bound)
    (hget : m.cells.get source = .ok ⟨.native word, .nil, 1⟩) :
    Means known bound m (.primitive word) (.linked source)

/-- Whatever stood for a meaning goes on to stand for it. -/
def Lasts (known known' : List Handle) (bound : Nat) (m n : Machine signature) : Prop :=
  ∀ meaning item, Means known bound m meaning item → Means known' bound n meaning item

theorem Lasts.of_spares {known' : List Handle} (hknown : known ⊆ known') (hspares : Spares bound m n)
    (hfloats : ∀ v x, v.handles ⊆ known → m.bytes.readFloat v = .ok x → n.bytes.readFloat v = .ok x) :
    Lasts known known' bound m n := by
  intro meaning item h
  cases h with
  | number hv hx => exact .number (List.Subset.trans hv hknown) (hfloats _ _ hv hx)
  | primitive hlt hget => exact .primitive hlt (hspares _ _ hlt hget)

/-- What items stand for lies in the two arenas. -/
theorem Means.all_of_eq {meanings : List Meaning} {items : List Item}
    (h : List.Forall₂ (Means known bound m) meanings items) (hc : n.cells = m.cells)
    (hb : n.bytes = m.bytes) : List.Forall₂ (Means known bound n) meanings items :=
  h.imp (Lasts.of_spares (List.Subset.refl _) (fun _ _ _ hget => hc ▸ hget) fun _ _ _ hx => hb ▸ hx)

/-- One word has been compiled to an item that stands for its meaning. -/
structure Placed (word : String) (meaning : Meaning) (bound size count : Nat) (known known' : List Handle)
    (m n : Machine signature) (item : Item) : Prop where
  ended : ((compileWord host word).start host).Ends m [] (.ok ()) n
  stocked : n.Stocked natives bound known'
  room : n.Room size count
  alike : m.Alike n
  opened : n.openWords = m.openWords
  resolved : (Item.resolve word m).answer = .ok (some item)
  later : ∀ source, item ≠ .immediate source
  means : Means known' bound n meaning item
  lasts : Lasts known known' bound m n

/-- A number is boxed, and its cell pushes it. -/
theorem number_placed (h : m.Stocked natives bound known) {x : Single}
    (hx : Single.ofText? word = some x) (hroom : m.Room (Word.size + size) (count + 1)) :
    ∃ known' n item, Placed word (.number x) bound size count known known' m n item := by
  obtain ⟨defs, hl, -⟩ := h.ledger
  obtain ⟨heap, ho⟩ := hl.accounts
  obtain ⟨b, ha, hm, hs, hroom1⟩ := hroom.boxFloat ho.stores x
  let v : Value := .float ⟨heap.bytes.length⟩
  have hs1 := h.rebyte (r := .boxFloat x) (List.nil_subset _) nofun nofun hm
  rw [ha] at hs1
  obtain ⟨hnew, hs2, hroom2, hget⟩ := hs1.newCell hroom1
  have hv : v.handles ⊆ known ++ v.handles := List.subset_append_right ..
  have hbind := bindLiteral_of_get hget v
  have hs3 := hs2.put (r := .bindLiteral ⟨m.cells.used⟩ v) hv rfl h.below
    (congrArg Outcome.machine hbind :)
  have hboxed : b.readFloat v = .ok x := hs.readFloat (Heap.places_last heap _)
  refine ⟨_, _, .literal v, ?_, hs3, hroom2.keep rfl rfl (CellArena.put_capacity ..), rfl, rfl, ?_,
    nofun, .number hv hboxed, ?_⟩
  · rw [start_number hx]
    exact (Step.Ends.serve ha hm).silent (hnew.silent
      (.serve (congrArg Outcome.answer hbind :) (congrArg Outcome.machine hbind :)))
  · simp only [Item.resolve, hx]
    rw [bind_of_ok (s := Machine.boxFloat x) ha]
    rfl
  · refine .of_spares (List.subset_append_left ..) ?_ fun w y hw hy => ?_
    · exact hs1.spares_extended.trans (spares_put h.below _)
    · obtain ⟨a, rfl, hp⟩ := ByteArena.readFloat_places hy ho.stores fun _ hh => ho.refers _ (hw hh)
      exact hs.readFloat (hp.append _)

/-- A search finds the primitive that the search rule tells, or nothing. -/
theorem search_cases (h : m.Stocked natives bound known) (word : String) :
    (Definitions.named m.settings.mode vocabulary word = none ∧
      (search word m).answer = .error .notFound) ∨
    ∃ primitive id, Definitions.named m.settings.mode vocabulary word = some primitive ∧
      (search word m).answer = .ok id ∧ m.Provides bound (.native primitive) id := by
  obtain ⟨defs, hl, ht⟩ := h.ledger
  have ha := hl.search_answer word
  have htable : List.Forall₂ (fun (t : String × Word) d => d.1 = t.1 ∧ m.Provides bound (.native t.2) d.2)
      vocabulary defs :=
    (List.forall₂_map_left_iff.mp ht).imp fun _ _ ⟨hname, _, hp⟩ => ⟨hname, hp⟩
  have hrel := Definitions.rel_named (R := fun (w : Word) id => m.Provides bound (.native w) id) htable
    m.settings.mode word
  rw [Definitions.verdict, Definitions.lookup_eq_named] at ha
  cases hnamed : Definitions.named m.settings.mode vocabulary word with
  | none =>
    rw [hnamed] at hrel
    cases hdefs : Definitions.named m.settings.mode defs word with
    | none =>
      rw [hdefs] at ha
      exact .inl ⟨rfl, ha⟩
    | some id =>
      rw [hdefs] at hrel
      cases hrel
  | some w =>
    rw [hnamed] at hrel
    cases hdefs : Definitions.named m.settings.mode defs word with
    | none =>
      rw [hdefs] at hrel
      cases hrel
    | some id =>
      rw [hdefs] at hrel ha
      cases hrel with
      | some hp => exact .inr ⟨w, id, rfl, ha, hp⟩

/-- A name is linked to the cell of its primitive. -/
theorem name_placed (h : m.Stocked natives bound known) (hx : Single.ofText? word = none)
    (hroom : m.Room size (count + 1)) {primitive : Word}
    (hnamed : Definitions.named m.settings.mode vocabulary word = some primitive) :
    ∃ known' n item, Placed word (.primitive primitive) bound size count known known' m n item := by
  rcases search_cases h word with ⟨hnone, -⟩ | ⟨w, id, hsome, hid, e, he, hlink, hlt, hcell⟩
  · cases hnone.symm.trans hnamed
  · cases hsome.symm.trans hnamed
    obtain ⟨hnew, hs1, hroom1, hget⟩ := h.newCell hroom
    have hsource := h.spares_extended e.cell _ hlt hcell
    have hwired := link_of_get hsource hget
    have hs2 := hs1.put (r := .link e.cell ⟨m.cells.used⟩) (List.nil_subset _) rfl h.below
      (congrArg Outcome.machine hwired :)
    have hspares : Spares bound m { m.extended with
        cells := m.extended.cells.put ⟨m.cells.used⟩ (Cell.empty.linked e.cell) } :=
      h.spares_extended.trans (spares_put h.below _)
    have hstrategy : m.copies.get e.copy = .ok .link := by
      rw [hlink, h.copies]
      rfl
    refine ⟨_, _, .linked e.cell, ?_, hs2, hroom1.keep rfl rfl (CellArena.put_capacity ..), rfl, rfl, ?_,
      nofun, .primitive hlt (hspares _ _ hlt hcell), ?_⟩
    · rw [start_name hx]
      refine (Step.Ends.serve (r := .search word) hid rfl).silent (hnew.silent ?_)
      refine (Step.Ends.serve (m := m.extended) (r := .entry id) he rfl).silent ?_
      refine (Step.Ends.serve (m := m.extended) (r := .strategy e.copy) hstrategy rfl).silent ?_
      rw [Strategy.program, Program.start, Program.run_request]
      exact .serve (congrArg Outcome.answer hwired :) (congrArg Outcome.machine hwired :)
    · simp only [Item.resolve, hx]
      rw [bind_of_ok hid, Outcome.after_answer]
      refine (congrArg Outcome.answer (bind_of_ok (m := m) he _)).trans ?_
      rw [Outcome.after_answer]
      have hread : (Machine.entry id m).machine = m := rfl
      rw [hread]
      simp only [bind_apply, get_apply, lift_apply, Outcome.bind_ok, Outcome.after_nil, hstrategy]
      rfl
    · exact .of_spares (List.Subset.refl _) hspares fun _ _ _ hx => hx

/-- A name that stands for nothing is refused, before anything is taken for it. -/
theorem name_refused (h : m.Stocked natives bound known) (hx : Single.ofText? word = none)
    (hnamed : Definitions.named m.settings.mode vocabulary word = none) :
    ((compileWord host word).start host).Ends m [] (.error .notFound) m := by
  rcases search_cases h word with ⟨-, ha⟩ | ⟨w, id, hsome, -⟩
  · rw [start_name hx]
    exact (Step.Ends.serve (r := .search word) ha rfl).fail
  · cases hsome.symm.trans hnamed

theorem word_placed (h : m.Stocked natives bound known) {meaning : Meaning}
    (hmeans : meaning? m.settings.mode word = some meaning)
    (hroom : m.Room (4 * numbers [word] + size) (count + 1)) :
    ∃ known' n item, Placed word meaning bound size count known known' m n item := by
  unfold meaning? at hmeans
  cases hx : Single.ofText? word with
  | some x =>
    rw [hx] at hmeans
    cases hmeans
    simp only [numbers, List.countP_singleton, hx, Option.isSome_some, if_true] at hroom
    exact number_placed h hx hroom
  | none =>
    rw [hx] at hmeans
    obtain ⟨primitive, hnamed, rfl⟩ := Option.map_eq_some_iff.mp hmeans
    simp only [numbers, List.countP_singleton, hx, Option.isSome_none, Bool.false_eq_true, if_false,
      Nat.mul_zero, Nat.zero_add] at hroom
    exact name_placed h hx hroom hnamed

theorem word_refused (h : m.Stocked natives bound known)
    (hmeans : meaning? m.settings.mode word = none) :
    ((compileWord host word).start host).Ends m [] (.error .notFound) m := by
  unfold meaning? at hmeans
  cases hx : Single.ofText? word with
  | some x =>
    rw [hx] at hmeans
    cases hmeans
  | none =>
    rw [hx] at hmeans
    exact name_refused h hx (Option.map_eq_none_iff.mp hmeans)

theorem numbers_cons (word : String) (rest : List String) :
    numbers (word :: rest) = numbers [word] + numbers rest := by
  simp only [numbers, List.countP_cons, List.countP_nil]
  omega

/-- The words of a line have been compiled to items that stand for their meanings. -/
structure AllPlaced (words : List String) (bound : Nat) (known known' : List Handle)
    (m n : Machine signature) (stages : List (Item × Machine signature)) : Prop where
  ended : ((compileWords host words).start host).Ends m [] (.ok (.ok ())) n
  stocked : n.Stocked natives bound known'
  alike : m.Alike n
  opened : n.openWords = m.openWords
  staged : Staged host words m stages
  later : immediates stages = []
  means : List.Forall₂ (Means known' bound n) (words.filterMap (meaning? m.settings.mode))
    (stages.map Prod.fst)
  lasts : Lasts known known' bound m n

theorem words_placed (h : m.Stocked natives bound known) {words : List String}
    (hall : (words.find? fun word => (meaning? m.settings.mode word).isNone) = none)
    (hroom : m.Room (4 * numbers words) words.length) :
    ∃ known' n stages, AllPlaced words bound known known' m n stages := by
  induction words generalizing m known with
  | nil =>
    exact ⟨known, m, [], .pure _ m, h, rfl, rfl, .nil m, rfl, .nil, fun _ _ h => h⟩
  | cons word rest ih =>
    rw [List.find?_cons] at hall
    cases hmeans : meaning? m.settings.mode word with
    | none =>
      rw [hmeans] at hall
      cases hall
    | some meaning =>
      rw [hmeans] at hall
      rw [numbers_cons, Nat.mul_add, List.length_cons] at hroom
      obtain ⟨known1, k, item, hword⟩ := word_placed h hmeans hroom
      have hmode : k.settings.mode = m.settings.mode := by rw [hword.alike]
      obtain ⟨known', n, stages, hrest⟩ := ih hword.stocked (by rw [hmode]; exact hall) hword.room
      refine ⟨known', n, (item, (newCell m).machine) :: stages, ?_, hrest.stocked,
        hword.alike.trans hrest.alike, hrest.opened.trans hword.opened, ?_, ?_, ?_, ?_⟩
      · rw [start_compileWords]
        exact hword.ended.attempt.silent hrest.ended
      · refine .cons hword.resolved (fun source hs => absurd hs (hword.later source)) ?_
        rw [hword.ended.machine]
        exact hrest.staged
      · have hskip : immediates ((item, (newCell m).machine) :: stages) = immediates stages := by
          cases item with
          | immediate source => exact absurd rfl (hword.later source)
          | _ => rfl
        rw [hskip]
        exact hrest.later
      · rw [List.filterMap_cons, hmeans]
        exact .cons (hrest.lasts _ _ hword.means) (hmode ▸ hrest.means)
      · exact fun meaning item hm => hrest.lasts _ _ (hword.lasts _ _ hm)

theorem words_refused (h : m.Stocked natives bound known) {words : List String}
    (hfirst : (words.find? fun word => (meaning? m.settings.mode word).isNone) = some word)
    (hroom : m.Room (4 * numbers words) words.length) :
    ∃ n, ((compileWords host words).start host).Ends m [] (.ok (.error ⟨some word, .notFound⟩)) n := by
  induction words generalizing m known with
  | nil => cases hfirst
  | cons other rest ih =>
    rw [List.find?_cons] at hfirst
    rw [start_compileWords]
    cases hmeans : meaning? m.settings.mode other with
    | none =>
      rw [hmeans] at hfirst
      cases hfirst
      exact ⟨m, (word_refused h hmeans).attempt.silent (.pure _ m)⟩
    | some meaning =>
      rw [hmeans] at hfirst
      rw [numbers_cons, Nat.mul_add, List.length_cons] at hroom
      obtain ⟨known1, k, item, hword⟩ := word_placed h hmeans hroom
      have hmode : k.settings.mode = m.settings.mode := by rw [hword.alike]
      obtain ⟨n, hrest⟩ := ih hword.stocked (by rw [hmode]; exact hfirst) hword.room
      exact ⟨n, hword.ended.attempt.silent hrest⟩

/-- A line is opened on a cell of its own. -/
theorem opened (h : m.Stocked natives bound known) (hopen : m.openWords = .none)
    (hroom : m.Room size (count + 1)) :
    let n : Machine signature := { m.extended with openWords := ⟨[⟨m.cells.used⟩]⟩ }
    (openWord.start host).Ends m [] (.ok ()) n ∧ n.Stocked natives bound known ∧ n.Room size count := by
  intro n
  obtain ⟨hnew, hs, hroom', hget⟩ := h.newCell hroom
  have hlast := extended_last (m := m) (Nat.lt_of_le_of_lt (Nat.le_add_right ..) hroom'.ids)
  have hnone : m.extended.openWords = .none := hopen
  have hclosed : (⟨m.cells.used⟩ : CellId) ∉ m.extended.openWords.heads := by
    rw [hnone]
    exact List.not_mem_nil
  rcases beginWord_of_last hget hlast hclosed with ⟨hdeep, -⟩ | ⟨-, hbegin⟩
  · rw [hnone] at hdeep
    exact absurd hdeep (by decide)
  rw [hnone] at hbegin
  have hs' := hs.perform (r := .beginWord ⟨m.cells.used⟩) (n := n) (List.nil_subset _) nofun nofun
    (congrArg Outcome.machine hbegin :) rfl (fun _ _ _ hget => hget) (Nat.le_refl _) fun head hmem => by
      rw [List.mem_singleton.mp hmem]
      exact h.below
  rw [Event.gives_of_part (.inr (.inl rfl)), List.append_nil] at hs'
  refine ⟨?_, hs', hroom'.keep rfl rfl rfl⟩
  rw [start_openWord]
  exact hnew.silent (.serve (congrArg Outcome.answer hbegin :) (congrArg Outcome.machine hbegin :))

/-- A line has been compiled: behind its head lie cells that stand for the meanings of its words. -/
structure Readied (words : List String) (bound : Nat) (m n : Machine signature) (head : CellId)
    (items : List Item) : Prop where
  ended : ((compile host words).start host).Ends m [] (.ok (.ok head)) n
  laid : Laid head items n
  built : n.Built
  alike : m.Alike n
  means : ∃ known, List.Forall₂ (Means known bound n) (words.filterMap (meaning? m.settings.mode)) items

theorem compile_readied (h : m.Stocked natives bound known) (hopen : m.openWords = .none)
    {words : List String}
    (hall : (words.find? fun word => (meaning? m.settings.mode word).isNone) = none)
    (hroom : m.Room (4 * numbers words) (words.length + 1)) :
    ∃ n head items, Readied words bound m n head items := by
  obtain ⟨hfirst, hs, hroom'⟩ := opened h hopen hroom
  obtain ⟨known', k, stages, hwords⟩ := words_placed hs hall hroom'
  have hclosed := endWord_ends hwords.stocked.built (congrArg OpenWords.heads hwords.opened)
  have hended : ((compile host words).start host).Ends m [] (.ok (.ok ⟨m.cells.used⟩))
      { k with openWords := ⟨[]⟩ } := by
    rw [start_compile]
    exact hfirst.attempt.silent (hwords.ended.silent (hclosed.attempt.silent (.pure _ _)))
  obtain ⟨hlaid, hbuilt, -⟩ := compile_staged h.built hended.answer (hfirst.machine ▸ hwords.staged)
  rw [hended.machine] at hlaid hbuilt
  exact ⟨_, _, _, hended, hlaid, hbuilt, Alike.trans (k := k) hwords.alike rfl, known',
    Means.all_of_eq hwords.means rfl rfl⟩

theorem compile_refused (h : m.Stocked natives bound known) (hopen : m.openWords = .none)
    {words : List String}
    (hbad : (words.find? fun word => (meaning? m.settings.mode word).isNone) = some word)
    (hroom : m.Room (4 * numbers words) (words.length + 1)) :
    ∃ n, ((compile host words).start host).Ends m [] (.ok (.error ⟨some word, .notFound⟩)) n := by
  obtain ⟨hfirst, hs, hroom'⟩ := opened h hopen hroom
  obtain ⟨n, hwords⟩ := words_refused hs hbad hroom'
  rw [start_compile]
  exact ⟨_, hfirst.attempt.silent (hwords.silent
    ((Step.Ends.serve (r := .endWord) rfl rfl).attempt.silent (.pure _ _)))⟩

end Calculator
end ThreadedCode
