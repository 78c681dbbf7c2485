import ThreadedCode.Proofs.Postings
import ThreadedCode.Stock

/-!
The dictionary throughout a fresh run. Its chains through the byte arena answer every search as the
list of all definitions does.
-/
namespace ThreadedCode

variable {σ : Signature}

open Definitions

/-- If the event is a search, it is answered by these definitions. -/
def Event.Answers (mode : Mode) (defs : Definitions) : Event σ → Prop
  | .served (.search query) answer => answer = verdict mode defs query
  | _ => True

/-- Every search among the events is answered by the definitions made before it. -/
def Answered (mode : Mode) : Definitions → List (Event σ) → Prop
  | _, [] => True
  | defs, event :: rest => event.Answers mode defs ∧ Answered mode (defs ++ event.defines) rest

theorem answered_append (mode : Mode) (defs : Definitions) (first rest : List (Event σ)) :
    Answered mode defs (first ++ rest) ↔
      Answered mode defs first ∧ Answered mode (defs ++ definitions first) rest := by
  induction first generalizing defs with
  | nil => simp [Answered, definitions]
  | cons event first ih =>
    rw [List.cons_append, Answered, Answered, ih, and_assoc, List.append_assoc]
    rfl

theorem answered_logged (mode : Mode) (defs : Definitions) (notices : List Notice) :
    Answered mode defs (notices.map (Event.logged (σ := σ))) := by
  induction notices generalizing defs with
  | nil => trivial
  | cons notice rest ih => exact ⟨trivial, ih _⟩

namespace Machine

variable {m n : Machine σ} {known : List Handle} {defs : Definitions}

namespace Ledger

/-- A machine with nothing in it owes nothing. -/
theorem of_empty {b : ByteArena} {c : CellArena σ} (hb : m.bytes = b.reset) (hc : m.cells = c.reset)
    (ho : m.openWords = .none) (hd : m.dictionary = .empty m.settings.mode)
    (hs : m.stack.active = []) (hr : m.copies.rows.length ≤ CopyTable.capacity) :
    m.Ledger [] [] where
  built := .of_empty hc ho
  copies := hr
  mode := by rw [hd]; rfl
  accounts := by
    have hnone : ∀ a w, ¬ Heap.Places [] a (.record w) := fun a w h => absurd h.lt (Nat.not_lt_zero _)
    refine ⟨[], hb ▸ ByteArena.Holds.of_reset b, fun a w h => absurd h (hnone a w), nofun, ?_⟩
    rw [hd]
    exact {
      named := nofun
      spare := fun a w h => absurd h (hnone a w)
      distinct := List.nodup_nil
      linked := fun before n id after w h => by simp at h
      buckets := fun index => Vector.getElem_replicate index.isLt
      count := rfl }
  payloads v := by
    rintro ⟨id, cell, hget, -⟩
    rw [hc] at hget
    exact absurd (CellArena.get_eq_ok.mp hget).1 (Nat.not_lt_zero _)
  slots slot h := by simp [hs] at h

theorem literal (h : m.Ledger known defs) {v : Value} (hv : v.handles ⊆ known) :
    (pushLiteral v m).machine.Ledger known defs := by
  rcases pushLiteral_machine v m with hm | ⟨slot, s, rfl, hm, hact⟩
  · rw [hm]
    exact h
  · rw [hm]
    apply h.restack
    intro x hx
    rw [hact] at hx
    rcases List.mem_append.mp hx with hx | hx
    · exact .inl hx
    · exact .inr (List.mem_singleton.mp hx ▸ hv)

/-- Nesting does not show in the ledger. -/
theorem at_depth (h : m.Ledger known defs) (depth : Nat) :
    Ledger { m with callDepth := depth } known defs :=
  ⟨h.built.atDepth depth, h.copies, h.mode, h.accounts,
    h.payloads, h.slots⟩

/-- A move that uses known handles only is posted, and if it is a search it has the right answer. -/
theorem move (h : m.Ledger known defs) {allowed : Value → Prop} {events : List (Event σ)}
    (hallowed : ∀ v, allowed v → v.handles ⊆ known) (hev : Fresh known events)
    (hm : Move allowed m events n) : n.Ledger (known ++ given events) (defs ++ definitions events) ∧
      n.settings = m.settings ∧ Answered m.settings.mode defs events := by
  cases hm with
  | served r =>
    obtain ⟨notices, he⟩ := serve_events r m
    rw [he] at hev ⊢
    have hr : r.handles ⊆ known := by
      have := ((fresh_append ..).mp hev).2.1
      rwa [given_logged, List.append_nil] at this
    have hgiven : given [Event.served r (ThreadedCode.perform r m).answer] = _ := List.append_nil _
    have hdefines : definitions [Event.served r (ThreadedCode.perform r m).answer] = _ :=
      List.append_nil _
    rw [given_append, given_logged, hgiven, definitions_append, definitions_logged, hdefines,
      List.nil_append, List.nil_append]
    refine ⟨h.perform hr, (perform_kept r m).settled.1, ?_⟩
    refine (answered_append ..).mpr ⟨answered_logged .., ?_, trivial⟩
    rw [definitions_logged, List.append_nil]
    cases r with
    | search query => exact h.search_answer query
    | _ => trivial
  | literal v hv =>
    obtain ⟨-, notices, he⟩ := pushLiteral_within (m := m) v
    have hknown : v.handles ⊆ known := hv.elim (hallowed v) (h.payloads v)
    rw [he, given_logged, definitions_logged, List.append_nil, List.append_nil]
    exact ⟨h.literal hknown, (pushLiteral_kept v m).settled.1, answered_logged ..⟩
  | noted notice =>
    obtain ⟨notices, he⟩ := Step.log_events notice m
    rw [he, given_logged, definitions_logged, List.append_nil, List.append_nil]
    exact ⟨h, rfl, answered_logged ..⟩
  | deeper =>
    rw [given, definitions, List.flatMap_nil, List.flatMap_nil, List.append_nil, List.append_nil]
    exact ⟨h.at_depth _, rfl, trivial⟩
  | back =>
    rw [given, definitions, List.flatMap_nil, List.flatMap_nil, List.append_nil, List.append_nil]
    exact ⟨h.at_depth _, rfl, trivial⟩

end Ledger
end Machine

namespace FreshRun

variable {host : Host σ} {past : List (Event σ)} {m : Machine σ}

theorem ledger (h : FreshRun host past m) :
    m.Ledger (given past) (definitions past) ∧ Answered m.settings.mode [] past := by
  refine h.invariant (I := fun past m => m.Ledger (given past) (definitions past) ∧
    Answered m.settings.mode [] past) ?_ ?_ ?_
  · intro bytes cells settings verbosity
    exact ⟨.of_empty rfl rfl rfl rfl rfl (by decide : 3 ≤ CopyTable.capacity), trivial⟩
  · intro past m hm
    exact ⟨.of_empty rfl rfl rfl rfl rfl hm.1.copies, trivial⟩
  · intro allowed past m events n hallowed ⟨hm, ha⟩ hev hmove
    obtain ⟨hn, hs, hans⟩ := hm.move hallowed hev hmove
    rw [given_append, definitions_append, hs]
    exact ⟨hn, (answered_append ..).mpr ⟨ha, hans⟩⟩

/-- After any fresh run, and at every point in it, a search is answered by the definitions made until
then: in compatible mode with the first one in the bucket of the query that begins with it, in strict
mode with the last one of that name, and if there is none with `notFound`. The dictionary's own
counters count the definitions. -/
theorem searches (h : FreshRun host past m) :
    (∀ query, (Machine.search query m).answer =
      verdict m.settings.mode (definitions past) query) ∧
    (∀ before query answer after, past = before ++ .served (.search query) answer :: after →
      answer = verdict m.settings.mode (definitions before) query) ∧
    m.dictionary.count = (definitions past).length ∧
    ∀ index, m.dictionary.bucketSize index =
      (definitions past).countP fun d => (bucket m.settings.mode d.1).val = index := by
  obtain ⟨hl, ha⟩ := h.ledger
  obtain ⟨heap, ho⟩ := hl.accounts
  refine ⟨hl.search_answer, ?_, ho.filed.count, fun index => ?_⟩
  · rintro before query answer after rfl
    exact ((answered_append ..).mp ha).2.1
  · rw [← hl.mode]
    exact ho.filed.bucketSize index

end FreshRun

namespace Stock

/-- One name for two entries. -/
def nameTwice : Program signature Unit := do
  let cell ← request .newCell
  let older ← request (.createEntry cell)
  request (.define "a" older)
  let newer ← request (.createEntry cell)
  request (.define "a" newer)

end Stock

open Stock in
theorem FreshRun.searches_of_nameTwice :
    let m : Machine signature := .create (.replicate 64 0) (.replicate 1 .empty) ⟨1, .strict⟩ none
    let o := nameTwice.start host m
    FreshRun host o.events o.machine ∧ (Machine.search "a" o.machine).answer = .ok ⟨⟨22⟩⟩ ∧
    o.machine.dictionary.count = 2 := by
  intro m o
  have hrun : FreshRun host ([] ++ o.events) o.machine :=
    (FreshRun.created (.replicate 64 0) (.replicate 1 .empty) ⟨1, .strict⟩ none).operated
      (.program nameTwice) nofun (by decide +kernel)
  rw [List.nil_append] at hrun
  obtain ⟨hsearch, -, hcount, -⟩ := FreshRun.searches hrun
  exact ⟨hrun, (hsearch "a").trans (by decide +kernel), hcount.trans (by decide +kernel)⟩

end ThreadedCode
