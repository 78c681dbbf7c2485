import ThreadedCode.Proofs.Moves

/-!
Handles into the byte arena. A run is fresh if it uses no handle but those that it has been given
since the machine was last empty.
-/
namespace ThreadedCode

variable {σ : Signature}

/-- A way into the byte arena. -/
inductive Handle where
  | entry (id : EntryId)
  | float (address : Address)
  | text (address : Address) (length : Nat)
deriving DecidableEq

def Value.handles : Value → List Handle
  | .float address => [.float address]
  | .string address length => [.text address length]
  | _ => []

/-- The handles that a request uses. -/
def Request.handles : Request σ → List Handle
  | .setPayload _ v | .bindLiteral _ v | .readFloat v | .storeFloat v _ | .readText v => v.handles
  | .push slot => slot.value.handles
  | .entry id | .entryName id | .setEntryCopy id _ | .define _ id => [.entry id]
  | _ => []

namespace Event

def uses : Event σ → List Handle
  | .served r _ => r.handles
  | .logged _ => []

/-- The handles that an event gives out. -/
def gives : Event σ → List Handle
  | .served (.cell _) (.ok cell) => cell.payload.handles
  | .served (.createEntry _) (.ok id) | .served (.search _) (.ok id) => [.entry id]
  | .served (.entry _) (.ok entry) => entry.name.handles
  | .served (.boxFloat _) (.ok v) | .served (.boxText _) (.ok v) => v.handles
  | .served .pop (.ok slot) | .served (.nth _) (.ok (some slot)) => slot.value.handles
  | _ => []

end Event

theorem Value.entry_not_mem_handles (v : Value) (id : EntryId) : Handle.entry id ∉ v.handles := by
  cases v <;> simp [Value.handles]

/-- An entry is given out when it is created or found. -/
theorem Event.gives_entry {event : Event σ} {id : EntryId} (h : .entry id ∈ event.gives) :
    (∃ cell, event = .served (.createEntry cell) (.ok id)) ∨
    ∃ query, event = .served (.search query) (.ok id) := by
  have hvalue : ∀ v : Value, Handle.entry id ∉ v.handles := fun v => v.entry_not_mem_handles id
  unfold gives at h
  split at h
  · exact absurd h (hvalue _)
  · exact .inl ⟨_, by rw [Handle.entry.inj (List.mem_singleton.mp h)]⟩
  · exact .inr ⟨_, by rw [Handle.entry.inj (List.mem_singleton.mp h)]⟩
  · exact absurd h (hvalue _)
  · exact absurd h (hvalue _)
  · exact absurd h (hvalue _)
  · exact absurd h (hvalue _)
  · exact absurd h (hvalue _)
  · cases h

/-- The handles that a past has given out. -/
def given (past : List (Event σ)) : List Handle := past.flatMap Event.gives

/-- The events use handles only that are known before them. -/
def Fresh (known : List Handle) : List (Event σ) → Prop
  | [] => True
  | event :: rest => event.uses ⊆ known ∧ Fresh (known ++ event.gives) rest

instance decidableFresh (known : List Handle) : (events : List (Event σ)) →
    Decidable (Fresh known events)
  | [] => isTrue trivial
  | event :: rest =>
    have := decidableFresh (known ++ event.gives) rest
    inferInstanceAs (Decidable (event.uses ⊆ known ∧ Fresh (known ++ event.gives) rest))

@[simp] theorem given_append (first rest : List (Event σ)) :
    given (first ++ rest) = given first ++ given rest := List.flatMap_append

@[simp] theorem given_logged (notices : List Notice) :
    given (notices.map (Event.logged (σ := σ))) = [] := by
  induction notices with
  | nil => rfl
  | cons notice rest ih => exact ih

theorem fresh_append (known : List Handle) (first rest : List (Event σ)) :
    Fresh known (first ++ rest) ↔ Fresh known first ∧ Fresh (known ++ given first) rest := by
  induction first generalizing known with
  | nil => simp [Fresh, given]
  | cons event first ih =>
    rw [List.cons_append, Fresh, Fresh, ih, and_assoc, List.append_assoc]
    rfl

/-- The machines that operations lead to which use no handle from before the last reset, and no
handle that they have made up. -/
inductive FreshRun (host : Host σ) : List (Event σ) → Machine σ → Prop
  | created (bytes : Array UInt8) (cells : Array (Cell σ)) (settings : Settings)
    (verbosity : Option Level) : FreshRun host [] (.create bytes cells settings verbosity)
  | operated {past : List (Event σ)} {m : Machine σ} (h : FreshRun host past m) (op : Operation σ)
    (hop : ∀ v, op.Gives v → v.handles ⊆ given past)
    (hev : Fresh (given past) (op.step host m).events) :
    FreshRun host (past ++ (op.step host m).events) (op.step host m).machine
  | emptied {past : List (Event σ)} {m : Machine σ} (h : FreshRun host past m) :
    FreshRun host [] (Machine.reset m).machine

theorem FreshRun.run {host : Host σ} {past : List (Event σ)} {m : Machine σ}
    (h : FreshRun host past m) : Run host past m := by
  induction h with
  | created bytes cells settings verbosity => exact .created bytes cells settings verbosity
  | operated _ op _ _ ih => exact ih.operated op
  | emptied _ ih => exact ih.emptied

/-- An invariant that each move preserves which uses known handles only is preserved by many. -/
theorem Moves.preserve_fresh {allowed : Value → Prop} {I : List (Event σ) → Machine σ → Prop}
    (hI : ∀ past m events n, (∀ v, allowed v → v.handles ⊆ given past) → I past m →
      Fresh (given past) events → Move allowed m events n → I (past ++ events) n)
    {m n : Machine σ} {events : List (Event σ)} (h : Moves allowed m events n) :
    ∀ past, (∀ v, allowed v → v.handles ⊆ given past) → I past m → Fresh (given past) events →
      I (past ++ events) n := by
  induction h with
  | refl m =>
    intro past _ hp _
    simpa using hp
  | step hm _ ih =>
    intro past ha hp hev
    obtain ⟨hfirst, hrest⟩ := (fresh_append ..).mp hev
    rw [← List.append_assoc]
    refine ih _ (fun v hv => ?_) (hI _ _ _ _ ha hp hfirst hm) ?_
    · rw [given_append]
      exact List.Subset.trans (ha v hv) (List.subset_append_left ..)
    · rwa [given_append]

/-- What holds of empty machines and is preserved by every move that uses known handles only holds
throughout every fresh run. -/
theorem FreshRun.invariant {host : Host σ} {I : List (Event σ) → Machine σ → Prop}
    (hcreate : ∀ bytes cells settings verbosity, I [] (.create bytes cells settings verbosity))
    (hclear : ∀ past m, I past m → I [] m.cleared)
    (hmove : ∀ allowed past m events n, (∀ v, allowed v → v.handles ⊆ given past) → I past m →
      Fresh (given past) events → Move allowed m events n → I (past ++ events) n)
    {past : List (Event σ)} {m : Machine σ} (h : FreshRun host past m) : I past m := by
  induction h with
  | created bytes cells settings verbosity => exact hcreate bytes cells settings verbosity
  | emptied _ ih => exact hclear _ _ ih
  | operated _ op hop hev ih =>
    exact (op.moves host _).preserve_fresh (hmove op.Gives) _ hop ih hev

end ThreadedCode
