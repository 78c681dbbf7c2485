import ThreadedCode.Proofs.Shortages

/-!
Only executions are refused for being nested too deeply. Whatever else a machine is asked for, it may
fail in many ways, but never in this one.
-/
namespace ThreadedCode

variable {σ : Signature} {α β : Type}

/-- This does not end with the refusal of an execution. -/
def Unrefused (answer : Except Fault α) : Prop := ∀ depth, answer ≠ .error (.callDepthExceeded depth)

theorem unrefused_ok (a : α) : Unrefused (.ok a) := nofun

/-- A refusal is a shortage, of levels. -/
theorem Ample.unrefused {answer : Except Fault α} (h : Ample answer) : Unrefused answer :=
  fun _ hrefused => nomatch h _ hrefused

namespace ByteArena

variable (a : ByteArena)

theorem allocate_unrefused (size : Nat) : Unrefused (a.allocate size) := by
  unfold allocate
  split <;> nofun

theorem allocateCopy_unrefused (bytes : List UInt8) : Unrefused (a.allocateCopy bytes).1 := by
  have hallocate := a.allocate_unrefused bytes.length
  unfold allocateCopy
  split
  · rename_i fault hfull
    rintro depth ⟨⟩
    exact hallocate depth hfull
  · rename_i address grown _
    have hwrite := (grown.write_ample address.offset bytes).unrefused
    split
    · rename_i fault hshort
      rintro depth ⟨⟩
      exact hwrite depth hshort
    · nofun

end ByteArena

theorem CellArena.allocate_unrefused (a : CellArena σ) : Unrefused a.allocate := by
  unfold allocate
  split <;> nofun

namespace Stack

variable (s : Stack)

theorem pop_unrefused : Unrefused s.pop := by
  unfold pop
  split <;> nofun

theorem pushSlot_unrefused (slot : Slot) : Unrefused (s.pushSlot slot) := by
  unfold pushSlot push
  split <;> nofun

end Stack

/-- The step does not end with the refusal of an execution. -/
def Step.Unrefused (s : Step σ α) : Prop := ∀ m, ThreadedCode.Unrefused (s m).answer

namespace Step

theorem Plain.unrefused {s : Step σ α} (h : s.Plain) : s.Unrefused := fun m => (h.ample m).unrefused

theorem unrefused_done {answer : Except Fault α} (h : ThreadedCode.Unrefused answer) :
    (done answer : Step σ α).Unrefused := fun _ => h

theorem unrefused_pure (a : α) : (pure a : Step σ α).Unrefused := unrefused_done (unrefused_ok a)

theorem unrefused_bind {s : Step σ α} {next : α → Step σ β} (hs : s.Unrefused)
    (hn : ∀ a, (next a).Unrefused) : (s >>= next).Unrefused := by
  intro m
  cases ha : (s m).answer with
  | ok a =>
    rw [bind_of_ok ha]
    exact hn a _
  | error fault =>
    rw [bind_of_error ha]
    rintro depth ⟨⟩
    exact hs m depth ha

theorem unrefused_get {next : Machine σ → Step σ α} (hn : ∀ m, (next m).Unrefused) :
    (get >>= next).Unrefused :=
  unrefused_bind (fun m => unrefused_ok m) hn

/-- A step that only changes the machine, or only tells the log. -/
theorem unrefused_of_ok {s : Step σ Unit} (h : ∀ m, (s m).answer = .ok ()) : s.Unrefused := by
  intro m
  rw [h]
  exact unrefused_ok ()

theorem unrefused_unless {c : Prop} [Decidable c] {fault : Fault} {s : Step σ α} (h : s.Unrefused)
    (hf : ∀ depth, fault ≠ .callDepthExceeded depth) :
    (if c then s else throw fault >>= fun (_ : PUnit) => s).Unrefused := by
  split
  · exact h
  · rintro m depth ⟨⟩
    exact hf depth rfl

theorem unrefused_unless_log {c : Prop} [Decidable c] {notice : Notice} {s : Step σ α}
    (h : s.Unrefused) : (if c then s else log notice >>= fun (_ : PUnit) => s).Unrefused := by
  split
  · exact h
  · exact unrefused_bind (unrefused_of_ok fun _ => rfl) fun _ => h

theorem unrefused_when_log {c : Prop} [Decidable c] {notice : Notice} {s : Step σ α}
    (h : s.Unrefused) : (if c then log notice >>= fun (_ : PUnit) => s else s).Unrefused := by
  split
  · exact unrefused_bind (unrefused_of_ok fun _ => rfl) fun _ => h
  · exact h

end Step

namespace Machine

open Step

theorem warnUnlessRoom_unrefused (size : Nat) : (warnUnlessRoom size : Step σ Unit).Unrefused := by
  refine unrefused_get fun m => ?_
  split <;> exact unrefused_of_ok fun _ => rfl

theorem allocate_unrefused (size : Nat) : (allocate size : Step σ Address).Unrefused :=
  unrefused_bind (warnUnlessRoom_unrefused size) fun _ => unrefused_get fun m =>
    unrefused_bind (unrefused_done (m.bytes.allocate_unrefused size)) fun _ =>
      unrefused_bind (unrefused_of_ok fun _ => rfl) fun _ => unrefused_pure _

theorem boxFloat_unrefused (x : Single) : (boxFloat x : Step σ Value).Unrefused := by
  refine unrefused_bind ?_ fun _ => unrefused_pure _
  refine unrefused_bind (warnUnlessRoom_unrefused _) fun _ => unrefused_get fun m => ?_
  exact unrefused_bind (unrefused_of_ok fun _ => rfl) fun _ =>
    unrefused_done (m.bytes.allocateCopy_unrefused _)

theorem boxText_unrefused (text : String) : (boxText text : Step σ Value).Unrefused := by
  simp only [boxText]
  split
  · exact unrefused_bind (allocate_unrefused _) fun _ =>
      unrefused_bind (write_plain _ _).unrefused fun _ => unrefused_pure _
  · refine unrefused_get fun m _ => ?_
    rintro depth ⟨⟩

theorem createEntry_unrefused (cell : CellId) : (createEntry cell : Step σ EntryId).Unrefused :=
  unrefused_get fun m => unrefused_bind (unrefused_done (m.cells.get_ample cell).unrefused) fun _ =>
    unrefused_bind (allocate_unrefused _) fun _ =>
      unrefused_bind (writeField_plain _ _ _).unrefused fun _ =>
        unrefused_bind (writeField_plain _ _ _).unrefused fun _ => unrefused_pure _

theorem define_unrefused (name : String) (id : EntryId) : (define name id : Step σ Unit).Unrefused := by
  refine unrefused_bind (entry_plain id).unrefused fun record => unrefused_unless ?_ nofun
  refine unrefused_get fun m => unrefused_bind (boxText_unrefused name) fun boxed => ?_
  refine unrefused_bind (unrefused_done boxed.asString_ample.unrefused) fun _ => ?_
  refine unrefused_bind (writeField_plain _ _ _).unrefused fun _ => ?_
  refine unrefused_bind (writeField_plain _ _ _).unrefused fun _ => unrefused_get fun n => ?_
  have hlast : ∀ index : Fin Dictionary.bucketCount, (do
      modify fun m => { m with dictionary := m.dictionary.append index id }
      log (.defined name index) : Step σ Unit).Unrefused := fun _ => unrefused_of_ok fun _ => rfl
  split
  · exact unrefused_bind (writeField_plain _ _ _).unrefused fun _ => hlast _
  · exact hlast _

theorem newCell_unrefused : (newCell : Step σ CellId).Unrefused := by
  refine unrefused_get fun m => unrefused_unless_log ?_
  refine unrefused_bind (unrefused_done m.cells.allocate_unrefused) fun allocated => ?_
  refine unrefused_bind (unrefused_of_ok fun _ => rfl) fun _ => ?_
  exact unrefused_bind (grow_all_plain _).unrefused fun _ => unrefused_pure _

theorem push_unrefused (slot : Slot) : (push slot : Step σ Unit).Unrefused :=
  unrefused_get fun m => unrefused_unless_log <|
    unrefused_bind (unrefused_done (m.stack.pushSlot_unrefused slot)) fun _ =>
      unrefused_of_ok fun _ => rfl

theorem pop_unrefused : (pop : Step σ Slot).Unrefused := by
  refine unrefused_get fun m => unrefused_when_log ?_
  exact unrefused_bind (unrefused_done m.stack.pop_unrefused) fun _ =>
    unrefused_bind (unrefused_of_ok fun _ => rfl) fun _ => unrefused_pure _

theorem popFloat_unrefused : (popFloat : Step σ Single).Unrefused := by
  refine unrefused_get fun m => ?_
  split
  · exact fun _ => nofun
  · exact unrefused_unless (unrefused_bind (floatOf_plain _).unrefused fun _ =>
      unrefused_bind pop_unrefused fun _ => unrefused_pure _) nofun

theorem pushLiteral_unrefused (value : Value) : (pushLiteral value : Step σ Unit).Unrefused := by
  simp only [pushLiteral]
  split
  · exact unrefused_bind (readFloat_plain _).unrefused fun _ => push_unrefused _
  · exact unrefused_bind (unrefused_pure _) fun _ => push_unrefused _

end Machine

open Step Machine

/-- No request is refused as an execution is. -/
theorem perform_unrefused (r : Request σ) : (perform r).Unrefused := by
  cases r with
  | newCell => exact newCell_unrefused
  | createEntry cell => exact createEntry_unrefused cell
  | define name id => exact define_unrefused name id
  | boxFloat x => exact boxFloat_unrefused x
  | boxText text => exact boxText_unrefused text
  | push slot => exact push_unrefused slot
  | pop => exact pop_unrefused
  | popFloat => exact popFloat_unrefused
  | _ => exact (perform_plain rfl).unrefused

theorem serve_unrefused (r : Request σ) : (serve r).Unrefused := by
  intro m
  rw [serve_answer]
  exact perform_unrefused r m

end ThreadedCode
