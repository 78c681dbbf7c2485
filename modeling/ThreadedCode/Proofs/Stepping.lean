import Mathlib.Data.List.Nodup
import Mathlib.Logic.Function.Iterate
import ThreadedCode.Proofs.Layout

/-!
Execution step by step, with nothing that limits it but the machine's own settings. Whatever has been
begun and is not finished yet lies in frames, the innermost first. At every step the machine is as
deep as there are executions among the frames, and every walk has come to ever further places.
-/
namespace ThreadedCode

variable {σ : Signature} {α : Type}

/-- A walk through the run of a head. -/
structure Walk where
  head : CellId
  /-- The extent of the head when the walk began. -/
  extent : Nat
  /-- The places that the walk has come to, the latest first. -/
  visited : List Nat
  /-- The place where it goes on. -/
  index : Nat

namespace Walk

/-- A walk begins behind the head. -/
def start (head : CellId) (extent : Nat) : Walk := ⟨head, extent, [], 1⟩

/-- The walk has come to its next place and goes on behind the `width` cells there. -/
def past (w : Walk) (width : Nat) : Walk :=
  { w with visited := w.index :: w.visited, index := w.index + width }

end Walk

/-- What a machine is to do next. -/
inductive Task (σ : Signature) where
  | execute (cell : CellId)
  /-- Execute a cell, one level deeper already. -/
  | enter (head : CellId)
  | walk (w : Walk)
  | call (cell : CellId)
  /-- Take the top slot off the stack and call the cell in it. -/
  | callTop
  | invoke (procedure : Procedure σ) (payload : Value)
  | run (p : Program σ Unit)
  /-- Tell the innermost frame how what it waits for has ended. -/
  | give (answer : Except Fault Unit)

/-- What has been begun and waits for something inside it. -/
inductive Frame (σ : Signature) where
  | execution
  | walk (w : Walk)
  | code (next : Except Fault Unit → Program σ Unit)

def Frame.isExecution : Frame σ → Bool
  | .execution => true
  | _ => false

/-- A machine in the middle of an operation. -/
structure Config (σ : Signature) where
  task : Task σ
  frames : List (Frame σ)
  machine : Machine σ
  events : List (Event σ)

namespace Config

/-- Does a step on the machine and turns to another task. -/
def go (c : Config σ) (s : Step σ α) (next : Except Fault α → Task σ) : Config σ where
  task := next (s c.machine).answer
  frames := c.frames
  machine := (s c.machine).machine
  events := c.events ++ (s c.machine).events

/-- Puts a frame around another task. -/
def inside (c : Config σ) (frame : Frame σ) (task : Task σ) : Config σ :=
  { c with task, frames := frame :: c.frames }

def fail (c : Config σ) (fault : Fault) : Config σ := { c with task := .give (.error fault) }

/-- An execution begins, or is refused. -/
def execute (c : Config σ) (cell : CellId) : Config σ :=
  let depth := c.machine.callDepth
  if depth < c.machine.settings.maxCallDepth then
    { c with
      task := .enter cell
      frames := .execution :: c.frames
      machine := { c.machine with callDepth := depth + 1 } }
  else c.go (Step.log (.callDepthExceeded depth cell)) fun _ =>
    .give (.error (.callDepthExceeded depth))

def enter (c : Config σ) (head : CellId) : Config σ :=
  match c.machine.cells.get head with
  | .error fault => c.fail fault
  | .ok cell =>
    if cell.extent = 1 then { c with task := .call head }
    else c.go (Step.log (.walked head cell.extent)) fun _ => .walk (.start head cell.extent)

/-- One round of a walk: a leaf is called, and a compound word is executed as a unit. -/
def walk (c : Config σ) (w : Walk) : Config σ :=
  if w.index < w.extent then
    match w.head.shift? w.index with
    | none => c.fail (.invalidCell w.head)
    | some id =>
      match c.machine.cells.get id with
      | .error fault => c.fail fault
      | .ok cell =>
        if cell.extent = 1 then c.inside (.walk (w.past 1)) (.call id)
        else c.inside (.walk (w.past cell.extent)) (.execute id)
  else { c with task := .give (.ok ()) }

def call (c : Config σ) (cell : CellId) : Config σ :=
  match c.machine.cells.get cell with
  | .error fault => c.fail fault
  | .ok target => c.go (Step.log (.called cell)) fun _ => .invoke target.procedure target.payload

/-- Calls the cell in a slot that has been asked for. -/
def callSlot : Except Fault Slot → Task σ
  | .error fault => .give (.error fault)
  | .ok slot =>
    match slot.value.asCell with
    | .error fault => .give (.error fault)
    | .ok cell => .call cell

def invoke (host : Host σ) (c : Config σ) : Procedure σ → Value → Config σ
  | .zero, _ => { c with task := .give (.ok ()) }
  | .link, payload =>
    match payload.asCell with
    | .error fault => c.fail fault
    | .ok cell => { c with task := .execute cell }
  | .literal, payload => c.go (Machine.pushLiteral payload) .give
  | .native name, payload =>
    match host.procedure name with
    | .program body => { c with task := .run (body payload) }
    | .callTop next => c.inside (.code next) .callTop

def run (c : Config σ) : Program σ Unit → Config σ
  | .finish answer => { c with task := .give answer }
  | .ask request next => c.go (serve request) fun answer => .run (next answer)
  | .execute cell next => c.inside (.code next) (.execute cell)

/-- Goes on with the innermost frame. Where there is none, everything is done. -/
def resume (c : Config σ) (answer : Except Fault Unit) : Config σ :=
  match c.frames with
  | [] => c
  | .execution :: rest =>
    { c with frames := rest, machine := { c.machine with callDepth := c.machine.callDepth - 1 } }
  | .walk w :: rest =>
    match answer with
    | .ok _ => { c with task := .walk w, frames := rest }
    | .error _ => { c with frames := rest }
  | .code next :: rest => { c with task := .run (next answer), frames := rest }

/-- One step. -/
def step (host : Host σ) (c : Config σ) : Config σ :=
  match c.task with
  | .execute cell => c.execute cell
  | .enter head => c.enter head
  | .walk w => c.walk w
  | .call cell => c.call cell
  | .callTop => c.go (serve .pop) callSlot
  | .invoke procedure payload => c.invoke host procedure payload
  | .run p => c.run p
  | .give answer => c.resume answer

end Config

/-- An operation that is about to begin. -/
def Operation.config (op : Operation σ) (m : Machine σ) : Config σ where
  task :=
    match op with
    | .program p => .run p
    | .call cell => .call cell
    | .invoke procedure payload => .invoke procedure payload
  frames := []
  machine := m
  events := []

namespace Walk

/-- The places that a walk comes to ascend, and they lie within the extent that the head had when the
walk began. -/
structure Ascending (w : Walk) : Prop where
  behind : 1 ≤ w.index
  ascends : (w.index :: w.visited).Pairwise (· > ·)
  inside : ∀ i ∈ w.visited, 1 ≤ i ∧ i < w.extent

theorem ascending_start (head : CellId) (extent : Nat) : (start head extent).Ascending where
  behind := Nat.le_refl 1
  ascends := List.pairwise_singleton ..
  inside := nofun

theorem Ascending.past {w : Walk} (h : w.Ascending) {width : Nat} (hw : 1 ≤ width)
    (hi : w.index < w.extent) : (w.past width).Ascending where
  behind := Nat.le_add_right_of_le h.behind
  ascends := by
    refine List.pairwise_cons.mpr ⟨fun i hmem => ?_, h.ascends⟩
    change w.index + width > i
    rcases List.mem_cons.mp hmem with rfl | hmem
    · omega
    · have := (List.pairwise_cons.mp h.ascends).1 i hmem
      omega
  inside i hmem := by
    rcases List.mem_cons.mp hmem with rfl | hmem
    · exact ⟨h.behind, hi⟩
    · exact h.inside i hmem

end Walk

namespace Machine

variable {m : Machine σ}

/-- The step leaves the layout in order, and the settings and the depth as they are. -/
structure Steadied (m : Machine σ) (s : Step σ α) : Prop where
  built : (s m).machine.Built
  settings : (s m).machine.settings = m.settings
  depth : (s m).machine.callDepth = m.callDepth

theorem Built.steadied_log (hb : m.Built) (notice : Notice) : m.Steadied (Step.log notice) :=
  ⟨hb, rfl, rfl⟩

theorem Built.steadied_serve (hb : m.Built) (r : Request σ) : m.Steadied (serve r) := by
  obtain ⟨hs, hd, -⟩ := (perform_kept r m).settled
  exact ⟨(hb.perform r).1, hs, hd⟩

theorem Built.steadied_literal (hb : m.Built) (v : Value) : m.Steadied (pushLiteral v) := by
  have hkept : Part.stack.Kept m (pushLiteral v m).machine := pushLiteral_kept v m
  obtain ⟨hs, hd, -⟩ := hkept.settled
  exact ⟨(hb.untouched (hkept.cells nofun) (hkept.words nofun)).1, hs, hd⟩

end Machine

namespace Config

/-- The walk is under way. -/
def Walks (c : Config σ) (w : Walk) : Prop := c.task = .walk w ∨ Frame.walk w ∈ c.frames

/-- The machine has its settings still, it is as deep as there are executions under way and within
its limit, and the walks ascend. -/
structure Bounded (settings : Settings) (c : Config σ) : Prop where
  built : c.machine.Built
  settled : c.machine.settings = settings
  depth : c.frames.countP Frame.isExecution = c.machine.callDepth
  limit : c.machine.callDepth ≤ settings.maxCallDepth
  walks : ∀ w, c.Walks w → w.Ascending

namespace Bounded

variable {settings : Settings} {c : Config σ}

theorem framed (h : c.Bounded settings) {w : Walk} (hw : Frame.walk w ∈ c.frames) : w.Ascending :=
  h.walks w (.inr hw)

/-- Turning to another task that walks no further. -/
theorem turn (h : c.Bounded settings) {task : Task σ} (ht : ∀ w, task = .walk w → w.Ascending) :
    Bounded settings { c with task } where
  built := h.built
  settled := h.settled
  depth := h.depth
  limit := h.limit
  walks w hw := hw.elim (ht w) h.framed

theorem fail (h : c.Bounded settings) (fault : Fault) : (c.fail fault).Bounded settings := h.turn nofun

theorem go (h : c.Bounded settings) {s : Step σ α} (hs : c.machine.Steadied s) {next : Except Fault α → Task σ}
    (ht : ∀ answer w, next answer = .walk w → w.Ascending) : (c.go s next).Bounded settings where
  built := hs.built
  settled := hs.settings.trans h.settled
  depth := h.depth.trans hs.depth.symm
  limit := Nat.le_trans (Nat.le_of_eq hs.depth) h.limit
  walks w hw := hw.elim (ht _ w) h.framed

theorem inside (h : c.Bounded settings) {frame : Frame σ} {task : Task σ} (hf : frame.isExecution = false)
    (hw : ∀ w, frame = .walk w → w.Ascending) (ht : ∀ w, task ≠ .walk w) :
    (c.inside frame task).Bounded settings where
  built := h.built
  settled := h.settled
  depth := (List.countP_cons_of_neg (by simp [hf])).trans h.depth
  limit := h.limit
  walks w hmem := by
    rcases hmem with hmem | hmem
    · exact absurd hmem (ht w)
    · rcases List.mem_cons.mp hmem with rfl | hmem
      · exact hw w rfl
      · exact h.framed hmem

theorem execute (h : c.Bounded settings) (cell : CellId) : (c.execute cell).Bounded settings := by
  unfold Config.execute
  simp only
  split
  · rename_i hlt
    refine ⟨h.built.atDepth _, h.settled, ?_, ?_, ?_⟩
    · exact (List.countP_cons_of_pos rfl).trans (congrArg (· + 1) h.depth)
    · rw [h.settled] at hlt
      exact hlt
    · rintro w (hw | hw)
      · cases hw
      · rcases List.mem_cons.mp hw with hw | hw
        · cases hw
        · exact h.framed hw
  · exact h.go (h.built.steadied_log _) nofun

theorem enter (h : c.Bounded settings) (head : CellId) : (c.enter head).Bounded settings := by
  unfold Config.enter
  split
  · exact h.fail _
  · split
    · exact h.turn nofun
    · refine h.go (h.built.steadied_log _) fun _ w hw => ?_
      cases hw
      exact Walk.ascending_start ..

theorem walk (h : c.Bounded settings) {w : Walk} (hw : w.Ascending) : (c.walk w).Bounded settings := by
  unfold Config.walk
  split
  · rename_i hi
    split
    · exact h.fail _
    · split
      · exact h.fail _
      · rename_i id _ _ cell hg
        have hpos : 1 ≤ cell.extent := by
          rw [← CellArena.extentAt_of_get hg]
          exact h.built.sound.positive _
        split
        · refine h.inside rfl (fun w' hw' => ?_) nofun
          cases hw'
          exact hw.past (Nat.le_refl 1) hi
        · refine h.inside rfl (fun w' hw' => ?_) nofun
          cases hw'
          exact hw.past hpos hi
  · exact h.turn nofun

theorem call (h : c.Bounded settings) (cell : CellId) : (c.call cell).Bounded settings := by
  unfold Config.call
  split
  · exact h.fail _
  · exact h.go (h.built.steadied_log _) nofun

theorem callTop (h : c.Bounded settings) : (c.go (serve .pop) callSlot).Bounded settings := by
  refine h.go (h.built.steadied_serve .pop) fun answer w hw => ?_
  unfold callSlot at hw
  split at hw
  · cases hw
  · split at hw
    · cases hw
    · cases hw

theorem invoke (h : c.Bounded settings) (host : Host σ) (procedure : Procedure σ) (payload : Value) :
    (c.invoke host procedure payload).Bounded settings := by
  cases procedure with
  | zero => exact h.turn nofun
  | link =>
    simp only [Config.invoke]
    split
    · exact h.fail _
    · exact h.turn nofun
  | literal => exact h.go (h.built.steadied_literal payload) nofun
  | native name =>
    simp only [Config.invoke]
    split
    · exact h.turn nofun
    · exact h.inside rfl nofun nofun

theorem run (h : c.Bounded settings) (p : Program σ Unit) : (c.run p).Bounded settings := by
  cases p with
  | finish answer => exact h.turn nofun
  | ask request next =>
    have hrest : ∀ answer w, Task.run (next answer) = .walk w → w.Ascending := nofun
    exact h.go (h.built.steadied_serve request) hrest
  | execute cell next => exact h.inside rfl nofun nofun

/-- Without its innermost frame, at the depth that this leaves. -/
theorem resume (h : c.Bounded settings) (answer : Except Fault Unit) (ha : c.task = .give answer) :
    (c.resume answer).Bounded settings := by
  obtain ⟨task, frames, m, events⟩ := c
  obtain rfl : task = .give answer := ha
  have hd : frames.countP Frame.isExecution = m.callDepth := h.depth
  -- Only an execution counts towards the depth.
  have hpop : ∀ {frame rest} {next : Task σ}, frames = frame :: rest → frame.isExecution = false →
      (∀ w, next = .walk w → w.Ascending) → Bounded settings ⟨next, rest, m, events⟩ := by
    rintro frame rest next rfl hf ht
    refine ⟨h.built, h.settled, ?_, h.limit, fun w hw => hw.elim (ht w) fun hmem => ?_⟩
    · rw [List.countP_cons_of_neg (by simp [hf])] at hd
      exact hd
    · exact h.framed (List.mem_cons_of_mem _ hmem)
  unfold Config.resume
  simp only
  cases frames with
  | nil => exact h
  | cons frame rest =>
    cases frame with
    | execution =>
      rw [List.countP_cons_of_pos rfl] at hd
      have hlimit : m.callDepth ≤ settings.maxCallDepth := h.limit
      refine ⟨h.built.atDepth _, h.settled, ?_, ?_, ?_⟩
      · change rest.countP Frame.isExecution = m.callDepth - 1
        omega
      · exact Nat.le_trans (Nat.sub_le ..) hlimit
      · rintro w (hw | hw)
        · cases hw
        · exact h.framed (List.mem_cons_of_mem _ hw)
    | walk w =>
      cases answer with
      | ok _ =>
        refine hpop rfl rfl fun w' hw' => ?_
        cases hw'
        exact h.framed (List.mem_cons_self ..)
      | error fault => exact hpop rfl rfl nofun
    | code next => exact hpop rfl rfl nofun

theorem step (h : c.Bounded settings) (host : Host σ) : (c.step host).Bounded settings := by
  unfold Config.step
  cases ht : c.task with
  | execute cell => exact h.execute cell
  | enter head => exact h.enter head
  | walk w => exact h.walk (h.walks w (.inl ht))
  | call cell => exact h.call cell
  | callTop => exact h.callTop
  | invoke procedure payload => exact h.invoke host procedure payload
  | run p => exact h.run p
  | give answer => exact h.resume answer ht

theorem iterate (h : c.Bounded settings) (host : Host σ) (k : Nat) : ((Config.step host)^[k] c).Bounded settings := by
  induction k with
  | zero => exact h
  | succ k ih =>
    rw [Function.iterate_succ_apply']
    exact ih.step host

end Bounded

/-- An operation begins without frames, on a machine at rest. -/
theorem bounded_start (op : Operation σ) {m : Machine σ} (hb : m.Built) (hd : m.callDepth = 0) :
    (op.config m).Bounded m.settings where
  built := hb
  settled := rfl
  depth := hd.symm
  limit := by
    change m.callDepth ≤ _
    omega
  walks := by
    rintro w (hw | hw)
    · cases op <;> cases hw
    · cases hw

end Config
end ThreadedCode
