import Mathlib.Logic.Function.Iterate
import SsaKit.Proofs.Parallel
import SsaKit.Proofs.Widening

/-! A run as a machine that takes one instruction at a time and keeps the open calls on a stack. No
step of it counts fuel. -/
namespace SsaKit

/-- An open call: where it is, what it has computed, and what memory held before it. -/
structure Activation where
  function : FunctionId
  block : BlockId
  pending : List ValueId
  frame : Frame
  mark : Nat

/-- A result comes back to the instruction that a call waits at. -/
def Activation.resume (a : Activation) (d : Datum) : Activation :=
  match a.pending with
  | [] => a
  | v :: rest => { a with pending := rest, frame := a.frame.insert v d }

/-- A run between two instructions, the innermost call first, or after its end. -/
inductive Stage where
  | running (top : Activation) (callers : List Activation) (s : Machine)
  | finished (r : Except Fault Datum)

/-- The machine behind a call that has returned. -/
def Machine.closed (s : Machine) (mark : Nat) : Machine :=
  { s with memory := s.memory.releaseFrom mark, depth := s.depth - 1 }

namespace Stage

/-- A result goes to the innermost caller, or out of the run. -/
def returned (callers : List Activation) (d : Datum) (s : Machine) : Stage :=
  match callers with
  | [] => finished (.ok d)
  | a :: callers => running (a.resume d) callers s

/-- What comes after a call. A fault ends the run. -/
def settled (callers : List Activation) : Except Fault Datum × Machine → Stage
  | (.ok d, s) => returned callers d s
  | (.error fault, _) => finished (.error fault)

end Stage

namespace Setting

open Stage

variable (e : Setting)

/-- Control comes to a block. -/
def entered (callers : List Activation) (mark : Nat) (f : FunctionId) (previous : Option BlockId)
    (b : BlockId) (frame : Frame) (s : Machine) : Stage :=
  match (e.readPhis f b previous frame (e.module.instructions b)).run.run s with
  | (.ok (merged, rest), t) => running ⟨f, b, rest, frame.insertMany merged, mark⟩ callers t
  | (.error fault, _) => finished (.error fault)

/-- A function is called. -/
def called (callers : List Activation) (f : FunctionId) (data : List Datum) (s : Machine) : Stage :=
  if e.module.isRemoved f then finished (.error .removedCallee)
  else if e.module.isDeclaration f then settled callers (e.callHost f data, s)
  else if e.limits.callDepth ≤ s.depth then
    finished (.error (.callDepth e.limits.callDepth (e.module.functionName f)))
  else match e.module.entry? f with
    | none => finished (.error (.noBody (e.module.functionName f)))
    | some entry => e.entered callers s.memory.mark f none entry
        (.ofList ((e.module.params f).zip data)) { s with depth := s.depth + 1 }

/-- Control leaves a block, or breaks. -/
def left (callers : List Activation) (mark : Nat) (f : FunctionId) (b : BlockId) :
    Except Fault Flow × Machine → Stage
  | (.ok (.done d), s) => returned callers d (s.closed mark)
  | (.ok (.jump dest frame), s) => e.entered callers mark f (some b) dest frame s
  | (.error fault, _) => finished (.error fault)

/-- The callee of what calls nothing. -/
def idle : FunctionId → List Datum → Run Datum := fun _ _ => throw .removedCallee

/-- An instruction that ends its block, or is out of place there. -/
def leaves (callers : List Activation) (a : Activation) (v : ValueId) (s : Machine) : Stage :=
  e.left callers a.mark a.function a.block
    ((e.runInstructions idle a.function a.block [v] a.frame).run.run s)

/-- The step of a call instruction, which reads its arguments. -/
def asks (frame : Frame) (args : List ValueId) : Run (List Datum) := do
  Run.tick e.limits.steps
  args.mapM (e.operand frame)

/-- The call of a function by an instruction. -/
def opens (callers : List Activation) (a : Activation) (f : FunctionId) (args : List ValueId)
    (s : Machine) : Stage :=
  match (e.asks a.frame args).run.run s with
  | (.ok data, t) => e.called (a :: callers) f data t
  | (.error fault, _) => finished (.error fault)

/-- The step of an instruction that only computes. -/
def computes (frame : Frame) (v : ValueId) (i : Instruction) : Run Datum := do
  Run.tick e.limits.steps
  e.evaluate idle frame (e.module.typeOf v) i

/-- The run goes on by one instruction. -/
def proceed : Stage → Stage
  | .finished r => .finished r
  | .running a callers s => match a.pending with
    | [] => .finished (.error
        (.noTerminator (e.module.label a.block) (e.module.functionName a.function)))
    | v :: _ => match e.module.instruction? v with
      | none => e.leaves callers a v s
      | some (.call f args) => e.opens callers a f args s
      | some i => if i.isPhi || i.isTerminator then e.leaves callers a v s
        else settled (a :: callers) ((e.computes a.frame v i).run.run s)

/-- One stage of a run comes after another. -/
def Reaches (st st' : Stage) : Prop := ∃ k, e.proceed^[k] st = st'

namespace Reaches

variable {e} {st st' st'' : Stage}

theorem refl (e : Setting) (st : Stage) : e.Reaches st st := ⟨0, rfl⟩

theorem head (h : e.Reaches (e.proceed st) st') : e.Reaches st st' := by
  obtain ⟨k, hk⟩ := h
  exact ⟨k + 1, hk⟩

theorem trans (h : e.Reaches st st') (h' : e.Reaches st' st'') : e.Reaches st st'' := by
  obtain ⟨k, rfl⟩ := h
  obtain ⟨l, rfl⟩ := h'
  exact ⟨l + k, Function.iterate_add_apply e.proceed l k st⟩

end Reaches

end Setting

/-! ### What a step leaves -/

namespace Run

variable {α β : Type} {rel : Nat → Nat → Prop}

/-- A step leaves as many calls open as there were, and the count of steps in a relation to what it
was. -/
def Keeps (rel : Nat → Nat → Prop) (α : Type) (step _ : Run α) : Prop :=
  ∀ s : Machine, (step.run.run s).2.depth = s.depth ∧ rel s.steps (step.run.run s).2.steps

theorem keeps_bind (ht : ∀ a b c, rel a b → rel b c → rel a c) {step step' : Run β}
    {next next' : β → Run α} (h : Keeps rel β step step')
    (hn : ∀ b, Keeps rel α (next b) (next' b)) : Keeps rel α (step >>= next) (step' >>= next') :=
  along_bind (fun s t => t.depth = s.depth ∧ rel s.steps t.steps)
    (fun _ _ _ h h' => ⟨h'.1.trans h.1, ht _ _ _ h.2 h'.2⟩) h hn

/-- Reading and computing opens no call and counts no step. -/
theorem keeps_parallel {e : Setting} (hr : ∀ n, rel n n)
    (ht : ∀ a b c, rel a b → rel b c → rel a c) : Parallel e (Keeps rel) where
  ofExcept _ _ s := ⟨rfl, hr s.steps⟩
  bind := keeps_bind ht
  zero _ s := ⟨rfl, hr s.steps⟩
  known v _ _ h s := h s.globals[v]? s
  record _ _ _ s := ⟨rfl, hr s.steps⟩
  allocate type count isStack s := by
    rw [allocate_run]
    cases s.memory.newRow e.host e.module.types type count isStack <;> exact ⟨rfl, hr s.steps⟩
  load _ s := ⟨rfl, hr s.steps⟩
  store target d s := by
    rw [store_run]
    cases s.memory.changedCell target d <;> exact ⟨rfl, hr s.steps⟩

theorem keeps_bounded (e : Setting) : Bounded e e.limits (Keeps (· ≤ ·)) where
  toParallel := keeps_parallel Nat.le_refl fun _ _ _ => Nat.le_trans
  stepLimit _ s := ⟨rfl, Nat.le_refl s.steps⟩
  callDepth _ _ s := ⟨rfl, Nat.le_refl s.steps⟩
  tick s := by
    rw [tick_run]
    exact ⟨rfl, Nat.le_succ s.steps⟩
  deeper name step _ h s := by
    rw [deeper_run]
    split
    · exact ⟨rfl, Nat.le_refl s.steps⟩
    · exact h s
  nested h s := by
    rw [nested_run]
    have hn := h { s with depth := s.depth + 1 }
    exact ⟨by rw [hn.1]; rfl, hn.2⟩

/-- Go on behind a step, unless it failed. -/
def andThen (next : β → Run α) : Except Fault β × Machine → Except Fault α × Machine
  | (.ok b, t) => (next b).run.run t
  | (.error fault, t) => (.error fault, t)

end Run

namespace Setting

open Run Stage

variable {e : Setting} {callee callee' : FunctionId → List Datum → Run Datum} {frame : Frame}
  {f : FunctionId} {b : BlockId} {v : ValueId} {i : Instruction} {depth : Nat}

theorem call_keeps (levels : Nat) (f : FunctionId) (data : List Datum) :
    Run.Keeps (· ≤ ·) Datum (e.call levels f data) (e.call levels f data) :=
  call_parallel (keeps_bounded e) rfl rfl (Nat.le_refl _) (Nat.le_refl _) f data

end Setting
end SsaKit
