import SsaKit.Proofs.Simulation

/-! Two runs of one program, step by step: what relates the primitive steps of the one to those of
the other, and is kept by sequencing, relates whole evaluations. -/
namespace SsaKit

namespace Setting

/-- What may take the program down in a run: a function of the host, an overflow where overflows are
checked, and an array of a type for whose members the host has no memory. -/
inductive Crashes (e : Setting) : Crash → Prop
  | host {name : String} {args : List Box} {reason : Crash} :
    e.host.call name args = .error (.crash reason) → Crashes e reason
  | overflow : e.host.isChecked → Crashes e .overflow
  | memory {id : TypeId} {length : Nat} {refusal : Refusal} :
    (e.module.types.entry id).length = some length → e.host.refusal length = some refusal →
      Crashes e (.memory refusal)

/-- A fault that is no crash, or a crash that may be. -/
def Sanctions (e : Setting) (fault : Fault) : Prop :=
  ∀ reason, fault = .crash reason → e.Crashes reason

variable {e : Setting}

theorem sanctions_plain {fault : Fault} (h : fault.isCrash = false) : e.Sanctions fault := by
  rintro reason rfl
  cases h

theorem fairly {α : Type} {r : Except Fault α} (h : Fault.Plainly r) :
    Fault.Ends r (fun _ => True) e.Sanctions :=
  h.mono (fun _ _ => trivial) fun _ hf => sanctions_plain hf.2

theorem sanctions_host (name : String) (args : List Box) (fault : Fault)
    (h : e.host.call name args = .error fault) : e.Sanctions fault := by
  rintro reason rfl
  exact .host h

theorem sanctions_overflow (h : e.host.isChecked) : e.Sanctions (.crash .overflow) := by
  rintro _ ⟨⟩
  exact .overflow h

end Setting

namespace Run

/-- The zero of a type, if there is room for it. -/
def zero (host : Host) (t : TypeTable) (type : TypeId) : Run Datum := do
  ofExcept ((← get).memory.zero host t type)

/-- A step that runs unless too many calls are open. -/
def deeper {α : Type} (limit : Nat) (name : String) (step : Run α) : Run α := do
  if limit ≤ (← get).depth then throw (.callDepth limit name) else step

theorem deeper_run {α : Type} (limit : Nat) (name : String) (step : Run α) (s : Machine) :
    (deeper limit name step).run.run s =
      if limit ≤ s.depth then (.error (.callDepth limit name), s) else step.run.run s := by
  unfold deeper
  rw [run_bind, run_get]
  dsimp only
  split <;> rfl

/-- What holds from the machine before each of two steps to that behind it holds across both, if it is
transitive. -/
theorem along_bind {α β : Type} (rel : Machine → Machine → Prop)
    (ht : ∀ a b c, rel a b → rel b c → rel a c) {step : Run β} {next : β → Run α}
    (h : ∀ s, rel s (step.run.run s).2) (hn : ∀ b s, rel s ((next b).run.run s).2) (s : Machine) :
    rel s ((step >>= next).run.run s).2 := by
  have hs := h s
  rw [run_bind]
  rcases hr : step.run.run s with ⟨fault | b, t⟩
  · rw [hr] at hs
    exact hs
  · rw [hr] at hs
    exact ht _ _ _ hs (hn b t)

/-- A relation of steps that holds of every computation and every use of the machine by the code of a
module, and that sequencing keeps. -/
structure Parallel (e : Setting) (R : (α : Type) → Run α → Run α → Prop) : Prop where
  ofExcept : ∀ {α : Type} (r : Except Fault α), Fault.Ends r (fun _ => True) e.Sanctions →
    R α (ofExcept r) (ofExcept r)
  bind : ∀ {α β : Type} {step step' : Run β} {next next' : β → Run α}, R β step step' →
    (∀ b, R α (next b) (next' b)) → R α (step >>= next) (step' >>= next')
  zero : ∀ type, R Datum (zero e.host e.module.types type) (zero e.host e.module.types type)
  known : ∀ {α : Type} (v : ValueId) (next next' : Option Pointer → Run α),
    (∀ p, R α (next p) (next' p)) →
    R α (do next (← get).globals[v]?) (do next' (← get).globals[v]?)
  record : ∀ (v : ValueId) (p : Pointer), e.module.isListed v →
    R PUnit (modify fun s => { s with globals := s.globals.insert v p })
      (modify fun s => { s with globals := s.globals.insert v p })
  allocate : ∀ type count isStack,
    R Pointer (allocate e.host e.module.types type count isStack)
      (allocate e.host e.module.types type count isStack)
  load : ∀ target, R Datum (load target) (load target)
  store : ∀ target d, R Unit (store target d) (store target d)

namespace Parallel

variable {e : Setting} {R : (α : Type) → Run α → Run α → Prop} {α β γ : Type} (h : Parallel e R)
include h

theorem pure (a : α) : R α (pure a) (pure a) := h.ofExcept (.ok a) trivial

theorem throw (fault : Fault) (hf : fault.isCrash = false) :
    R α (throw fault) (throw fault) :=
  h.ofExcept (.error fault) (Setting.sanctions_plain hf)

theorem plain {r : Except Fault α} (hr : Fault.Plainly r) : R α (Run.ofExcept r) (Run.ofExcept r) :=
  h.ofExcept r (Setting.fairly hr)

theorem mapM {f g : γ → Run α} {xs : List γ} (hf : ∀ x ∈ xs, R α (f x) (g x)) :
    R (List α) (xs.mapM f) (xs.mapM g) := by
  induction xs with
  | nil => exact h.pure []
  | cons x xs ih =>
    rw [List.mapM_cons, List.mapM_cons]
    apply h.bind (hf x (by simp))
    intro a
    apply h.bind (ih fun y hy => hf y (by simp [hy]))
    intro as
    exact h.pure _

theorem foldlM {f g : α → γ → Run α} {xs : List γ} (hf : ∀ a, ∀ x ∈ xs, R α (f a x) (g a x))
    (a : α) : R α (xs.foldlM f a) (xs.foldlM g a) := by
  induction xs generalizing a with
  | nil => exact h.pure a
  | cons x xs ih =>
    rw [List.foldlM_cons, List.foldlM_cons]
    apply h.bind (hf a x (by simp))
    intro b
    exact ih (fun c y hy => hf c y (by simp [hy])) b

/-- Both steps are stopped, or both go on. -/
theorem stopIf {p : Prop} [Decidable p] {fault : Fault} {step step' : Run α}
    (hs : R α step step') (hf : fault.isCrash = false) :
    R α (do
        if p then MonadExcept.throw fault
        step)
      (do
        if p then MonadExcept.throw fault
        step') := by
  by_cases hp : p
  · simp only [hp, if_true]
    exact h.bind (h.throw fault hf) fun _ => hs
  · simp only [hp, if_false]
    exact hs

end Parallel

end Run

namespace Setting

open Run

variable {R : (α : Type) → Run α → Run α → Prop} {e e' : Setting} {frame : Frame} {v : ValueId}
  {callee callee' : FunctionId → List Datum → Run Datum}

/-- The storage of a global that was used before, or a new one. -/
def storageAt (e : Setting) (constant : ValueId → Run Datum) (v : ValueId) (g : Global) :
    Option Pointer → Run Pointer
  | some p => return p
  | none => do
    unless e.module.isListed v do throw (.removedGlobal v.index)
    e.newStorage constant v g

theorem storage_eq (e : Setting) (constant : ValueId → Run Datum) (v : ValueId) (g : Global) :
    e.storage constant v g = (do e.storageAt constant v g (← get).globals[v]?) := by
  unfold storage
  apply bind_congr
  intro s
  cases s.globals[v]? <;> rfl

section

variable (h : Parallel e R) (hm : e'.module = e.module) (hh : e'.host = e.host)
include h hm hh

/-! ### Reading -/

theorem newStorage_parallel {constant constant' : ValueId → Run Datum} {g : Global}
    (hc : ∀ init, R Datum (constant init) (constant' init)) (hl : e.module.isListed v) :
    R Pointer (e.newStorage constant v g) (e'.newStorage constant' v g) := by
  unfold newStorage
  rw [hm, hh]
  apply h.bind (h.allocate _ _ _)
  intro p
  apply h.bind (h.record v p hl)
  intro _
  cases g.initializer with
  | none => exact h.pure p
  | some init =>
    apply h.bind (hc init)
    intro d
    exact h.bind (h.store _ _) fun _ => h.pure p

theorem storage_parallel {constant constant' : ValueId → Run Datum} {g : Global}
    (hc : ∀ init, R Datum (constant init) (constant' init)) (v : ValueId) :
    R Pointer (e.storage constant v g) (e'.storage constant' v g) := by
  rw [storage_eq, storage_eq]
  apply h.known
  intro p
  cases p with
  | some p => exact h.pure p
  | none =>
    unfold storageAt
    rw [hm]
    by_cases hl : e.module.isListed v
    · simp only [hl, if_true]
      exact newStorage_parallel h hm hh hc hl
    · simp only [hl, Bool.false_eq_true, if_false]
      exact h.throw _ rfl

theorem constant_parallel (fuel : Nat) (v : ValueId) :
    R Datum (e.constant fuel v) (e'.constant fuel v) := by
  induction fuel generalizing v with
  | zero => exact h.throw _ rfl
  | succ fuel ih =>
    unfold constant wordDatum floatDatum
    rw [hm]
    dsimp only
    split
    · exact h.pure _
    · exact h.pure _
    · exact h.pure _
    · rw [hh]
      exact h.zero _
    · exact h.bind (h.mapM fun w _ => ih w) fun _ => h.pure _
    · exact h.pure _
    · exact h.bind (storage_parallel h hm hh ih v) fun _ => h.pure _
    · exact h.throw _ rfl
    · exact h.throw _ rfl

theorem operand_parallel (frame : Frame) (v : ValueId) :
    R Datum (e.operand frame v) (e'.operand frame v) := by
  have hconstant := constant_parallel h hm hh e.constantDepth v
  have hdepth : e'.constantDepth = e.constantDepth := by rw [constantDepth, constantDepth, hm]
  have hframed : R Datum (framed frame v) (framed frame v) := by
    unfold framed
    split
    · exact h.pure _
    · exact h.throw _ rfl
  unfold operand
  rw [hm, hdepth]
  split
  · exact hframed
  · exact hframed
  · exact hconstant

theorem wordOperand_parallel (frame : Frame) (v : ValueId) :
    R UInt64 (e.wordOperand frame v) (e'.wordOperand frame v) :=
  h.bind (operand_parallel h hm hh frame v) fun d => h.plain d.asWord_plainly

theorem signedOperand_parallel (frame : Frame) (v : ValueId) :
    R Int (e.signedOperand frame v) (e'.signedOperand frame v) :=
  h.bind (operand_parallel h hm hh frame v) fun d => h.plain d.asSigned_plainly

theorem members_parallel (frame : Frame) (v : ValueId) :
    R (List Datum) (e.members frame v) (e'.members frame v) :=
  h.bind (operand_parallel h hm hh frame v) fun d => h.plain d.asMembers_plainly

theorem derive_parallel (frame : Frame) (base : ValueId) (indices : List ValueId) :
    R Datum (e.derive frame base indices) (e'.derive frame base indices) := by
  unfold derive
  rw [hh]
  apply h.bind (operand_parallel h hm hh frame base)
  intro d
  apply h.bind (h.plain d.asPointer_plainly)
  intro target
  cases target with
  | none => exact h.throw _ rfl
  | some p =>
    cases indices with
    | nil => exact h.pure _
    | cons first rest =>
      apply h.bind (signedOperand_parallel h hm hh frame first)
      intro offset
      apply h.bind (h.ofExcept _ (advance_fails (fun _ _ => sanctions_plain) sanctions_overflow _ _))
      intro q
      refine h.bind (h.foldlM (fun q index _ => ?_) q) fun _ => h.pure _
      exact h.bind (signedOperand_parallel h hm hh frame index) fun _ => h.plain (enter_plainly _ _)

theorem slotCount_parallel (frame : Frame) (count : Option ValueId) :
    R Nat (e.slotCount frame count) (e'.slotCount frame count) := by
  cases count with
  | none => exact h.pure _
  | some v =>
    apply h.bind (signedOperand_parallel h hm hh frame v)
    intro n
    exact h.stopIf (h.pure _) rfl

theorem evaluate_parallel {type : TypeId} {i : Instruction}
    (hc : ∀ f args, i = .call f args → ∀ data, R Datum (callee f data) (callee' f data)) :
    R Datum (e.evaluate callee frame type i) (e'.evaluate callee' frame type i) := by
  have operand := operand_parallel h hm hh frame
  have members := members_parallel h hm hh frame
  have word := wordOperand_parallel h hm hh frame
  have compute {r : Datum → Datum → Except Fault Datum}
      (hr : ∀ a b, Fault.Ends (r a b) (fun _ => True) e.Sanctions) (lhs rhs : ValueId) :
      R Datum (do Run.ofExcept (r (← e.operand frame lhs) (← e.operand frame rhs)))
        (do Run.ofExcept (r (← e'.operand frame lhs) (← e'.operand frame rhs))) :=
    h.bind (operand lhs) fun _ => h.bind (operand rhs) fun _ => h.ofExcept _ (hr _ _)
  unfold evaluate
  cases i with
  | binary op lhs rhs =>
    rw [hh]
    exact compute (Datum.binary_fails (fun _ _ => sanctions_plain) sanctions_overflow op) lhs rhs
  | icmp pred lhs rhs => exact compute (fun a b => fairly (Datum.icmp_plainly pred a b)) lhs rhs
  | fcmp pred lhs rhs => exact compute (fun a b => fairly (Datum.fcmp_plainly pred a b)) lhs rhs
  | alloca allocated count =>
    apply h.bind (slotCount_parallel h hm hh frame count)
    intro n
    rw [hm, hh]
    exact h.bind (h.allocate _ _ _) fun _ => h.pure _
  | load ptr =>
    exact h.bind (operand ptr) fun d => h.bind (h.plain d.asPointer_plainly) fun target => h.load target
  | store value ptr =>
    apply h.bind (operand value)
    intro d
    apply h.bind (operand ptr)
    intro d'
    apply h.bind (h.plain d'.asPointer_plainly)
    intro target
    exact h.bind (h.store target d) fun _ => h.pure _
  | elementPtr base indices => exact derive_parallel h hm hh frame base indices
  | call f args => exact h.bind (h.mapM fun v _ => operand v) fun data => hc f args rfl data
  | cast op value =>
    apply h.bind (operand value)
    intro d
    rw [hm]
    exact h.plain (Datum.cast_plainly _ _ _ _)
  | extractValue aggregate index =>
    exact h.bind (members aggregate) fun _ => h.plain (Datum.pick_plainly _ _)
  | insertValue aggregate element index =>
    exact h.bind (members aggregate) fun _ => h.bind (operand element) fun _ =>
      h.plain (Datum.put_plainly _ _ _)
  | extractElement vector index =>
    exact h.bind (members vector) fun _ => h.bind (word index) fun _ =>
      h.plain (Datum.pick_plainly _ _)
  | insertElement vector element index =>
    apply h.bind (members vector)
    intro ds
    apply h.bind (operand element)
    intro d
    exact h.bind (word index) fun _ => h.plain (Datum.put_plainly _ _ _)
  | shuffle lhs rhs mask =>
    apply h.bind (members lhs)
    intro left
    apply h.bind (members rhs)
    intro right
    exact h.bind (members mask) fun _ => h.plain (Datum.shuffle_plainly _ _ _)
  | select cond thenValue elseValue =>
    apply h.bind (operand cond)
    intro c
    exact compute (fun a b => fairly (Datum.select_plainly c a b)) thenValue elseValue
  | branch _ | condBranch _ _ _ | switch _ _ _ | phi _ | ret _ | unreachable => exact h.throw _ rfl

theorem switchTarget_parallel {word : UInt64} {default : BlockId}
    {cases : List (ValueId × BlockId)} :
    R BlockId (e.switchTarget frame word default cases)
      (e'.switchTarget frame word default cases) := by
  induction cases with
  | nil => exact h.pure default
  | cons c cases ih =>
    obtain ⟨key, dest⟩ := c
    unfold switchTarget
    apply h.bind (wordOperand_parallel h hm hh frame key)
    intro w
    split
    · exact h.pure dest
    · exact ih

theorem readPhis_parallel {f : FunctionId} {b : BlockId} {previous : Option BlockId}
    {l : List ValueId} :
    R _ (e.readPhis f b previous frame l) (e'.readPhis f b previous frame l) := by
  induction l with
  | nil => exact h.pure _
  | cons v rest ih =>
    unfold readPhis
    rw [hm]
    split
    · rename_i incoming _
      split
      · exact h.throw _ rfl
      · rename_i source
        split
        · exact h.throw _ rfl
        · rename_i value _
          apply h.bind (operand_parallel h hm hh frame value)
          intro d
          apply h.bind ih
          intro r
          exact h.pure _
    · exact h.pure _

end

end Setting

/-! ### Whole runs -/

/-- Such a relation where the limits of the two runs may differ: it lets the first run stop at a
limit. -/
structure Run.Bounded (e : Setting) (l' : Limits) (R : (α : Type) → Run α → Run α → Prop) : Prop
    extends Parallel e R where
  stepLimit : ∀ {α : Type} (step : Run α), R α (throw (.stepLimit e.limits.steps)) step
  callDepth : ∀ {α : Type} (name : String) (step : Run α),
    R α (throw (.callDepth e.limits.callDepth name)) step
  tick : R Unit (tick e.limits.steps) (tick l'.steps)
  deeper : ∀ {α : Type} (name : String) {step step' : Run α}, R α step step' →
    R α (deeper e.limits.callDepth name step) (deeper l'.callDepth name step')
  nested : ∀ {α : Type} {step step' : Run α}, R α step step' → R α (nested step) (nested step')

namespace Setting

open Run

/-- What an instruction does behind its step. An instruction that does not end the block goes on
with a frame that has its result. -/
def carries (e : Setting) (callee : FunctionId → List Datum → Run Datum) (f : FunctionId)
    (b : BlockId) (v : ValueId) (frame : Frame) (next : Frame → Run Flow) : Run Flow := do
  match e.module.instruction? v with
  | none => throw .notInstruction
  | some (.branch dest) => return .jump dest frame
  | some (.condBranch cond thenDest elseDest) =>
    let taken ← Run.ofExcept (← e.operand frame cond).asBool
    return .jump (if taken then thenDest else elseDest) frame
  | some (.switch value default cases) =>
    let word ← e.wordOperand frame value
    return .jump (← e.switchTarget frame word default cases) frame
  | some (.ret none) => return .done .void
  | some (.ret (some value)) => return .done (← e.operand frame value)
  | some .unreachable => throw (.unreachable (e.module.functionName f))
  | some (.phi _) => throw (.latePhi (e.module.label b))
  | some i =>
    let d ← e.evaluate callee frame (e.module.typeOf v) i
    next (frame.insert v d)

theorem runInstructions_cons (e : Setting) (callee : FunctionId → List Datum → Run Datum)
    (f : FunctionId) (b : BlockId) (v : ValueId) (rest : List ValueId) (frame : Frame) :
    e.runInstructions callee f b (v :: rest) frame = (do
      Run.tick e.limits.steps
      e.carries callee f b v frame (e.runInstructions callee f b rest)) := rfl

variable {R : (α : Type) → Run α → Run α → Prop} {e e' : Setting} {frame : Frame}
  {callee callee' : FunctionId → List Datum → Run Datum} {f : FunctionId} {b : BlockId}

theorem carries_parallel (h : Parallel e R) (hm : e'.module = e.module) (hh : e'.host = e.host) {v : ValueId}
    {next next' : Frame → Run Flow} (hn : ∀ frame, R Flow (next frame) (next' frame))
    (hc : ∀ f args, R Datum (callee f args) (callee' f args)) :
    R Flow (e.carries callee f b v frame next) (e'.carries callee' f b v frame next') := by
  have operand (v : ValueId) := operand_parallel h hm hh frame v
  unfold carries
  rw [hm]
  split
  · exact h.throw _ rfl
  · exact h.pure _
  · exact h.bind (operand _) fun d => h.bind (h.plain d.asBool_plainly) fun _ => h.pure _
  · exact h.bind (wordOperand_parallel h hm hh frame _) fun _ =>
      h.bind (switchTarget_parallel h hm hh) fun _ => h.pure _
  · exact h.pure _
  · exact h.bind (operand _) fun _ => h.pure _
  · exact h.throw _ rfl
  · exact h.throw _ rfl
  · exact h.bind (evaluate_parallel h hm hh fun f _ _ data => hc f data) fun _ => hn _

section

variable (h : Bounded e e'.limits R) (hm : e'.module = e.module) (hh : e'.host = e.host)
include h hm hh

theorem runInstructions_parallel (hc : ∀ f args, R Datum (callee f args) (callee' f args))
    {l : List ValueId} : R Flow (e.runInstructions callee f b l frame)
      (e'.runInstructions callee' f b l frame) := by
  induction l generalizing frame with
  | nil =>
    unfold runInstructions
    rw [hm]
    exact h.toParallel.throw _ rfl
  | cons v rest ih =>
    rw [runInstructions_cons, runInstructions_cons]
    apply h.toParallel.bind h.tick
    intro _
    exact carries_parallel h.toParallel hm hh (fun _ => ih) hc

theorem runBlock_parallel (hc : ∀ f args, R Datum (callee f args) (callee' f args))
    {previous : Option BlockId} : R Flow (e.runBlock callee f previous b frame)
      (e'.runBlock callee' f previous b frame) := by
  unfold runBlock
  rw [hm]
  apply h.toParallel.bind (readPhis_parallel h.toParallel hm hh)
  intro r
  exact runInstructions_parallel h hm hh hc

theorem runBlocks_parallel (hc : ∀ f args, R Datum (callee f args) (callee' f args))
    {fuel fuel' : Nat} (hfuel : fuel ≤ fuel') {previous : Option BlockId} :
    R Datum (e.runBlocks callee f fuel previous b frame)
      (e'.runBlocks callee' f fuel' previous b frame) := by
  induction fuel generalizing fuel' previous b frame with
  | zero =>
    rw [runBlocks_eq, runBlocks_eq]
    apply h.toParallel.bind (runBlock_parallel h hm hh hc)
    intro flow
    cases flow with
    | done result => exact h.toParallel.pure result
    | jump dest frame => exact h.stepLimit _
  | succ fuel ih =>
    obtain ⟨fuel', rfl⟩ : ∃ n, fuel' = n + 1 := ⟨fuel' - 1, by omega⟩
    rw [runBlocks_eq, runBlocks_eq]
    apply h.toParallel.bind (runBlock_parallel h hm hh hc)
    intro flow
    cases flow with
    | done result => exact h.toParallel.pure result
    | jump dest frame => exact ih (by omega)

theorem execute_parallel (hsteps : e.limits.steps ≤ e'.limits.steps)
    (hc : ∀ f args, R Datum (callee f args) (callee' f args)) {args : List Datum} :
    R Datum (e.execute callee f args) (e'.execute callee' f args) := by
  unfold execute
  rw [hm]
  split
  · exact h.toParallel.throw _ rfl
  · exact runBlocks_parallel h hm hh hc hsteps

/-- Calls of the two runs are related when what runs below them is. -/
theorem call_parallel (hsteps : e.limits.steps ≤ e'.limits.steps)
    {fuel fuel' : Nat} (hfuel : fuel ≤ fuel') (f : FunctionId) (args : List Datum) :
    R Datum (e.call fuel f args) (e'.call fuel' f args) := by
  have hp : Parallel e R := h.toParallel
  have hcallHost (f : FunctionId) (args : List Datum) : e'.callHost f args = e.callHost f args := by
    unfold callHost
    rw [hm, hh]
  have hhosted (f : FunctionId) (args : List Datum) :
      R Datum (Run.ofExcept (e.callHost f args)) (Run.ofExcept (e.callHost f args)) :=
    hp.ofExcept _ (e.callHost_fails (fun _ _ => sanctions_plain) sanctions_host f args)
  induction fuel generalizing fuel' f args with
  | zero =>
    unfold call
    rw [hm, hcallHost]
    refine hp.stopIf ?_ rfl
    split
    · exact hhosted f args
    · exact h.deeper _ (h.callDepth _ _)
  | succ fuel ih =>
    obtain ⟨fuel', rfl⟩ : ∃ n, fuel' = n + 1 := ⟨fuel' - 1, by omega⟩
    unfold call
    rw [hm, hcallHost]
    refine hp.stopIf ?_ rfl
    split
    · exact hhosted f args
    · apply h.deeper
      apply h.nested
      exact execute_parallel h hm hh hsteps fun f args => ih (by omega) f args

end

/-! ### From outside -/

/-- The data that a run of a function starts with, if it may run on those boxes. -/
def admitted (e : Setting) (f : FunctionId) (args : List Box) : Except Fault (List Datum) := do
  if e.module.isRemoved f then throw .removedEntry
  let type := e.module.types.entry (e.module.function f).type
  let params := type.params.getD []
  unless args.length = params.length ∨ (type.isVariadic ∧ params.length < args.length) do
    throw (.arity (e.module.functionName f) params.length args.length)
  e.arguments f params args

theorem runFunction_admitted (e : Setting) (f : FunctionId) (args : List Box) :
    e.runFunction f args = (do
      let data ← e.admitted f args
      box (← ((e.call e.limits.callDepth f data).run.run e.start).1)) := by
  unfold runFunction admitted
  dsimp only
  split
  · rfl
  · split
    · rfl
    · rfl

end Setting

end SsaKit
