import SsaKit.Proofs.Change
import SsaKit.Proofs.Simulation

/-! Evaluation of instructions in two settings that agree on everything but code. -/
namespace SsaKit.Setting

open Run Machine SsaKit.Module

variable {e e' : Setting} {v : ValueId} {frame frame' : Frame}

/-- The same host and limits, and a module that differs in its code only. -/
structure Keeps (e e' : Setting) : Prop where
  host : e'.host = e.host
  limits : e'.limits = e.limits
  types : e'.module.types = e.module.types
  functions : e'.module.functions = e.module.functions
  globals : e'.module.globals = e.module.globals
  values : e.module.values.size ≤ e'.module.values.size
  typeOf : ∀ v, e.module.values.Has v → e'.module.typeOf v = e.module.typeOf v
  kindOf : ∀ v, e.module.values.Has v → e'.module.kindOf v = e.module.kindOf v ∨
    ∃ i i', e.module.kindOf v = .instruction i ∧ e'.module.kindOf v = .instruction i'

namespace Keeps

variable (h : e.Keeps e')
include h

theorem isListed_eq (v : ValueId) : e'.module.isListed v = e.module.isListed v := by
  simp [isListed, h.globals]

theorem constantDepth_le : e.constantDepth ≤ e'.constantDepth :=
  Nat.mul_le_mul (Nat.succ_le_succ h.values) (Nat.succ_le_succ h.values)

theorem function_eq (f : FunctionId) : e'.module.function f = e.module.function f := by
  simp [function, h.functions]

theorem simulates_storage {constant constant' : ValueId → Run Datum} {g : Global}
    (hc : ∀ init ∈ g.initializer,
      Simulates Spares (constant init) (constant' init) (· = ·)) (v : ValueId) :
    Simulates Spares (e.storage constant v g) (e'.storage constant' v g) (· = ·) := by
  unfold storage
  refine simulates_bind simulates_get fun s s' hs => ?_
  rw [hs.globals]
  split
  · exact simulates_pure rfl
  · have make : Simulates Spares (e.newStorage constant v g) (e'.newStorage constant' v g)
        (· = ·) := by
      unfold newStorage
      rw [h.types, h.host]
      refine simulates_bind_eq (simulates_allocate _ _ _ _ _) fun p => ?_
      refine simulates_bind_eq (simulates_modify fun s t hr => ?_) fun _ => ?_
      · exact ⟨hr.memory, by rw [hr.globals], hr.depth, hr.steps⟩
      · split
        · rename_i init hi
          refine simulates_bind_eq (hc init hi) fun d => ?_
          exact simulates_bind_eq (simulates_store _ _) fun _ => simulates_pure rfl
        · exact simulates_pure rfl
    by_cases hl : e.module.isListed v
    · simp only [h.isListed_eq, hl, if_true]
      exact make
    · simp only [h.isListed_eq, hl, Bool.false_eq_true, if_false]
      exact simulates_throw_bind _ _ _

/-- A constant reads the same where it may nest at least as deeply. -/
theorem simulates_constant (hs : e.module.Sound) {fuel fuel' : Nat} (hfuel : fuel ≤ fuel')
    (hv : e.module.values.Has v) :
    Simulates Spares (e.constant fuel v) (e'.constant fuel' v) (· = ·) := by
  induction fuel generalizing v fuel' with
  | zero => exact simulates_throw _ _
  | succ fuel ih =>
    obtain ⟨fuel', rfl⟩ : ∃ n, fuel' = n + 1 := ⟨fuel' - 1, by omega⟩
    have ih {v : ValueId} := @ih v fuel' (by omega)
    have hfits := (hs.values v hv).2
    have htype := h.typeOf v hv
    have hkind := h.kindOf v hv
    simp only [Module.kindOf, Module.typeOf] at hfits htype hkind
    unfold constant wordDatum floatDatum
    dsimp only
    rw [htype, h.types]
    obtain hsame | ⟨i, i', hi, hi'⟩ := hkind
    · rw [hsame]
      split
      · exact simulates_pure rfl
      · exact simulates_pure rfl
      · exact simulates_pure rfl
      · refine simulates_bind simulates_get fun s s' hs => ?_
        rw [hs.memory, h.host]
        exact simulates_ofExcept _
      · rename_i elements hk
        rw [hk] at hfits
        refine simulates_bind_eq (simulates_mapM fun x hx => ih (hfits.1 x hx).1) fun _ => ?_
        exact simulates_pure rfl
      · exact simulates_pure rfl
      · rename_i g hk
        rw [hk] at hfits
        refine simulates_bind_eq (h.simulates_storage (fun init hi => ?_) v) fun _ => ?_
        · exact ih (hfits.2.2 init hi).1
        · exact simulates_pure rfl
      · exact simulates_throw _ _
      · exact simulates_throw _ _
    · rw [hi]
      exact simulates_throw _ _

end Keeps

/-- Each value that an instruction reads has a stand-in that reads the same. -/
def Reads (e e' : Setting) (frame frame' : Frame) (g : ValueId → ValueId) (v : ValueId) : Prop :=
  Simulates Spares (e.operand frame v) (e'.operand frame' (g v)) (· = ·)

variable {g : ValueId → ValueId}

theorem Reads.wordOperand (h : Reads e e' frame frame' g v) :
    Simulates Spares (e.wordOperand frame v) (e'.wordOperand frame' (g v)) (· = ·) :=
  simulates_bind_eq h fun _ => simulates_ofExcept _

theorem Reads.signedOperand (h : Reads e e' frame frame' g v) :
    Simulates Spares (e.signedOperand frame v) (e'.signedOperand frame' (g v)) (· = ·) :=
  simulates_bind_eq h fun _ => simulates_ofExcept _

theorem Reads.members (h : Reads e e' frame frame' g v) :
    Simulates Spares (e.members frame v) (e'.members frame' (g v)) (· = ·) :=
  simulates_bind_eq h fun _ => simulates_ofExcept _

theorem simulates_derive {base : ValueId} {indices : List ValueId} (hh : e'.host = e.host)
    (hb : Reads e e' frame frame' g base) (hi : ∀ v ∈ indices, Reads e e' frame frame' g v) :
    Simulates Spares (e.derive frame base indices)
      (e'.derive frame' (g base) (indices.map g)) (· = ·) := by
  unfold derive
  rw [hh]
  refine simulates_bind_eq hb fun d => ?_
  refine simulates_bind_eq (simulates_ofExcept _) fun target => ?_
  cases target with
  | none => exact simulates_throw _ _
  | some p =>
    cases indices with
    | nil => exact simulates_pure rfl
    | cons first rest =>
      refine simulates_bind_eq (hi first (by simp)).signedOperand fun offset => ?_
      refine simulates_bind_eq (simulates_ofExcept _) fun q => ?_
      rw [List.foldlM_map]
      refine simulates_bind_eq (simulates_foldlM (fun q index hindex => ?_) q) fun _ =>
        simulates_pure rfl
      refine simulates_bind_eq (hi index (by simp [hindex])).signedOperand fun n => ?_
      exact simulates_ofExcept _

theorem simulates_slotCount {count : Option ValueId}
    (hc : ∀ v ∈ count, Reads e e' frame frame' g v) :
    Simulates Spares (e.slotCount frame count) (e'.slotCount frame' (count.map g)) (· = ·) := by
  unfold slotCount
  cases count with
  | none => exact simulates_pure rfl
  | some v =>
    refine simulates_bind_eq (hc v rfl).signedOperand fun n => ?_
    split
    · exact simulates_throw_bind _ _ _
    · exact simulates_pure rfl

theorem simulates_operands {vs : List ValueId} (hv : ∀ v ∈ vs, Reads e e' frame frame' g v) :
    Simulates Spares (vs.mapM (e.operand frame)) ((vs.map g).mapM (e'.operand frame'))
      (· = ·) := by
  rw [List.mapM_map]
  exact simulates_mapM hv

/-- Instructions that do not end a block evaluate the same on stand-ins. -/
theorem Keeps.simulates_evaluate {callee callee' : FunctionId → List Datum → Run Datum}
    {type : TypeId} {i : Instruction} (h : e.Keeps e')
    (hc : ∀ f args, Simulates Spares (callee f args) (callee' f args) (· = ·))
    (hi : ∀ v ∈ i.operands, Reads e e' frame frame' g v) :
    Simulates Spares (e.evaluate callee frame type i)
      (e'.evaluate callee' frame' type (i.mapOperands g)) (· = ·) := by
  unfold evaluate
  cases i with
  | binary op lhs rhs =>
    rw [h.host]
    refine simulates_bind_eq (hi lhs (by simp [Instruction.operands])) fun a => ?_
    refine simulates_bind_eq (hi rhs (by simp [Instruction.operands])) fun b => ?_
    exact simulates_ofExcept _
  | icmp pred lhs rhs =>
    refine simulates_bind_eq (hi lhs (by simp [Instruction.operands])) fun a => ?_
    refine simulates_bind_eq (hi rhs (by simp [Instruction.operands])) fun b => ?_
    exact simulates_ofExcept _
  | fcmp pred lhs rhs =>
    refine simulates_bind_eq (hi lhs (by simp [Instruction.operands])) fun a => ?_
    refine simulates_bind_eq (hi rhs (by simp [Instruction.operands])) fun b => ?_
    exact simulates_ofExcept _
  | alloca allocated count =>
    refine simulates_bind_eq (simulates_slotCount fun v hv => hi v ?_) fun n => ?_
    · simpa [Instruction.operands] using hv
    · rw [h.types, h.host]
      exact simulates_bind_eq (simulates_allocate _ _ _ _ _) fun _ => simulates_pure rfl
  | load ptr =>
    refine simulates_bind_eq (hi ptr (by simp [Instruction.operands])) fun d => ?_
    exact simulates_bind_eq (simulates_ofExcept _) fun target => simulates_load target
  | store value ptr =>
    refine simulates_bind_eq (hi value (by simp [Instruction.operands])) fun d => ?_
    refine simulates_bind_eq (hi ptr (by simp [Instruction.operands])) fun p => ?_
    refine simulates_bind_eq (simulates_ofExcept _) fun target => ?_
    exact simulates_bind_eq (simulates_store target d) fun _ => simulates_pure rfl
  | elementPtr base indices =>
    exact simulates_derive h.host (hi base (by simp [Instruction.operands]))
      fun v hv => hi v (by simp [Instruction.operands, hv])
  | call f args =>
    exact simulates_bind_eq (simulates_operands hi) fun args => hc f args
  | cast op value =>
    refine simulates_bind_eq (hi value (by simp [Instruction.operands])) fun d => ?_
    rw [h.types]
    exact simulates_ofExcept _
  | extractValue aggregate index =>
    refine simulates_bind_eq (hi aggregate (by simp [Instruction.operands])).members fun ds => ?_
    exact simulates_ofExcept _
  | insertValue aggregate element index =>
    refine simulates_bind_eq (hi aggregate (by simp [Instruction.operands])).members fun ds => ?_
    refine simulates_bind_eq (hi element (by simp [Instruction.operands])) fun d => ?_
    exact simulates_ofExcept _
  | extractElement vector index =>
    refine simulates_bind_eq (hi vector (by simp [Instruction.operands])).members fun ds => ?_
    refine simulates_bind_eq (hi index (by simp [Instruction.operands])).wordOperand fun w => ?_
    exact simulates_ofExcept _
  | insertElement vector element index =>
    refine simulates_bind_eq (hi vector (by simp [Instruction.operands])).members fun ds => ?_
    refine simulates_bind_eq (hi element (by simp [Instruction.operands])) fun d => ?_
    refine simulates_bind_eq (hi index (by simp [Instruction.operands])).wordOperand fun w => ?_
    exact simulates_ofExcept _
  | shuffle lhs rhs mask =>
    refine simulates_bind_eq (hi lhs (by simp [Instruction.operands])).members fun left => ?_
    refine simulates_bind_eq (hi rhs (by simp [Instruction.operands])).members fun right => ?_
    refine simulates_bind_eq (hi mask (by simp [Instruction.operands])).members fun m => ?_
    exact simulates_ofExcept _
  | select cond thenValue elseValue =>
    refine simulates_bind_eq (hi cond (by simp [Instruction.operands])) fun c => ?_
    refine simulates_bind_eq (hi thenValue (by simp [Instruction.operands])) fun a => ?_
    refine simulates_bind_eq (hi elseValue (by simp [Instruction.operands])) fun b => ?_
    exact simulates_ofExcept _
  | branch _ | condBranch _ _ _ | switch _ _ _ | phi _ | ret _ | unreachable =>
    exact simulates_throw _ _

theorem simulates_switchTarget {word : UInt64} {default : BlockId}
    {cases : List (ValueId × BlockId)} (hc : ∀ c ∈ cases, Reads e e' frame frame' g c.1) :
    Simulates Spares (e.switchTarget frame word default cases)
      (e'.switchTarget frame' word default (cases.map fun c => (g c.1, c.2))) (· = ·) := by
  induction cases with
  | nil => exact simulates_pure rfl
  | cons c cases ih =>
    obtain ⟨key, dest⟩ := c
    have later := ih fun c hc' => hc c (by simp [hc'])
    rw [List.map_cons]
    unfold switchTarget
    refine simulates_bind_eq (hc (key, dest) (by simp)).wordOperand fun w => ?_
    split
    · exact simulates_pure rfl
    · exact later

/-! ### Blocks and calls -/

/-- The same way out of a block, with frames that go together. -/
inductive FlowAgrees (Q : Frame → Frame → Prop) : Flow → Flow → Prop
  | jump (dest : BlockId) {frame frame' : Frame} : Q frame frame' →
    FlowAgrees Q (.jump dest frame) (.jump dest frame')
  | done (result : Datum) : FlowAgrees Q (.done result) (.done result)

variable {Q : Frame → Frame → Prop} {callee callee' : FunctionId → List Datum → Run Datum}

/-- Code that starts with an instruction follows code that starts with what stands for it, once the
rest does. -/
theorem Keeps.simulates_instruction (h : e.Keeps e') {f : FunctionId} {b : BlockId} {i : Instruction}
    {rest rest' : List ValueId}
    (hc : ∀ f args, Simulates Spares (callee f args) (callee' f args) (· = ·))
    (hi : e.module.instruction? v = some i)
    (hi' : e'.module.instruction? v = some (i.mapOperands g)) (hq : Q frame frame')
    (hreads : ∀ w ∈ i.operands, Reads e e' frame frame' g w)
    (hrest : ∀ d, Simulates Spares (e.runInstructions callee f b rest (frame.insert v d))
      (e'.runInstructions callee' f b rest' (frame'.insert v d)) (FlowAgrees Q)) :
    Simulates Spares (e.runInstructions callee f b (v :: rest) frame)
      (e'.runInstructions callee' f b (v :: rest') frame') (FlowAgrees Q) := by
  have hv := has_of_kindOf (m := e.module) (v := v) (by simp [kindOf_of_instruction? hi])
  have go (hphi : i.isPhi = false) (hterm : i.isTerminator = false)
      (hphi' : (i.mapOperands g).isPhi = false) (hterm' : (i.mapOperands g).isTerminator = false) :
      Simulates Spares (e.runInstructions callee f b (v :: rest) frame)
        (e'.runInstructions callee' f b (v :: rest') frame') (FlowAgrees Q) := by
    rw [runInstructions_other e hi hphi hterm, runInstructions_other e' hi' hphi' hterm',
      h.limits, h.typeOf v hv]
    refine simulates_bind_eq (simulates_tick _) fun _ => ?_
    exact simulates_bind_eq (h.simulates_evaluate hc hreads) hrest
  cases i with
  | branch dest =>
    rw [runInstructions, runInstructions, hi, hi', h.limits]
    exact simulates_bind_eq (simulates_tick _) fun _ => simulates_pure (.jump dest hq)
  | condBranch cond thenDest elseDest =>
    rw [runInstructions, runInstructions, hi, hi', h.limits]
    refine simulates_bind_eq (simulates_tick _) fun _ => ?_
    refine simulates_bind_eq (hreads cond (by simp [Instruction.operands])) fun x => ?_
    refine simulates_bind_eq (simulates_ofExcept _) fun taken => ?_
    exact simulates_pure (.jump _ hq)
  | switch value default cases =>
    rw [runInstructions, runInstructions, hi, hi', h.limits]
    refine simulates_bind_eq (simulates_tick _) fun _ => ?_
    have hvalue := hreads value (by simp [Instruction.operands])
    refine simulates_bind_eq hvalue.wordOperand fun word => ?_
    refine simulates_bind_eq (simulates_switchTarget fun k hk => ?_) fun dest => ?_
    · refine hreads k.1 ?_
      rw [Instruction.operands]
      exact List.mem_cons_of_mem _ (List.mem_map_of_mem hk)
    · exact simulates_pure (.jump dest hq)
  | ret value =>
    rw [runInstructions, runInstructions, hi, hi', h.limits]
    refine simulates_bind_eq (simulates_tick _) fun _ => ?_
    cases value with
    | none => exact simulates_pure (.done _)
    | some value =>
      refine simulates_bind_eq (hreads value (by simp [Instruction.operands])) fun x => ?_
      exact simulates_pure (.done x)
  | unreachable =>
    rw [runInstructions, hi]
    exact simulates_tick_left (simulates_throw _ _)
  | phi incoming =>
    rw [runInstructions, hi]
    exact simulates_tick_left (simulates_throw _ _)
  | _ => exact go rfl rfl rfl rfl

theorem lookup_map_snd {κ α β : Type} [BEq κ] (g : α → β) (k : κ) (xs : List (κ × α)) :
    (xs.map fun x => (x.1, g x.2)).lookup k = (xs.lookup k).map g := by
  induction xs with
  | nil => rfl
  | cons x xs ih =>
    obtain ⟨j, a⟩ := x
    rw [List.map_cons, List.lookup_cons, List.lookup_cons]
    cases k == j
    · exact ih
    · rfl

theorem simulates_readPhi {f : FunctionId} {b : BlockId} {previous : Option BlockId}
    {incoming : List (BlockId × ValueId)} (hi : ∀ x ∈ incoming, Reads e e' frame frame' g x.2) :
    Simulates Spares (e.readPhi f b previous frame v incoming)
      (e'.readPhi f b previous frame' v (incoming.map fun x => (x.1, g x.2)))
      (fun p p' => p' = p ∧ p.1 = v) := by
  unfold readPhi
  cases previous with
  | none => exact simulates_throw _ _
  | some source =>
    dsimp only
    rw [lookup_map_snd]
    cases hl : incoming.lookup source with
    | none => exact simulates_throw _ _
    | some value =>
      refine simulates_bind_eq (hi _ (mem_of_lookup hl)) fun x => ?_
      exact simulates_pure ⟨rfl, rfl⟩

/-- Functions follow each other once all their blocks do. -/
theorem simulates_runBlocks {f : FunctionId}
    (hb : ∀ previous b frame frame', Q frame frame' →
      Simulates Spares (e.runBlock callee f previous b frame)
        (e'.runBlock callee' f previous b frame') (FlowAgrees Q))
    (fuel : Nat) {previous : Option BlockId} {b : BlockId} (hq : Q frame frame') :
    Simulates Spares (e.runBlocks callee f fuel previous b frame)
      (e'.runBlocks callee' f fuel previous b frame') (· = ·) := by
  induction fuel generalizing previous b frame frame' with
  | zero =>
    rw [runBlocks_eq, runBlocks_eq]
    refine simulates_bind (hb previous b frame frame' hq) fun flow flow' hf => ?_
    cases hf with
    | done result => exact simulates_pure rfl
    | jump dest _ => exact simulates_throw _ _
  | succ fuel ih =>
    rw [runBlocks_eq, runBlocks_eq]
    refine simulates_bind (hb previous b frame frame' hq) fun flow flow' hf => ?_
    cases hf with
    | done result => exact simulates_pure rfl
    | jump dest hq' => exact ih hq'

namespace Keeps

variable (h : e.Keeps e')
include h

theorem simulates_execute {f : FunctionId} {args : List Datum}
    (hb : ∀ previous b frame frame', Q frame frame' →
      Simulates Spares (e.runBlock callee f previous b frame)
        (e'.runBlock callee' f previous b frame') (FlowAgrees Q))
    (hq : Q (Std.TreeMap.ofList ((e.module.params f).zip args))
      (Std.TreeMap.ofList ((e.module.params f).zip args))) :
    Simulates Spares (e.execute callee f args) (e'.execute callee' f args) (· = ·) := by
  unfold execute entry? Module.params
  rw [h.function_eq, h.limits]
  split
  · exact simulates_throw _ _
  · exact simulates_runBlocks hb _ hq

theorem callHost_eq (f : FunctionId) (args : List Datum) :
    e'.callHost f args = e.callHost f args := by
  unfold callHost functionName resultType
  rw [h.function_eq, h.types, h.host]

/-- A call follows another one if the bodies do, one level below. -/
theorem simulates_body {fuel : Nat} {f : FunctionId} {args : List Datum}
    (hb : ∀ below, fuel = below + 1 → Simulates Spares (e.execute (e.call below) f args)
      (e'.execute (e'.call below) f args) (· = ·)) :
    Simulates Spares (e.call fuel f args) (e'.call fuel f args) (· = ·) := by
  have hremoved : e'.module.isRemoved f = e.module.isRemoved f := by
    simp [isRemoved, h.function_eq]
  have hdeclared : e'.module.isDeclaration f = e.module.isDeclaration f := by
    simp [isDeclaration, h.function_eq]
  unfold call
  rw [hremoved, hdeclared, h.callHost_eq, h.limits]
  by_cases hr : e.module.isRemoved f
  · simp only [hr, if_true]
    exact simulates_throw_bind _ _ _
  · simp only [hr, Bool.false_eq_true, if_false]
    split
    · exact simulates_ofExcept _
    · refine simulates_bind simulates_get fun s s' hs => ?_
      rw [hs.depth]
      split
      · exact simulates_throw _ _
      · cases fuel with
        | zero => exact simulates_throw _ _
        | succ below => exact simulates_nested (hb below rfl)

theorem simulates_call
    (hb : ∀ callee callee' : FunctionId → List Datum → Run Datum,
      (∀ f args, Simulates Spares (callee f args) (callee' f args) (· = ·)) →
      ∀ f args, Simulates Spares (e.execute callee f args) (e'.execute callee' f args) (· = ·))
    (fuel : Nat) (f : FunctionId) (args : List Datum) :
    Simulates Spares (e.call fuel f args) (e'.call fuel f args) (· = ·) := by
  induction fuel generalizing f args with
  | zero => exact h.simulates_body fun below he => by omega
  | succ fuel ih =>
    refine h.simulates_body fun below he => ?_
    obtain rfl : fuel = below := by omega
    exact hb _ _ ih f args

/-- What a function returns in the first setting, it returns in the second one. -/
theorem runFunction_eq {f : FunctionId} {args : List Box} {result : Box}
    (hb : ∀ callee callee' : FunctionId → List Datum → Run Datum,
      (∀ f args, Simulates Spares (callee f args) (callee' f args) (· = ·)) →
      ∀ f args, Simulates Spares (e.execute callee f args) (e'.execute callee' f args) (· = ·))
    (hr : e.runFunction f args = .ok result) : e'.runFunction f args = .ok result := by
  have hremoved : e'.module.isRemoved f = e.module.isRemoved f := by
    simp [isRemoved, h.function_eq]
  have hdata (params : List TypeId) : e'.arguments f params args = e.arguments f params args := by
    unfold arguments functionName
    rw [h.types, h.function_eq]
  have hstart : e'.start = e.start := by
    unfold start
    rw [h.limits]
  unfold runFunction at hr ⊢
  rw [hremoved, h.types, h.function_eq, h.limits, hstart]
  dsimp only at hr ⊢
  simp only [hdata]
  by_cases hgone : e.module.isRemoved f
  · simp only [hgone, if_true] at hr
    cases hr
  · simp only [hgone, Bool.false_eq_true, if_false] at hr ⊢
    split at hr
    · rename_i harity
      rw [if_pos harity]
      cases hd : e.arguments f
          ((e.module.types.entry (e.module.function f).type).params.getD []) args with
      | error fault =>
        rw [hd] at hr
        cases hr
      | ok data =>
        rw [hd] at hr
        simp only [bind, Except.bind] at hr ⊢
        rcases hc : (e.call e.limits.callDepth f data).run.run e.start with ⟨fault | d, s⟩
        · rw [hc] at hr
          cases hr
        · rw [hc] at hr
          obtain ⟨d', t, ht, rfl, -⟩ := h.simulates_call hb e.limits.callDepth f data e.start
            e.start ⟨rfl, rfl, rfl, Nat.le_refl _⟩ d s hc
          rw [ht]
          exact hr
    · cases hr

end Keeps

end SsaKit.Setting
