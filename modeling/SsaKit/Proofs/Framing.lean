import Mathlib.Order.Defs.Unbundled
import SsaKit.Proofs.Call
import SsaKit.Transform.Folding
import SsaKit.Transform.Reachability

/-! Which relations between modules hold whatever an operation does. A preorder that holds of the
single changes of values holds of all operations that are made of them. -/
namespace SsaKit

/-! ### Steps that stay in a preorder -/

namespace Attempt

variable {σ τ α β γ : Type} {R : σ → σ → Prop} {S : τ → τ → Prop}

/-- The state that a step leaves behind, successful or not, is related to the one before it. -/
def Stays (R : σ → σ → Prop) (step : Attempt σ α) : Prop :=
  ∀ s, Ends step s (fun _ t => R s t) (R s)

theorem stays_modifyGet {f : σ → α × σ} (h : ∀ s, R s (f s).2) :
    Stays R (modifyGet f : Attempt σ α) := h

theorem stays_modify {f : σ → σ} (h : ∀ s, R s (f s)) : Stays R (modify f : Attempt σ PUnit) := h

theorem stays_onPart {get : σ → τ} {put : σ → τ → σ} {step : Attempt τ α} (h : Stays S step)
    (hput : ∀ s t, S (get s) t → R s (put s t)) : Stays R (onPart get put step) := by
  intro s
  rw [ends_onPart]
  exact (h (get s)).mono (fun _ t => hput s t) fun t => hput s t

section

variable [Std.Refl R]

theorem stays_pure (a : α) : Stays R (pure a : Attempt σ α) := fun s => Std.Refl.refl s

theorem stays_throw (e : Error) : Stays R (throw e : Attempt σ α) := fun s => Std.Refl.refl s

theorem stays_get : Stays R (get : Attempt σ σ) := fun s => Std.Refl.refl s

end

theorem Stays.bind [IsTrans σ R] {step : Attempt σ β} {next : β → Attempt σ α} (h : Stays R step)
    (hn : ∀ b, Stays R (next b)) : Stays R (step >>= next) := by
  intro s
  rw [ends_bind]
  refine (h s).mono (fun b t ht => ?_) fun _ ht => ht
  exact (hn b t).mono (fun _ _ hu => IsTrans.trans _ _ _ ht hu)
    fun _ hu => IsTrans.trans _ _ _ ht hu

section

variable [Std.Refl R] [IsTrans σ R]

theorem Stays.map {step : Attempt σ β} (h : Stays R step) (f : β → α) : Stays R (f <$> step) := by
  rw [map_eq_pure_bind]
  exact h.bind fun _ => stays_pure _

/-- A check in front of a step. -/
theorem Stays.guard {p : Prop} [Decidable p] {e : Error} {next : PUnit → Attempt σ α}
    (h : ∀ r, Stays R (next r)) : Stays R (if p then next ⟨⟩ else throw e >>= next) := by
  split
  · exact h _
  · exact (stays_throw e).bind h

theorem stays_forM {f : γ → Attempt σ PUnit} (h : ∀ x, Stays R (f x)) (xs : List γ) :
    Stays R (xs.forM f) := by
  induction xs with
  | nil => exact stays_pure _
  | cons x xs ih => exact (h x).bind fun _ => ih

theorem stays_mapM {f : γ → Attempt σ α} (h : ∀ x, Stays R (f x)) (xs : List γ) :
    Stays R (xs.mapM f) := by
  induction xs with
  | nil => exact stays_pure _
  | cons x xs ih =>
    rw [List.mapM_cons]
    exact (h x).bind fun _ => ih.bind fun _ => stays_pure _

end

end Attempt

open Attempt SsaKit.Module Transform

namespace Module

/-- A relation that holds of every change that keeps all values, the marks of removed functions and
the names of globals, of every new value and of every new kind of an old one, as far as no pointer
is derived there. -/
structure Framed (R : Module → Module → Prop) : Prop where
  kept : ∀ {m m' : Module}, (∀ v, m'.value v = m.value v) →
    (∀ f, m'.isRemoved f = m.isRemoved f) → m'.globals = m.globals →
    m'.globalNames = m.globalNames → R m m'
  pushed : ∀ (m : Module) (type : TypeId) (kind : ValueKind),
    (∀ base indices, kind ≠ .instruction (.elementPtr base indices)) → R m (m.pushed type kind)
  rekinded : ∀ (m : Module) (v : ValueId) (kind : ValueKind),
    (∀ base indices, kind ≠ .instruction (.elementPtr base indices)) →
    R m (m.revalued v fun x => { x with kind })

/-- A framed relation that names of values do not matter to. -/
structure Nameless (R : Module → Module → Prop) : Prop extends Framed R where
  renamed : ∀ {m m' : Module}, (∀ v, m'.kindOf v = m.kindOf v) →
    (∀ f, m'.isRemoved f = m.isRemoved f) → R m m'

theorem isRemoved_declared {m : Module} {name : String} {type : TypeId} {params : List ValueId}
    (k : FunctionId) : (m.declared name type params).isRemoved k = m.isRemoved k := by
  simp only [isRemoved, function_def, declared, Array.getElem?_push]
  split
  · rename_i hk
    simp only [hk, Array.getElem?_eq_none (Nat.le_refl _)]
    rfl
  · rfl

theorem kindOf_renamed (m : Module) (v : ValueId) (name : Option String) (w : ValueId) :
    (m.revalued v fun x => { x with name }).kindOf w = m.kindOf w := by
  by_cases hv : m.values.Has v
  · rw [kindOf, value_revalued hv]
    split
    · rename_i he
      rw [he]
      rfl
    · rfl
  · rw [revalued_of_not_has hv]

variable {R : Module → Module → Prop} [Std.Refl R] [IsTrans Module R] {m m' : Module}
  {v init : ValueId} {f : FunctionId} {b : BlockId}

section

omit [Std.Refl R] [IsTrans Module R]
variable (h : Framed R)
include h

theorem onTypes_framed {α : Type} (step : Attempt TypeTable α) : Stays R (Edit.onTypes step) :=
  stays_onPart (S := fun _ _ => True)
    (fun _ => Ends.of_forall (fun _ _ => trivial) fun _ => trivial)
    fun _ _ _ => h.kept (fun _ => rfl) (fun _ => rfl) rfl rfl

theorem pushValue_framed (type : TypeId) {kind : ValueKind}
    (hk : ∀ base indices, kind ≠ .instruction (.elementPtr base indices)) :
    Stays R (Edit.pushValue type kind) :=
  stays_modifyGet fun m => h.pushed m type kind hk

theorem setKind_framed (v : ValueId) {kind : ValueKind}
    (hk : ∀ base indices, kind ≠ .instruction (.elementPtr base indices)) :
    Stays R (Edit.setKind v kind) :=
  stays_modify fun m => h.rekinded m v kind hk

theorem modifyFunction_framed (f : FunctionId) (change : Function → Function)
    (hc : ∀ x, (change x).isRemoved = x.isRemoved) : Stays R (Edit.modifyFunction f change) :=
  stays_modify fun _ => h.kept (fun _ => rfl) (isRemoved_refunctioned hc) rfl rfl

theorem modifyBlock_framed (b : BlockId) (change : Block → Block) :
    Stays R (Edit.modifyBlock b change) :=
  stays_modify fun _ => h.kept (fun _ => rfl) (fun _ => rfl) rfl rfl

theorem relink_framed {b : BlockId}
    {change : Chain .value → Arena .value .block Value → Chain .value × Arena .value .block Value}
    (hc : ∀ c a v, (change c a).2.content? v = a.content? v) : Stays R (Edit.relink b change) := by
  refine stays_modify fun m => h.kept (fun v => ?_) (fun _ => rfl) rfl rfl
  simp only [value_def, hc]

theorem relinkBlocks_framed (f : FunctionId)
    (change : Chain .block → Arena .block .function Block →
      Chain .block × Arena .block .function Block) : Stays R (Edit.relinkBlocks f change) :=
  stays_modify fun _ => h.kept (fun _ => rfl) (isRemoved_refunctioned fun _ => rfl) rfl rfl

theorem pushBlock_framed (name : String) : Stays R (pushBlock name) :=
  stays_modifyGet fun _ => h.kept (fun _ => rfl) (fun _ => rfl) rfl rfl

theorem unlink_framed (b : BlockId) (v : ValueId) :
    Stays R (Edit.relink b fun c a => c.unlink a v) :=
  relink_framed h fun _ _ _ => Chain.content?_unlink

theorem linkInstruction_framed (b : BlockId) (before : Option ValueId) (v : ValueId) :
    Stays R (linkInstruction b before v) := by
  refine relink_framed h fun c a w => ?_
  cases before with
  | none => exact Chain.content?_pushBack
  | some anchor => exact Chain.content?_insertBefore

end

theorem globalData_stays (v : ValueId) : Stays R (globalData v) := by
  unfold globalData
  refine stays_get.bind fun m => ?_
  split
  · exact stays_pure _
  · exact stays_throw _

theorem checkDetached_stays (v : ValueId) : Stays R (checkDetached v) := by
  unfold checkDetached
  refine stays_get.bind fun m => Stays.guard fun _ => ?_
  split
  · exact stays_throw _
  · exact stays_pure _

section

variable (h : Framed R)
include h

/-! ### Symbols -/

theorem setInitializer_framed (v init : ValueId) : Stays R (setInitializer v init) := by
  unfold setInitializer
  refine (globalData_stays v).bind fun g => stays_get.bind fun m => ?_
  exact Stays.guard fun _ => Stays.guard fun _ => setKind_framed h v (by simp)

theorem setGlobalLinkage_framed (v : ValueId) (linkage : Linkage) :
    Stays R (setGlobalLinkage v linkage) :=
  (globalData_stays v).bind fun _ => setKind_framed h v (by simp)

theorem setGlobalConstant_framed (v : ValueId) (isConstant : Bool) :
    Stays R (setGlobalConstant v isConstant) :=
  (globalData_stays v).bind fun _ => setKind_framed h v (by simp)

omit [Std.Refl R] in
theorem constString_framed (text : String) (isTerminated : Bool) :
    Stays R (constString text isTerminated) :=
  (onTypes_framed h _).bind fun _ => (onTypes_framed h _).bind fun type =>
    pushValue_framed h type (by simp)

/-- A text is laid down as any global is, and given its content. -/
theorem globalString_framed (hadd : ∀ type name, Stays R (addGlobal type name))
    (name text : String) : Stays R (globalString name text) :=
  (constString_framed h text true).bind fun init => stays_get.bind fun _ =>
    (hadd _ name).bind fun v => (setInitializer_framed h v init).bind fun _ =>
      (setGlobalLinkage_framed h v _).bind fun _ => (setGlobalConstant_framed h v _).bind fun _ =>
        stays_pure v

theorem addFunction_framed (name : String) (type : TypeId) : Stays R (addFunction name type) := by
  unfold addFunction
  refine stays_get.bind fun m => ?_
  split
  · exact stays_throw _
  · split
    · dsimp only
      split
      · exact stays_pure _
      · exact stays_throw _
    · split
      · exact stays_throw _
      · refine Stays.bind (stays_mapM (fun _ => pushValue_framed h _ (by simp)) _) fun params => ?_
        refine Stays.bind (stays_modify fun m => ?_) fun _ => stays_pure _
        exact h.kept (fun _ => rfl) isRemoved_declared rfl rfl

/-! ### Layout -/

theorem removeBlock_framed (b : BlockId) : Stays R (removeBlock b) := by
  unfold removeBlock
  refine stays_get.bind fun m => (stays_forM (fun v => unlink_framed h b v) _).bind fun _ => ?_
  split
  · exact relinkBlocks_framed h _ _
  · exact stays_pure _

/-- The removal of a function is framed too where its mark does not matter. -/
theorem removeFunction_framed
    (hm : ∀ (m : Module) f, R m (m.refunctioned f fun x => { x with isRemoved := true }))
    (f : FunctionId) : Stays R (removeFunction f) := by
  have hremove (m : Module) : Stays R (do
      (m.blocksOf f).forM removeBlock
      Edit.modifyFunction f fun data => { data with isRemoved := true }
      modify fun m : Module =>
        { m with functionNames := m.functionNames.erase (m.functionName f) }) := by
    refine (stays_forM (removeBlock_framed h) _).bind fun _ => ?_
    refine Stays.bind (stays_modify fun m => hm m f) fun _ => ?_
    exact stays_modify fun m => h.kept (fun _ => rfl) (fun _ => rfl) rfl rfl
  unfold removeFunction
  refine stays_get.bind fun m => ?_
  split
  · exact stays_pure _
  · split
    · exact (stays_throw _).bind fun _ => hremove m
    · exact hremove m

theorem detachInstruction_framed (v : ValueId) : Stays R (detachInstruction v) := by
  unfold detachInstruction
  refine stays_get.bind fun m => ?_
  split
  · exact unlink_framed h _ v
  · exact stays_pure _

theorem eraseInstruction_framed (v : ValueId) : Stays R (eraseInstruction v) := by
  unfold eraseInstruction
  refine stays_get.bind fun m => ?_
  split
  · exact (stays_throw _).bind fun _ => detachInstruction_framed h v
  · exact detachInstruction_framed h v

theorem addIncoming_framed (v : ValueId) (b : BlockId) (incoming : ValueId) :
    Stays R (addIncoming v b incoming) := by
  unfold addIncoming
  refine stays_get.bind fun m => Stays.guard fun _ => ?_
  split
  · split
    · exact (stays_throw _).bind fun _ => setKind_framed h v (by simp)
    · exact setKind_framed h v (by simp)
  · exact stays_throw _

theorem removeIncoming_framed (v : ValueId) (b : BlockId) : Stays R (removeIncoming v b) := by
  unfold removeIncoming
  refine stays_get.bind fun m => ?_
  split
  · exact (setKind_framed h v (by simp)).bind fun _ => stays_pure _
  · exact stays_throw _

theorem constWord_framed (type : TypeId) (word : UInt64) : Stays R (constWord type word) := by
  unfold constWord expectKind
  refine Stays.bind (stays_get.bind fun _ => ?_) fun _ => stays_get.bind fun _ => ?_
  · split
    · exact stays_pure _
    · exact stays_throw _
  · dsimp only
    split
    · exact (stays_throw _).bind fun _ => pushValue_framed h type (by simp)
    · exact pushValue_framed h type (by simp)

end

/-! ### Names -/

section

omit [Std.Refl R] [IsTrans Module R] in
theorem rename_nameless (h : Nameless R) (v : ValueId) (name : Option String) :
    Stays R (Edit.setName v name) :=
  stays_modify fun m => h.renamed (kindOf_renamed m v name) fun _ => rfl

variable (h : Nameless R)
include h

theorem setName_nameless (v : ValueId) (text : String) : Stays R (setName v text) := by
  have hname := rename_nameless h v (nameOf text)
  have htable (table : SymbolTable ValueId) :
      Stays R (modify fun m : Module => { m with globalNames := table }) :=
    stays_modify fun _ => h.renamed (fun _ => rfl) fun _ => rfl
  unfold setName
  refine stays_get.bind fun m => ?_
  dsimp only
  split
  · split
    · split
      · exact (stays_throw _).bind fun _ => (htable _).bind fun _ => hname
      · exact (htable _).bind fun _ => hname
    · exact (htable _).bind fun _ => hname
  · exact hname

theorem addGlobal_nameless (valueType : TypeId) (name : String) :
    Stays R (addGlobal valueType name) := by
  unfold addGlobal
  refine stays_get.bind fun m => ?_
  split
  · refine Stays.guard fun _ => (globalData_stays _).bind fun g => ?_
    split
    · exact stays_pure _
    · exact stays_throw _
  · refine Stays.guard fun _ => (onTypes_framed h.toFramed _).bind fun type => ?_
    refine (pushValue_framed h.toFramed type (by simp)).bind fun v => ?_
    refine (rename_nameless h v _).bind fun _ => ?_
    refine Stays.bind (stays_modify fun m => ?_) fun _ => stays_pure v
    exact h.renamed (fun _ => rfl) fun _ => rfl

theorem removeGlobal_nameless (v : ValueId) : Stays R (removeGlobal v) :=
  (globalData_stays v).bind fun _ => stays_modify fun _ => h.renamed (fun _ => rfl) fun _ => rfl

theorem setParamNames_nameless (f : FunctionId) (names : List String) :
    Stays R (setParamNames f names) :=
  stays_get.bind fun _ => stays_forM (fun _ => rename_nameless h _ _) _

end

/-! ### Passes -/

theorem eraseDead_stays (he : ∀ v, Stays R (eraseInstruction v)) : Stays R eraseDead := by
  have hrounds (fuel : Nat) (changed : Bool) : Stays R (eraseRounds fuel changed) := by
    induction fuel generalizing changed with
    | zero => exact stays_pure changed
    | succ fuel ih =>
      unfold eraseRounds
      refine stays_get.bind fun m => ?_
      dsimp only
      split
      · exact stays_pure changed
      · exact (stays_forM he _).bind fun _ => ih true
  exact stays_get.bind fun m => hrounds _ false

theorem foldConstants_stays (hc : ∀ type word, Stays R (constWord type word))
    (hr : ∀ old new, Stays R (replaceAllUses old new)) (he : ∀ v, Stays R (eraseInstruction v)) :
    Stays R foldConstants := by
  have hreplace (v : ValueId) (word : UInt64) : Stays R (replaceByConstant v word) :=
    stays_get.bind fun _ => (hc _ word).bind fun constant => (hr v constant).bind fun _ => he v
  have hrounds (fuel : Nat) (changed : Bool) : Stays R (foldRounds fuel changed) := by
    induction fuel generalizing changed with
    | zero => exact stays_pure changed
    | succ fuel ih =>
      unfold foldRounds
      refine stays_get.bind fun m => ?_
      dsimp only
      split
      · exact stays_pure changed
      · refine Stays.bind (stays_forM (fun r => ?_) _) fun _ => ih true
        exact hreplace r.1 r.2
  exact stays_get.bind fun m => hrounds _ false

theorem removeUnreachable_stays (hp : ∀ v b, Stays R (removeIncoming v b))
    (hb : ∀ b, Stays R (removeBlock b)) : Stays R removeUnreachable := by
  have hdrop (phis : List ValueId) (b : BlockId) : Stays R (dropBlock phis b) :=
    (stays_forM (fun v => (hp v b).map _) phis).bind fun _ => hb b
  have hin (f : FunctionId) : Stays R (removeUnreachableIn f) := by
    unfold removeUnreachableIn
    refine stays_get.bind fun m => ?_
    split
    · exact stays_pure false
    · exact (stays_forM (hdrop _) _).bind fun _ => stays_pure _
  exact stays_get.bind fun m => (stays_mapM hin _).bind fun _ => stays_pure _

end Module

variable {R : Module → Module → Prop} [Std.Refl R] [IsTrans Module R]

/-- The calls that touch the names of values or the list of globals. -/
def SymbolCall.renames : SymbolCall → Bool
  | setName _ _ | addGlobal _ _ | removeGlobal _ | globalString _ _ | setParamNames _ _ => true
  | _ => false

theorem SymbolCall.run_framed (h : Framed R) {c : SymbolCall} (hc : c.renames = false)
    (hr : ∀ f, c ≠ .removeFunction f) : Stays R c.run := by
  cases c with
  | setName _ _ | addGlobal _ _ | removeGlobal _ | globalString _ _ | setParamNames _ _ => cases hc
  | setInitializer v init => exact (setInitializer_framed h v init).map _
  | setGlobalLinkage v linkage => exact (setGlobalLinkage_framed h v linkage).map _
  | setGlobalConstant v isConstant => exact (setGlobalConstant_framed h v isConstant).map _
  | addFunction name type => exact (addFunction_framed h name type).map _
  | declareFunction name result params isVariadic =>
    exact Stays.map ((onTypes_framed h _).bind fun type => addFunction_framed h name type) _
  | setLinkage f linkage =>
    exact (modifyFunction_framed h f (fun data => { data with linkage }) fun _ => rfl).map _
  | removeFunction f => exact (hr f rfl).elim

theorem SymbolCall.run_nameless (h : Nameless R) {c : SymbolCall}
    (hr : ∀ f, c ≠ .removeFunction f) : Stays R c.run := by
  cases c with
  | setName v text => exact (setName_nameless h v text).map _
  | addGlobal valueType name => exact (addGlobal_nameless h valueType name).map _
  | removeGlobal v => exact (removeGlobal_nameless h v).map _
  | globalString name text =>
    exact (globalString_framed h.toFramed (addGlobal_nameless h) name text).map _
  | setParamNames f names => exact (setParamNames_nameless h f names).map _
  | _ => exact SymbolCall.run_framed h.toFramed rfl hr

/-- A change of the layout is framed, but a replacement may change derived pointers. -/
theorem LayoutCall.run_framed (h : Framed R) {c : LayoutCall}
    (hc : ∀ old new, c ≠ .replaceAllUses old new) : Stays R c.run := by
  cases c with
  | appendBlock f name =>
    exact Stays.map ((pushBlock_framed h name).bind fun b =>
      (relinkBlocks_framed h f _).bind fun _ => stays_pure b) _
  | insertBlockBefore anchor name =>
    refine Stays.map (stays_get.bind fun m => ?_) _
    split
    · exact stays_pure _
    · exact (pushBlock_framed h name).bind fun b =>
        (relinkBlocks_framed h _ _).bind fun _ => stays_pure _
  | setBlockName b name => exact (modifyBlock_framed h b _).map _
  | removeBlock b => exact (removeBlock_framed h b).map _
  | appendInstruction b v =>
    exact Stays.map ((checkDetached_stays v).bind fun _ => linkInstruction_framed h b none v) _
  | insertInstructionBefore anchor v =>
    refine Stays.map ((checkDetached_stays v).bind fun _ => stays_get.bind fun m => ?_) _
    split
    · exact linkInstruction_framed h _ _ v
    · exact stays_throw _
  | detachInstruction v => exact (detachInstruction_framed h v).map _
  | eraseInstruction v => exact (eraseInstruction_framed h v).map _
  | replaceAllUses old new => exact (hc old new rfl).elim
  | addIncoming v b incoming => exact (addIncoming_framed h v b incoming).map _
  | removeIncoming v b => exact (removeIncoming_framed h v b).map _

end SsaKit
