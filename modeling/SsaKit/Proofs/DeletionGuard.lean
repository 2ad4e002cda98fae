import Mathlib.Data.List.Induction
import Mathlib.Data.List.Infix
import SsaKit.Proofs.GlobalNames
import SsaKit.Proofs.Legality

/-! No instruction that is linked into a live function calls a removed one, as long as no detached
call of a removed function is linked again; and linking one breaks the rule. -/
namespace SsaKit

open Attempt SsaKit.Module Transform

/-- The function that a value calls. -/
def ValueKind.callee? : ValueKind → Option FunctionId
  | instruction (.call callee _) => some callee
  | _ => none

namespace Module

variable {m m' : Module} {o o' : Order} {v w : ValueId} {b : BlockId} {f g : FunctionId}

def callee? (m : Module) (v : ValueId) : Option FunctionId := (m.kindOf v).callee?

/-- A call of a function that was removed. -/
def callsRemoved (m : Module) (v : ValueId) : Bool := (m.callee? v).any m.isRemoved

/-- A call of a removed function that is linked into a live one. -/
def Astray (m : Module) (v : ValueId) : Prop :=
  m.callsRemoved v ∧ ∃ f ∈ m.liveFunctions, v ∈ m.instructionsOf f

/-- No instruction that is linked into a live function calls a removed one. -/
def Guarded (m : Module) : Prop := ∀ v, ¬ m.Astray v

theorem callee?_eq_some : m.callee? v = some f ↔ ∃ args, m.instruction? v = some (.call f args) := by
  unfold callee? instruction?
  cases m.kindOf v with
  | instruction i => cases i <;> simp [ValueKind.callee?, ValueKind.instruction?]
  | _ => simp [ValueKind.callee?, ValueKind.instruction?]

theorem callsRemoved_iff : m.callsRemoved v ↔ ∃ f, m.callee? v = some f ∧ m.isRemoved f := by
  simp [callsRemoved, Option.any_eq_true]

/-! ### What a value calls is kept -/

theorem callee?_of_kindOf (h : m'.kindOf v = m.kindOf v) : m'.callee? v = m.callee? v :=
  congrArg ValueKind.callee? h

theorem callee?_revalued {g : Value → Value} (hg : (g (m.value v)).kind.callee? = m.callee? v) :
    (m.revalued v g).callee? w = m.callee? w := by
  by_cases hv : m.values.Has v
  · unfold callee? kindOf
    rw [value_revalued hv]
    split
    · rename_i he
      rw [he]
      exact hg
    · rfl
  · rw [revalued_of_not_has hv]

theorem callee?_replaced {old new : ValueId} : (m.replaced old new).callee? v = m.callee? v := by
  unfold callee? kindOf
  rw [value_replaced, replaceIn]
  cases hk : (m.value v).kind with
  | instruction i => cases i <;> rfl
  | _ => simp [hk]

theorem Quiet.callee?_eq (hq : Quiet m m') (hv : m.values.Has v) : m'.callee? v = m.callee? v := by
  have pushed {type : TypeId} {kind : ValueKind} : (m.pushed type kind).callee? v = m.callee? v :=
    callee?_of_kindOf (by rw [kindOf, value_pushed hv]; rfl)
  cases hq with
  | prepare _ hp =>
    cases hp with
    | types t _ => rfl
    | constant type kind _ _ _ _ => exact pushed
  | instruction type i _ _ => exact pushed
  | addGlobal type valueType name _ _ _ =>
    have hnew := has_pushed_new m type (.global { valueType })
    refine (callee?_revalued (m := m.pushed type (.global { valueType })) ?_).trans pushed
    rfl
  | removeGlobal w _ => rfl
  | rename w name _ => exact callee?_revalued rfl
  | renameGlobal w name _ _ => exact callee?_revalued rfl
  | changeGlobal w g g' hg _ _ => exact callee?_revalued (by simp [callee?, hg, ValueKind.callee?])
  | addIncoming w b u entries hw _ _ _ _ =>
    exact callee?_revalued (by simp [callee?, kindOf_of_instruction? hw, ValueKind.callee?])
  | dropIncoming w b entries hw =>
    exact callee?_revalued (by simp [callee?, kindOf_of_instruction? hw, ValueKind.callee?])
  | addFunction m₁ name type params ha _ _ _ => exact callee?_of_kindOf (ha.kindOf_eq hv)
  | link f linkage => rfl
  | removeFunction f _ => rfl
  | pushBlock name => rfl
  | nameBlock b name => rfl
  | replace old new _ _ _ => exact callee?_replaced

theorem Changed.callee?_eq (hc : Changed m m') (hv : m.values.Has v) :
    m'.callee? v = m.callee? v := by
  induction hc with
  | refl => rfl
  | tail hc hstep ih =>
    have hv' := (Changed.extends hc).has hv
    obtain hq | hm := hstep
    · rw [hq.callee?_eq hv', ih]
    · rw [callee?_of_kindOf (hm.kindOf_eq v), ih]

/-! ### Marks -/

/-- The same functions are marked as removed. -/
def SameMarks (m m' : Module) : Prop := ∀ f, m'.isRemoved f = m.isRemoved f

instance : Std.Refl SameMarks := ⟨fun _ _ => rfl⟩

instance : IsTrans Module SameMarks := ⟨fun _ _ _ h h' f => (h' f).trans (h f)⟩

theorem sameMarks_nameless : Nameless SameMarks where
  kept _ hf _ _ := hf
  pushed _ _ _ _ _ := rfl
  rekinded _ _ _ _ _ := rfl
  renamed _ hf := hf

theorem Prepared.sameMarks (h : Prepared m m') : m.SameMarks m' := by
  induction h with
  | refl => exact Std.Refl.refl m
  | tail _ hs ih => cases hs <;> exact ih

theorem replaceAllUses_sameMarks (old new : ValueId) : Stays SameMarks (replaceAllUses old new) :=
  stays_get.bind fun _ => Stays.guard fun _ => stays_modifyGet fun _ _ => rfl

theorem Ordered.mem_instructionsOf (ho : m.Ordered o) :
    v ∈ m.instructionsOf f ↔ ∃ b ∈ o.blocks f, v ∈ o.code b := by
  simp [instructionsOf, ho.blocksOf_eq, ho.instructions_eq]

/-- A function with a block is live where the same functions are removed. -/
theorem SameMarks.mem_liveFunctions (hm : m.SameMarks m') (ho : m.Ordered o)
    (hf : f ∈ m'.liveFunctions) (hb : b ∈ o.blocks f) : f ∈ m.liveFunctions :=
  Module.mem_liveFunctions.mpr
    ⟨ho.hasFunction_of_mem hb, (hm f).symm.trans (Module.mem_liveFunctions.mp hf).2⟩

theorem SameMarks.callsRemoved_eq (hm : m.SameMarks m') (hc : Changed m m')
    (hv : m.values.Has v) : m'.callsRemoved v = m.callsRemoved v := by
  unfold callsRemoved
  rw [hc.callee?_eq hv, funext hm]

/-- Where the same functions are removed and no instruction has a new place, no call goes astray. -/
theorem Astray.of_within (h : m'.Astray v) (hc : Changed m m') (hm : m.SameMarks m')
    (ho : m.Ordered o) (ho' : m'.Ordered o') (hw : o'.Within o) : m.Astray v := by
  obtain ⟨hcalls, f, hf, hv⟩ := h
  obtain ⟨b, hb, hv⟩ := ho'.mem_instructionsOf.mp hv
  obtain ⟨hb, hv⟩ := hw f b v hb hv
  rw [hm.callsRemoved_eq hc (ho.has_of_mem_code hv)] at hcalls
  exact ⟨hcalls, f, hm.mem_liveFunctions ho hf hb, ho.mem_instructionsOf.mpr ⟨b, hb, hv⟩⟩

/-- Where the same functions are removed and one instruction has a new place, at most that one goes
astray. -/
theorem Astray.of_placed (h : m'.Astray v) (hc : Changed m m') (hm : m.SameMarks m')
    (ho : m.Ordered o) (ho' : m'.Ordered o') (hblocks : o'.blocks = o.blocks)
    (hcode : ∀ k u, u ∈ o'.code k → u ∈ o.code k ∨ u = w ∧ k = b) :
    m.Astray v ∨ v = w ∧ m'.callsRemoved w ∧ ∃ f, b ∈ o.blocks f ∧ m.isRemoved f = false := by
  obtain ⟨hcalls, f, hf, hv⟩ := h
  obtain ⟨k, hk, hv⟩ := ho'.mem_instructionsOf.mp hv
  rw [hblocks] at hk
  have hf := hm.mem_liveFunctions ho hf hk
  obtain hv | ⟨rfl, rfl⟩ := hcode k v hv
  · rw [hm.callsRemoved_eq hc (ho.has_of_mem_code hv)] at hcalls
    exact .inl ⟨hcalls, f, hf, ho.mem_instructionsOf.mpr ⟨k, hk, hv⟩⟩
  · exact .inr ⟨rfl, hcalls, f, hk, (Module.mem_liveFunctions.mp hf).2⟩

/-! ### Removed functions -/

/-- A function is marked as removed only if no other live function calls it. -/
theorem removeFunction_marks (ho : m.Ordered o) (hf : m.HasFunction f) :
    Ends (removeFunction f) m (fun _ m' => m' = m ∨ (∀ g ∈ m.callers f, g = f) ∧
      ∀ k, m'.isRemoved k = (m.isRemoved k || decide (k = f))) (· = m) := by
  have hblocks : Ends ((m.blocksOf f).forM removeBlock) m (fun _ m₁ => Changed m m₁)
      fun _ => False := ends_removeBlocks ho ho.blocksOf_eq.symm fun _ _ hc _ _ => hc
  have hmarks : Stays SameMarks ((m.blocksOf f).forM removeBlock) :=
    stays_forM (removeBlock_framed sameMarks_nameless.toFramed) _
  unfold removeFunction
  simp only [ends_bind, ends_get]
  split
  · exact .inl rfl
  · split
    · rfl
    · rename_i hcallers
      rw [ends_bind]
      refine (hblocks.and (hmarks m)).mono (fun _ m₁ h₁ => ?_) fun _ h₁ => h₁.1.elim
      obtain ⟨hc, hm⟩ := h₁
      simp only [Edit.modifyFunction, ends_bind, ends_modify]
      refine .inr ⟨fun g hg => ?_, fun k => ?_⟩
      · by_contra hne
        have hsome : ((m.callers f).find? (· ≠ f)).isSome :=
          List.find?_isSome.mpr ⟨g, hg, by simpa using hne⟩
        obtain ⟨caller, hfind⟩ := Option.isSome_iff_exists.mp hsome
        exact hcallers caller hfind
      · change (m₁.refunctioned f fun x => { x with isRemoved := true }).isRemoved k = _
        have hhead := congrArg Function.isRemoved (head_marked (hc.extends.functions f hf).1 k)
        exact hhead.trans (by rw [hm k])

/-- Whoever is removed is called from nowhere, so that no call goes astray. -/
theorem removeFunction_guards (ho : m.Ordered o) (hf : m.HasFunction f) :
    Ends (removeFunction f) m (fun _ m' => ∀ v, m'.Astray v → m.Astray v)
      fun m' => ∀ v, m'.Astray v → m.Astray v := by
  have hends : Ends (removeFunction f) m _ _ :=
    Ends.and (removeFunction_reorders ho f) (removeFunction_marks ho hf)
  refine hends.mono (fun _ m' h' v hv => ?_) fun m' h' v hv => ?_
  · obtain ⟨⟨hc, o', ho', hr⟩, rfl | ⟨hcallers, hmarks⟩⟩ := h'
    · exact hv
    · have hw : o'.Within o := by
        split at hr
        · rw [hr]
          exact .refl o
        · exact .of_removesBlocks hr
      obtain ⟨hcalls, g, hg, hv⟩ := hv
      obtain ⟨callee, hcallee, hremoved⟩ := callsRemoved_iff.mp hcalls
      obtain ⟨b, hb, hv⟩ := ho'.mem_instructionsOf.mp hv
      obtain ⟨hb, hv⟩ := hw g b v hb hv
      have hlive := (Module.mem_liveFunctions.mp hg).2
      rw [hmarks, Bool.or_eq_false_iff, decide_eq_false_iff_not] at hlive
      have hg : g ∈ m.liveFunctions :=
        Module.mem_liveFunctions.mpr ⟨ho.hasFunction_of_mem hb, hlive.1⟩
      have hin : v ∈ m.instructionsOf g := ho.mem_instructionsOf.mpr ⟨b, hb, hv⟩
      rw [hc.callee?_eq (ho.has_of_mem_code hv)] at hcallee
      rw [hmarks, Bool.or_eq_true, decide_eq_true_eq] at hremoved
      obtain hremoved | rfl := hremoved
      · exact ⟨callsRemoved_iff.mpr ⟨callee, hcallee, hremoved⟩, g, hg, hin⟩
      · have hcall : m.isCallTo callee v := isCallTo_iff.mpr (callee?_eq_some.mp hcallee)
        exact (hlive.2 (hcallers g (List.mem_filter.mpr
          ⟨hg, List.any_eq_true.mpr ⟨v, hin, hcall⟩⟩))).elim
  · rw [h'.2] at hv
    exact hv

/-! ### Passes -/

/-- Instructions have no new places. -/
def Narrowed (m m' : Module) : Prop :=
  m.Ordered m.order → m'.Ordered m'.order ∧ m'.order.Within m.order

instance : Std.Refl Narrowed := ⟨fun m ho => ⟨ho, .refl m.order⟩⟩

instance : IsTrans Module Narrowed := ⟨fun _ _ _ h h' ho => by
  obtain ⟨ho', hw⟩ := h ho
  obtain ⟨ho'', hw'⟩ := h' ho'
  exact ⟨ho'', hw'.trans hw⟩⟩

theorem stays_narrowed {α : Type} {step : Edit α} (h : ∀ m o, m.Ordered o →
    Ends step m (fun _ m' => ∃ o', m'.Ordered o' ∧ o'.Within o)
      fun m' => ∃ o', m'.Ordered o' ∧ o'.Within o) : Stays Narrowed step := by
  intro m
  by_cases ho : m.Ordered m.order
  · have narrowed {m' : Module} (h' : ∃ o', m'.Ordered o' ∧ o'.Within m.order) :
        m.Narrowed m' := fun _ => by
      obtain ⟨o', ho', hw⟩ := h'
      rw [ho'.order_eq]
      exact ⟨ho', hw⟩
    exact (h m _ ho).mono (fun _ _ h' => narrowed h') fun _ h' => narrowed h'
  · exact Ends.of_forall (fun _ _ h => (ho h).elim) fun _ h => (ho h).elim

theorem eraseInstruction_narrowed (v : ValueId) : Stays Narrowed (eraseInstruction v) := by
  refine stays_narrowed fun m o ho => (eraseInstruction_reorders ho v).mono (fun _ m' h => ?_)
    fun _ h => ⟨o, h.2, .refl o⟩
  obtain ⟨-, o', ho', hd⟩ := h
  exact ⟨o', ho', .of_dropsCode hd⟩

theorem removeBlock_narrowed (b : BlockId) : Stays Narrowed (removeBlock b) := by
  refine stays_narrowed fun m o ho => (removeBlock_reorders ho b).mono (fun _ m' h => ?_)
    fun _ h => ⟨o, h.2, .refl o⟩
  obtain ⟨-, o', ho', hr⟩ := h
  exact ⟨o', ho', .of_removesBlock hr⟩

theorem removeIncoming_narrowed (v : ValueId) (b : BlockId) :
    Stays Narrowed (removeIncoming v b) := by
  refine stays_narrowed fun m o ho => ?_
  have hq : Quietly (removeIncoming v b) m := removeIncoming_quietly v b
  exact hq.mono (fun _ _ h => ⟨o, Quieted.ordered h ho, .refl o⟩)
    fun _ h => ⟨o, Quieted.ordered h ho, .refl o⟩

theorem constWord_narrowed (type : TypeId) (word : UInt64) :
    Stays Narrowed (constWord type word) := by
  refine stays_narrowed fun m o ho => ends_constWord (fun _ _ hp _ _ => ?_) ⟨o, ho, .refl o⟩
  exact ⟨o, Quieted.ordered hp.quieted ho, .refl o⟩

theorem replaceAllUses_narrowed (old new : ValueId) :
    Stays Narrowed (replaceAllUses old new) := by
  refine stays_narrowed fun m o ho => ?_
  rw [replaceAllUses_eq]
  simp only [ends_bind, ends_get]
  split
  · exact ⟨o, ho.of_values (Arena.sameLinks_map _) rfl rfl, .refl o⟩
  · exact ⟨o, ho, .refl o⟩

open Classical in
/-- A function that is needed, and whatever it calls, stays. -/
theorem Pared.guards (h : m.Pared m') (ho : m.Ordered m.order) (hv : m'.Astray v) :
    m.Astray v := by
  obtain ⟨hcalls, f, hf, hv⟩ := hv
  obtain ⟨hf, hneeded⟩ := h.mem_liveFunctions.mp hf
  have hneeded : m.NeedsFunction f := by
    by_contra hn
    exact hneeded ⟨hf, hn⟩
  rw [h.instructionsOf_eq (ho.not_orphaned hneeded)] at hv
  obtain ⟨callee, hcallee, hremoved⟩ := callsRemoved_iff.mp hcalls
  rw [callee?_of_kindOf (h.kindOf v)] at hcallee
  obtain ⟨args, hi⟩ := callee?_eq_some.mp hcallee
  rw [h.isRemoved, Bool.or_eq_true, decide_eq_true_eq] at hremoved
  obtain hremoved | hunneeded := hremoved
  · exact ⟨callsRemoved_iff.mpr ⟨callee, hcallee, hremoved⟩, f, hf, hv⟩
  · exact (hunneeded.2 (hneeded.called hv hi)).elim

/-- No pass leads a call astray, whether it succeeds or fails. -/
theorem Healthy.pass_guards (h : m.Healthy) (p : Pass) :
    Ends p.run m (fun _ m' => ∀ v, m'.Astray v → m.Astray v)
      fun m' => ∀ v, m'.Astray v → m.Astray v := by
  have guards {step : Edit Bool} (hc : Ends step m (fun _ => Changed m) (Changed m))
      (hm : Stays SameMarks step) (hn : Stays Narrowed step) :
      Ends step m (fun _ m' => ∀ v, m'.Astray v → m.Astray v)
        fun m' => ∀ v, m'.Astray v → m.Astray v := by
    have back {m' : Module} (hc : Changed m m') (hm : m.SameMarks m') (hn : m.Narrowed m')
        (v : ValueId) (hv : m'.Astray v) : m.Astray v :=
      hv.of_within hc hm h.ordered (hn h.ordered).1 (hn h.ordered).2
    refine (hc.and ((hm m).and (hn m))).mono (fun _ m' h' => ?_) fun m' h' => ?_
    · exact back h'.1 h'.2.1 h'.2.2
    · exact back h'.1 h'.2.1 h'.2.2
  have framed := sameMarks_nameless.toFramed
  have hc := h.pass_changes p
  cases p with
  | globalDce =>
    exact (ends_removeUnneeded h.sound h.ordered h.grounded h.listsGlobals).mono
      (fun _ m' hp v hv => Pared.guards hp h.ordered hv) nofun
  | dce =>
    exact guards hc (eraseDead_stays (eraseInstruction_framed framed))
      (eraseDead_stays eraseInstruction_narrowed)
  | unreachableBlockElim =>
    exact guards hc
      (removeUnreachable_stays (removeIncoming_framed framed) (removeBlock_framed framed))
      (removeUnreachable_stays removeIncoming_narrowed removeBlock_narrowed)
  | constProp =>
    exact guards hc
      (foldConstants_stays (constWord_framed framed) replaceAllUses_sameMarks
        (eraseInstruction_framed framed))
      (foldConstants_stays constWord_narrowed replaceAllUses_narrowed eraseInstruction_narrowed)

end Module

/-! ### Calls -/

theorem SymbolCall.run_sameMarks {c : SymbolCall} (hr : ∀ f, c ≠ .removeFunction f) :
    Stays SameMarks c.run := SymbolCall.run_nameless sameMarks_nameless hr

theorem LayoutCall.run_sameMarks (c : LayoutCall) : Stays SameMarks c.run := by
  cases c with
  | replaceAllUses old new => exact (replaceAllUses_sameMarks old new).map _
  | _ => exact LayoutCall.run_framed sameMarks_nameless.toFramed (by simp)

namespace Call

/-- The instruction that a call links again, and the block that it comes to. -/
def relinked? (m : Module) : Call → Option (BlockId × ValueId)
  | layout (.appendInstruction b v) => some (b, v)
  | layout (.insertInstructionBefore anchor v) => (m.blockOf? anchor).map (·, v)
  | _ => none

/-- A call links a detached call of a removed function into a live function. -/
def Revives (m : Module) (v : ValueId) (c : Call) : Prop :=
  m.callsRemoved v ∧ m.blockOf? v = none ∧
    ∃ b f, c.relinked? m = some (b, v) ∧ m.functionOf? b = some f ∧ m.isRemoved f = false

end Call

namespace Builder

variable {s s' : Builder} {c : Call} {v w : ValueId}

theorem Emitted.sameMarks (he : Emitted s v s') : s.module.SameMarks s'.module := by
  obtain ⟨-, m, p, type, i, hm, -, -, -, -, -, -, rfl, hmodule⟩ := he
  rw [hmodule]
  exact hm.sameMarks

/-- No call but the removal of a function marks one. -/
theorem perform_sameMarks (hs : s.Sane) (hv : c.Valid s.module)
    (hr : ∀ f, c ≠ .symbol (.removeFunction f)) :
    Ends c.perform s (fun _ s' => s.module.SameMarks s'.module)
      fun s' => s.module.SameMarks s'.module := by
  have edit {α : Type} {step : Edit α} (h : Stays SameMarks step) :
      Ends (onModule step) s (fun _ s' => s.module.SameMarks s'.module)
        fun s' => s.module.SameMarks s'.module := by
    rw [ends_onModule]
    exact h s.module
  have same : s.module.SameMarks s.module := fun _ => rfl
  cases c with
  | types c => exact edit (onTypes_framed sameMarks_nameless.toFramed _)
  | constant c =>
    simp only [Call.perform, ends_map, ends_onModule]
    exact (ConstantCall.run_prepared hs.sound.types.indexed hv.1 hv.2).mono
      (fun _ _ hp => Prepared.sameMarks hp)
      fun _ hp => Prepared.sameMarks hp
  | symbol c => exact edit (SymbolCall.run_sameMarks fun f he => hr f (he ▸ rfl))
  | layout c => exact edit c.run_sameMarks
  | setCursor p =>
    simp only [Call.perform, ends_map, Builder.setCursor, ends_modify]
    exact same
  | atInstruction v =>
    simp only [Call.perform, ends_map, Builder.atInstruction, ends_bind, ends_readModule]
    split <;> exact same
  | emission e =>
    simp only [Call.perform, ends_map]
    refine (emission_emits hs.sound hs.ordered hv).mono (fun v s' hv => ?_)
      fun _ hp => hp.2.sameMarks
    obtain ⟨rfl, -⟩ | he := hv
    · exact fun _ => rfl
    · exact he.sameMarks

theorem ends_detached {v : ValueId} {m : Module} {next : PUnit → Edit Unit} :
    Ends (checkDetached v >>= next) m (fun _ _ => m.values.Has v ∧ m.blockOf? v = none)
      fun _ => True := by
  rw [ends_bind]
  refine ends_checkDetached (fun hi hn => ?_) trivial
  exact Ends.of_forall (fun _ _ => ⟨has_of_isInstruction hi, hn⟩) fun _ => trivial

/-- A call that links an old instruction puts it, and no other one, in a block. -/
theorem perform_relinks (hs : s.Sane) (hv : c.Valid s.module) (hc : c.relinks) :
    Ends c.perform s (fun _ s' => ∃ o' b v, Follows s s' o' ∧
        (s.module.values.Has v ∧ s.module.blockOf? v = none) ∧
        c.relinked? s.module = some (b, v) ∧ o'.blocks = s.module.order.blocks ∧ v ∈ o'.code b ∧
        ∀ k w, w ∈ o'.code k → w ∈ s.module.order.code k ∨ w = v ∧ k = b)
      fun s' => Follows s s' s.module.order := by
  have hends := perform_reorders hs hv
  cases c with
  | layout c =>
    cases c with
    | appendInstruction b v =>
      have hdetached : Ends (Call.layout (.appendInstruction b v)).perform s
          (fun _ _ => s.module.values.Has v ∧ s.module.blockOf? v = none) fun _ => True := by
        simp only [Call.perform, LayoutCall.run, ends_onModule, ends_map]
        exact ends_detached
      refine (hends.and hdetached).mono (fun _ s' hr => ?_) fun _ hr => hr.1
      obtain ⟨⟨o', hf, hr⟩, hv⟩ := hr
      have hr : o' = _ := hr
      refine ⟨o', b, v, hf, hv, rfl, by rw [hr]; rfl, by simp [hr, Order.setCode], ?_⟩
      rw [hr]
      exact fun k w => Order.mem_code_setCode fun w hw => by simpa using hw
    | insertInstructionBefore anchor v =>
      have hdetached : Ends (Call.layout (.insertInstructionBefore anchor v)).perform s
          (fun _ _ => s.module.values.Has v ∧ s.module.blockOf? v = none) fun _ => True := by
        simp only [Call.perform, LayoutCall.run, ends_onModule, ends_map]
        exact ends_detached
      refine (hends.and hdetached).mono (fun _ s' hr => ?_) fun _ hr => hr.1
      obtain ⟨⟨o', hf, b, xs, ys, hl, hr⟩, hv⟩ := hr
      have hblock : s.module.blockOf? anchor = some b :=
        hs.ordered.blockOf?_eq_some.mpr (by simp [hl])
      refine ⟨o', b, v, hf, hv, by simp [Call.relinked?, hblock], by rw [hr]; rfl,
        by simp [hr, Order.setCode], ?_⟩
      rw [hr]
      refine fun k w => Order.mem_code_setCode fun w hw => ?_
      rw [hl]
      simp only [List.mem_append, List.mem_cons] at hw ⊢
      tauto
    | _ => cases hc
  | _ => cases hc

/-- An emission leads no call astray, since it refuses a callee that is removed. -/
theorem emission_guards {e : Emission} (hs : s.Sane) (hv : e.Valid s.module) :
    Ends e.emit s (fun _ s' => ∀ v, s'.module.Astray v → s.module.Astray v)
      fun s' => ∀ v, s'.module.Astray v → s.module.Astray v := by
  have ho := hs.ordered
  refine (emission_legal hs hv).mono (fun w s' h v hastray => ?_) fun s' hp v hastray => ?_
  · obtain ⟨rfl, -⟩ | ⟨he, i, hi, -, haccepts⟩ := h
    · exact hastray
    · obtain ⟨hc, o', ho', hplaces⟩ := he.reorders hs.cursor ho
      obtain ⟨hblocks, p, -, hcode⟩ := hplaces.lists ho
      obtain hold | ⟨-, hcalls, -⟩ := hastray.of_placed hc he.sameMarks ho ho' hblocks hcode
      · exact hold
      · obtain ⟨callee, hcallee, hremoved⟩ := callsRemoved_iff.mp hcalls
        obtain ⟨args, hcall⟩ := callee?_eq_some.mp hcallee
        obtain rfl := Option.some_inj.mp (hi.symm.trans hcall)
        simp [haccepts.1] at hremoved
  · have hq := hp.2.quieted
    exact hastray.of_within (Quieted.changed hq) hp.2.sameMarks ho (Quieted.ordered hq ho) (.refl _)

/-- A call leads no call astray but the one that it revives. -/
theorem Sturdy.call_guards (hs : s.Sturdy) (hv : c.Valid s.module) :
    Ends c.perform s
      (fun _ s' => ∀ v, s'.module.Astray v → s.module.Astray v ∨ c.Revives s.module v)
      fun s' => ∀ v, s'.module.Astray v → s.module.Astray v ∨ c.Revives s.module v := by
  have hsane : s.Sane := ⟨hs.healthy.sound, hs.healthy.ordered, hs.cursor⟩
  have ho := hsane.ordered
  by_cases hr : ∃ f, c = .symbol (.removeFunction f)
  · obtain ⟨f, rfl⟩ := hr
    simp only [Call.perform, SymbolCall.run, ends_onModule, ends_map]
    have hf : s.module.HasFunction f := hv.2.2 f (by simp [SymbolCall.functions])
    exact (removeFunction_guards ho hf).mono (fun _ _ h v hv => .inl (h v hv))
      fun _ h v hv => .inl (h v hv)
  have hmarks := perform_sameMarks hsane hv fun f he => hr ⟨f, he⟩
  have back {s' : Builder} {o' : Order} (hf : Follows s s' o')
      (hm : s.module.SameMarks s'.module) (hw : o'.Within s.module.order) (v : ValueId)
      (hv : s'.module.Astray v) : s.module.Astray v ∨ c.Revives s.module v :=
    .inl (hv.of_within hf.changed hm ho hf.ordered hw)
  by_cases hrelinks : c.relinks
  · refine ((perform_relinks hsane hv hrelinks).and hmarks).mono (fun _ s' hr v hastray => ?_)
      fun s' hr => back hr.1 hr.2 (.refl _)
    obtain ⟨⟨o', b, w, hf, ⟨hw, hfree⟩, hplace, hblocks, -, hcode⟩, hm⟩ := hr
    refine (hastray.of_placed hf.changed hm ho hf.ordered hblocks hcode).imp_right ?_
    rintro ⟨rfl, hcalls, f, hb, hlive⟩
    rw [hm.callsRemoved_eq hf.changed hw] at hcalls
    exact ⟨hcalls, hfree, b, f, hplace, ho.functionOf?_eq_some.mpr hb, hlive⟩
  by_cases he : ∃ e, c = .emission e
  · obtain ⟨e, rfl⟩ := he
    simp only [Call.perform, ends_map]
    exact (emission_guards hsane hv).mono (fun _ _ h v hv => .inl (h v hv))
      fun _ h v hv => .inl (h v hv)
  · refine ((perform_within hsane hv (by simpa using hrelinks) fun e hce => he ⟨e, hce⟩).and
      hmarks).mono (fun _ s' hr => ?_) fun s' hr => back hr.1 hr.2 (.refl _)
    obtain ⟨⟨o', hf, hw⟩, hm⟩ := hr
    exact back hf hm hw

/-- A call that revives one succeeds, and leaves it astray. -/
theorem Sturdy.call_revives (hs : s.Sturdy) (hv : c.Valid s.module) (hc : c.Revives s.module v) :
    Ends c.perform s (fun _ s' => s'.module.Astray v) fun _ => False := by
  have hsane : s.Sane := ⟨hs.healthy.sound, hs.healthy.ordered, hs.cursor⟩
  have ho := hsane.ordered
  obtain ⟨hcalls, hfree, b, f, hrelinked, hb, hlive⟩ := hc
  obtain ⟨callee, hcallee, -⟩ := callsRemoved_iff.mp hcalls
  obtain ⟨args, hcall⟩ := callee?_eq_some.mp hcallee
  have hi : s.module.isInstruction v := by simp [isInstruction, hcall]
  have hrelinks : c.relinks ∧ Ends c.perform s (fun _ _ => True) fun _ => False := by
    cases c with
    | layout c =>
      cases c with
      | appendInstruction k w =>
        obtain ⟨rfl, rfl⟩ : k = b ∧ w = v := by simpa [Call.relinked?] using hrelinked
        refine ⟨rfl, ?_⟩
        simp only [Call.perform, ends_onModule]
        exact LayoutCall.run_succeeds ho ⟨hi, hfree⟩
      | insertInstructionBefore anchor w =>
        obtain ⟨hanchor, rfl⟩ : s.module.blockOf? anchor = some b ∧ w = v := by
          simpa [Call.relinked?] using hrelinked
        refine ⟨rfl, ?_⟩
        simp only [Call.perform, ends_onModule]
        exact LayoutCall.run_succeeds ho ⟨hi, hfree, by simp [hanchor]⟩
      | _ => simp [Call.relinked?] at hrelinked
    | _ => simp [Call.relinked?] at hrelinked
  obtain ⟨hrelinks, hsucceeds⟩ := hrelinks
  have hmarks := perform_sameMarks hsane hv fun f he => by simp [he, Call.relinks] at hrelinks
  refine ((perform_relinks hsane hv hrelinks).and (hmarks.and hsucceeds)).mono
    (fun _ s' hr => ?_) fun _ hr => hr.2.2
  obtain ⟨⟨o', k, w, hf, ⟨hw, -⟩, hplace, hblocks, hin, -⟩, hm, -⟩ := hr
  obtain ⟨rfl, rfl⟩ : k = b ∧ w = v := by simpa using hplace.symm.trans hrelinked
  have hf' : f ∈ s'.module.liveFunctions := Module.mem_liveFunctions.mpr
    ⟨hf.changed.extends.functions f (ho.hasFunction_of_mem (ho.functionOf?_eq_some.mp hb)) |>.1,
      (hm f).trans hlive⟩
  refine ⟨(hm.callsRemoved_eq hf.changed hw).trans hcalls, f, hf', ?_⟩
  exact hf.ordered.mem_instructionsOf.mpr ⟨k, by rw [hblocks]; exact ho.functionOf?_eq_some.mp hb, hin⟩

end Builder

/-! ### Histories -/

/-- One call or one pass. -/
inductive Action where
  | call (c : Call)
  | pass (p : Pass)

namespace Action

def run : Action → Builder → Builder
  | call c, s => (c.perform.outcome s).2
  | pass p, s => s.pass p

/-- Every handle of the action is one of the module. -/
def Valid (m : Module) : Action → Prop
  | call c => c.Valid m
  | pass _ => True

instance (m : Module) : (a : Action) → Decidable (a.Valid m)
  | call c => inferInstanceAs (Decidable (c.Valid m))
  | pass _ => .isTrue trivial

/-- The action links no detached call of a removed function into a live function. -/
def Spares (m : Module) : Action → Prop
  | call c => ∀ v, ¬ c.Revives m v
  | pass _ => True

instance (m : Module) : (a : Action) → Decidable (a.Spares m)
  | call c => decidable_of_iff (∀ p ∈ c.relinked? m, m.callsRemoved p.2 → m.blockOf? p.2 = none →
      ∀ f ∈ m.functionOf? p.1, m.isRemoved f = true) ⟨fun h v ⟨hcalls, hfree, b, f, hp, hb, hf⟩ => by
        simp [h (b, v) hp hcalls hfree f hb] at hf, fun h p hp hcalls hfree f hb => by
        by_contra hf
        exact h p.2 ⟨hcalls, hfree, p.1, f, hp, hb, by simpa using hf⟩⟩
  | pass _ => .isTrue trivial

end Action

namespace Builder

variable {s t : Builder} {a : Action} {actions done : List Action} {name : String}

/-- The state after some actions, successful or not. -/
def after (s : Builder) (actions : List Action) : Builder := actions.foldl (fun s a => a.run s) s

/-- Every one of the actions is valid when its turn comes. -/
def Allows (s : Builder) : List Action → Prop
  | [] => True
  | a :: actions => a.Valid s.module ∧ Allows (a.run s) actions

instance decidableAllows : (s : Builder) → (actions : List Action) → Decidable (s.Allows actions)
  | _, [] => .isTrue trivial
  | s, a :: actions => @instDecidableAnd _ _ _ (decidableAllows (a.run s) actions)

@[simp] theorem after_nil : s.after [] = s := rfl

@[simp] theorem after_concat : s.after (actions ++ [a]) = a.run (s.after actions) := by
  simp [after]

@[simp] theorem allows_concat :
    s.Allows (actions ++ [a]) ↔ s.Allows actions ∧ a.Valid (s.after actions).module := by
  induction actions generalizing s with
  | nil => simp [Allows]
  | cons b actions ih => exact (and_congr_right' ih).trans and_assoc.symm

theorem Allows.of_prefix (h : s.Allows actions) (hdone : done <+: actions) : s.Allows done := by
  obtain ⟨rest, rfl⟩ := hdone
  induction rest using List.reverseRecOn with
  | nil => simpa using h
  | append_singleton rest a ih =>
    rw [← List.append_assoc, allows_concat] at h
    exact ih h.1

theorem advances_iff : s.Advances t ↔ ∃ a : Action, a.Valid s.module ∧ t = a.run s := by
  constructor
  · rintro (⟨c, hc, ht⟩ | ⟨p, ht⟩)
    · exact ⟨.call c, hc, ht⟩
    · exact ⟨.pass p, trivial, ht⟩
  · rintro ⟨c | p, hc, ht⟩
    · exact .inl ⟨c, hc, ht⟩
    · exact .inr ⟨p, ht⟩

/-- The states that calls and passes lead to are those with a history. -/
theorem attained_iff : t.Attained ↔
    ∃ name actions, Builder.Allows { module := { name } } actions ∧
      t = Builder.after { module := { name } } actions := by
  constructor
  · rintro ⟨name, h⟩
    refine ⟨name, ?_⟩
    induction h with
    | refl => exact ⟨[], trivial, rfl⟩
    | tail _ hstep ih =>
      obtain ⟨actions, hactions, rfl⟩ := ih
      obtain ⟨a, ha, rfl⟩ := advances_iff.mp hstep
      exact ⟨actions ++ [a], allows_concat.mpr ⟨hactions, ha⟩, after_concat.symm⟩
  · rintro ⟨name, actions, hactions, rfl⟩
    refine ⟨name, ?_⟩
    induction actions using List.reverseRecOn with
    | nil => exact .refl
    | append_singleton actions a ih =>
      obtain ⟨hactions, ha⟩ := allows_concat.mp hactions
      exact (ih hactions).tail (advances_iff.mpr ⟨a, ha, after_concat⟩)

theorem Allows.sturdy (h : Builder.Allows { module := { name } } actions) :
    (Builder.after { module := { name } } actions).Sturdy :=
  (attained_iff.mpr ⟨name, actions, h, rfl⟩).sturdy

/-- An action keeps the rule if and only if it revives no call. -/
theorem Sturdy.guarded_run_iff (hs : s.Sturdy) (ha : a.Valid s.module) (hg : s.module.Guarded) :
    (a.run s).module.Guarded ↔ a.Spares s.module := by
  cases a with
  | call c =>
    constructor
    · intro hguarded v hrevives
      have hastray : (c.perform.outcome s).2.module.Astray v :=
        ((hs.call_revives ha hrevives).mono (fun _ _ h => h) fun _ h => h.elim).state
      exact hguarded v hastray
    · intro hspares v hastray
      exact ((hs.call_guards ha).state v hastray).elim (hg v) (hspares v)
  | pass p =>
    have hguarded : (s.pass p).module.Guarded := fun v hv =>
      hg v ((hs.healthy.pass_guards p).state v hv)
    exact iff_of_true hguarded trivial

theorem guarded_empty (name : String) : Module.Guarded { name } := by
  rintro v ⟨-, f, hf, -⟩
  cases hf

/-- Whatever calls and passes are made in any order, with any failures: no linked instruction of a
live function ever calls a removed function, if and only if no detached call of a removed function
is ever linked into a live function again. -/
theorem Allows.guarded_iff (h : Builder.Allows { module := { name } } actions) :
    (∀ done, done <+: actions → (Builder.after { module := { name } } done).module.Guarded) ↔
      ∀ done a, done ++ [a] <+: actions →
        a.Spares (Builder.after { module := { name } } done).module := by
  constructor
  · intro hguarded done a hdone
    have hbefore := hguarded done ((List.prefix_append done _).trans hdone)
    have hafter := hguarded _ hdone
    obtain ⟨hd, ha⟩ := allows_concat.mp (h.of_prefix hdone)
    rw [after_concat] at hafter
    exact (hd.sturdy.guarded_run_iff ha hbefore).mp hafter
  · intro hspares done hdone
    induction done using List.reverseRecOn with
    | nil => exact guarded_empty name
    | append_singleton done a ih =>
      have hbefore := ih ((List.prefix_append done _).trans hdone)
      obtain ⟨hd, ha⟩ := allows_concat.mp (h.of_prefix hdone)
      rw [after_concat]
      exact (hd.sturdy.guarded_run_iff ha hbefore).mpr (hspares done a hdone)

end Builder

/-- A history with a call that is detached and linked again while its callee cannot be removed, and
detached for good before its callee is. -/
def guarding : List Action :=
  [.call (.types (.ofType (.int 32))),
    .call (.symbol (.declareFunction "helper" ⟨0⟩ [] false)),
    .call (.symbol (.declareFunction "main" ⟨0⟩ [] false)),
    .call (.layout (.appendBlock ⟨1⟩ "entry")),
    .call (.setCursor (some { block := ⟨0⟩ })),
    .call (.emission (.call ⟨0⟩ [])),
    .call (.symbol (.removeFunction ⟨0⟩)),
    .call (.layout (.detachInstruction ⟨0⟩)),
    .call (.layout (.appendInstruction ⟨0⟩ ⟨0⟩)),
    .call (.emission (.ret ⟨0⟩)),
    .pass .globalDce,
    .call (.layout (.detachInstruction ⟨0⟩)),
    .call (.symbol (.removeFunction ⟨0⟩)),
    .call (.emission (.call ⟨0⟩ [])),
    .pass .constProp]

theorem guarding_spares : ∀ done ∈ guarding.inits, ∀ a ∈ done.getLast?,
    a.Spares (Builder.after { module := { name := "guarding" } } done.dropLast).module := by
  decide +kernel

/-- The rule holds at every point of that history, at whose end the callee of a detached call is
removed. -/
theorem guarding_guarded :
    Builder.Allows { module := { name := "guarding" } } guarding ∧
      (∀ done, done <+: guarding →
        (Builder.after { module := { name := "guarding" } } done).module.Guarded) ∧
      (Builder.after { module := { name := "guarding" } } guarding).module.callsRemoved ⟨0⟩ := by
  have hallows : Builder.Allows { module := { name := "guarding" } } guarding := by decide +kernel
  refine ⟨hallows, (Builder.Allows.guarded_iff hallows).mpr fun done a hdone => ?_,
    by decide +kernel⟩
  simpa using guarding_spares (done ++ [a]) ((List.mem_inits _ _).mpr hdone) a (by simp)

/-- A program that detaches a call, removes its callee, and links the call again. -/
def reviving : List Call :=
  [.types (.ofType (.int 32)),
    .symbol (.declareFunction "helper" ⟨0⟩ [] false),
    .symbol (.declareFunction "main" ⟨0⟩ [] false),
    .layout (.appendBlock ⟨1⟩ "entry"),
    .setCursor (some { block := ⟨0⟩ }),
    .emission (.call ⟨0⟩ []),
    .layout (.detachInstruction ⟨0⟩),
    .symbol (.removeFunction ⟨0⟩),
    .layout (.appendInstruction ⟨0⟩ ⟨0⟩),
    .emission (.ret ⟨0⟩)]

/-- The builder after those calls. -/
def revived : Builder := Builder.replay { module := { name := "reviving" } } reviving

/-- The check that is made when a call is emitted is not made when it is linked again. -/
theorem revived_unguarded : revived.module.Reachable ∧ ¬ revived.module.Guarded := by
  have hastray : revived.module.callsRemoved ⟨0⟩ ∧
      ∃ f ∈ revived.module.liveFunctions, ⟨0⟩ ∈ revived.module.instructionsOf f := by
    decide +kernel
  have hreachable : revived.Reachable :=
    Builder.Replays.reachable (by decide +kernel) (Builder.reachable_empty "reviving")
  exact ⟨hreachable.module, fun hguarded => hguarded ⟨0⟩ hastray⟩

end SsaKit
