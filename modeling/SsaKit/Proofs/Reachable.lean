import SsaKit.Proofs.Call

/-! What every call does to a sane builder, and what therefore holds of every reachable one. -/
namespace SsaKit

open Attempt SsaKit.Module

variable {m : Module} {o o' : Order}

theorem TypeCall.run_grown {c : TypeCall} {t : TypeTable} (hi : t.Indexed)
    (hc : ∀ id ∈ c.types, t.contains id) :
    Ends c.run t (fun _ => t.Grown) t.Grown := by
  cases c with
  | ofType ty =>
    simp only [TypeCall.run, ends_map]
    exact TypeTable.ends_ofTy hi hc (fun _ _ hg _ => hg) .refl
  | declareStruct name =>
    simp only [TypeCall.run, ends_map]
    exact TypeTable.ends_declareStruct (fun _ _ hg _ => hg) .refl
  | namedStruct name fields isPacked =>
    simp only [TypeCall.run, ends_map]
    exact TypeTable.ends_namedStruct (fun _ _ hg _ => hg) fun _ hg => hg
  | setBody id fields isPacked =>
    simp only [TypeCall.run, ends_map]
    exact TypeTable.ends_setBody (fun _ hg => hg) .refl

theorem ConstantCall.run_prepared {c : ConstantCall} (hi : m.types.Indexed)
    (ht : ∀ id ∈ c.types, m.types.contains id) (hv : ∀ v ∈ c.values, m.values.Has v) :
    Ends c.run m (fun _ => Prepared m) (Prepared m) := by
  cases c with
  | integer type word => exact ends_constWord (fun _ _ hp _ _ => hp) .refl
  | bool b => exact ends_constBool hi fun _ _ hp _ => hp
  | float type number => exact ends_constFloat (fun _ _ hp _ _ => hp) .refl
  | null type => exact ends_constNull (fun _ _ hp _ => hp) .refl
  | undef type => exact ends_undef (fun _ _ hp _ => hp) .refl
  | array element elements => exact ends_constArray hi hv (fun _ _ hp _ => hp) fun _ hp => hp
  | vector type elements => exact ends_constVector hv (fun _ _ hp _ => hp) .refl
  | struct elements isPacked => exact ends_constStruct hi hv (fun _ _ hp _ => hp) .refl
  | namedStruct type elements => exact ends_constNamedStruct hv (fun _ _ hp _ => hp) .refl
  | string text isTerminated => exact ends_constString hi (fun _ _ hp _ => hp) fun _ hp => hp

/-- What a change of globals or functions does to the order. -/
def SymbolCall.Reorders (m : Module) (o o' : Order) : SymbolCall → Prop
  | removeFunction f => if m.isRemoved f then o' = o else o.RemovesBlocks o' f
  | _ => o' = o

theorem SymbolCall.run_reorders {c : SymbolCall} (h : m.Sound) (ho : m.Ordered o)
    (ht : ∀ id ∈ c.types, m.types.contains id) (hv : ∀ v ∈ c.values, m.values.Has v)
    (hf : ∀ f ∈ c.functions, m.HasFunction f) :
    Module.Reorders c.run m o fun _ o' => c.Reorders m o o' := by
  unfold Module.Reorders
  cases c with
  | removeFunction f =>
    simp only [SymbolCall.run, ends_map]
    exact removeFunction_reorders ho f
  | addGlobal valueType name =>
    have hq : Quietly (Module.addGlobal valueType name) m :=
      ends_addGlobal h.types.indexed (fun _ _ hq => hq) fun _ hq => hq
    simp only [SymbolCall.run, ends_map]
    exact hq.reorders ho
  | setName v text =>
    simp only [SymbolCall.run, ends_map]
    exact (setName_quietly v text).reorders ho
  | setInitializer v init =>
    simp only [SymbolCall.run, ends_map]
    exact (setInitializer_quietly h (hv init (by simp [SymbolCall.values]))).reorders ho
  | setGlobalLinkage v linkage =>
    simp only [SymbolCall.run, ends_map]
    exact (setGlobalLinkage_quietly h linkage).reorders ho
  | setGlobalConstant v isConstant =>
    simp only [SymbolCall.run, ends_map]
    exact (setGlobalConstant_quietly h isConstant).reorders ho
  | removeGlobal v =>
    simp only [SymbolCall.run, ends_map]
    exact (removeGlobal_quietly v).reorders ho
  | globalString name text =>
    simp only [SymbolCall.run, ends_map]
    exact (globalString_quietly h name text).reorders ho
  | addFunction name type =>
    simp only [SymbolCall.run, ends_map]
    exact (addFunction_quietly h name type).reorders ho
  | declareFunction name result params isVariadic =>
    simp only [SymbolCall.run, ends_map]
    exact (declareFunction_quietly h name params isVariadic
      (ht result (by simp [SymbolCall.types]))).reorders ho
  | setParamNames f names =>
    simp only [SymbolCall.run, ends_map]
    exact (setParamNames_quietly (h.functions f (hf f (by simp [SymbolCall.functions])))
      names).reorders ho
  | setLinkage f linkage =>
    simp only [SymbolCall.run, ends_map]
    exact (setLinkage_quietly f linkage).reorders ho

/-- What a change of the layout or of operands does to the order. -/
def LayoutCall.Reorders (o o' : Order) : LayoutCall → Reply → Prop
  | appendBlock f _, .block (some b) => o.AppendsBlock o' f b
  | insertBlockBefore anchor _, .block (some b) => o.InsertsBlock o' anchor b
  | insertBlockBefore anchor _, .block none => (∀ f, anchor ∉ o.blocks f) ∧ o' = o
  | removeBlock b, _ => o.RemovesBlock o' b
  | appendInstruction b v, _ => o.AppendsCode o' b v
  | insertInstructionBefore anchor v, _ => o.InsertsCode o' anchor v
  | detachInstruction v, _ | eraseInstruction v, _ => o.DropsCode o' v
  | setBlockName _ _, _ | replaceAllUses _ _, _ | addIncoming _ _ _, _ | removeIncoming _ _, _ =>
    o' = o
  | _, _ => False

/-- Requests for a new layout that cannot be refused. -/
def LayoutCall.Admits (m : Module) : LayoutCall → Prop
  | appendBlock _ _ | insertBlockBefore _ _ | setBlockName _ _ | removeBlock _
  | detachInstruction _ => True
  | appendInstruction _ v => m.isInstruction v ∧ m.blockOf? v = none
  | insertInstructionBefore anchor v =>
    m.isInstruction v ∧ m.blockOf? v = none ∧ (m.blockOf? anchor).isSome
  | eraseInstruction v => m.users v = []
  | replaceAllUses _ _ | addIncoming _ _ _ | removeIncoming _ _ => False

theorem ends_checkDetached_of {v : ValueId} {ok : Unit → Module → Prop} {failed : Module → Prop}
    (hi : m.isInstruction v) (hn : m.blockOf? v = none) (h : ok () m) :
    Ends (checkDetached v) m ok failed := by
  unfold checkDetached
  simpa [hi, hn] using h

theorem LayoutCall.run_succeeds {c : LayoutCall} (ho : m.Ordered o) (hc : c.Admits m) :
    Ends c.run m (fun _ _ => True) fun _ => False := by
  cases c with
  | appendBlock f name =>
    simp only [LayoutCall.run, ends_map]
    trivial
  | insertBlockBefore anchor name =>
    simp only [LayoutCall.run, ends_map]
    unfold Module.insertBlockBefore
    simp only [ends_bind, ends_get]
    split <;> trivial
  | setBlockName b name =>
    simp only [LayoutCall.run, ends_map]
    trivial
  | removeBlock b =>
    simp only [LayoutCall.run, ends_map]
    exact ends_removeBlock ho fun _ _ _ _ _ => trivial
  | detachInstruction v =>
    simp only [LayoutCall.run, ends_map]
    exact ends_detachInstruction ho fun _ _ _ _ _ => trivial
  | appendInstruction b v =>
    simp only [LayoutCall.run, ends_map]
    unfold Module.appendInstruction
    rw [ends_bind]
    exact ends_checkDetached_of hc.1 hc.2 trivial
  | insertInstructionBefore anchor v =>
    obtain ⟨hi, hn, ha⟩ := hc
    obtain ⟨b, hb⟩ := Option.isSome_iff_exists.mp ha
    simp only [LayoutCall.run, ends_map]
    unfold Module.insertInstructionBefore
    rw [ends_bind]
    refine ends_checkDetached_of hi hn ?_
    simp only [ends_bind, ends_get, hb]
    trivial
  | eraseInstruction v =>
    have hc : m.users v = [] := hc
    simp only [LayoutCall.run, ends_map]
    unfold Module.eraseInstruction
    simp only [ends_bind, ends_get, hc, List.head?_nil]
    exact ends_detachInstruction ho fun _ _ _ _ _ => trivial
  | replaceAllUses old new | addIncoming v b incoming | removeIncoming v b => exact hc.elim

theorem LayoutCall.run_reorders {c : LayoutCall} (ho : m.Ordered o)
    (hv : ∀ v ∈ c.values, m.values.Has v) (hb : ∀ b ∈ c.blocks, m.blocks.Has b)
    (hf : ∀ f ∈ c.functions, m.HasFunction f) :
    Module.Reorders c.run m o fun r o' => c.Reorders o o' r := by
  unfold Module.Reorders
  cases c with
  | appendBlock f name =>
    simp only [LayoutCall.run, ends_map]
    exact appendBlock_reorders ho (hf f (by simp [LayoutCall.functions])) name
  | insertBlockBefore anchor name =>
    simp only [LayoutCall.run, ends_map]
    refine (insertBlockBefore_reorders ho name).mono (fun r m' hr => ?_) fun _ hr => hr
    cases r <;> exact hr
  | setBlockName b name =>
    simp only [LayoutCall.run, ends_map]
    exact (setBlockName_quietly b name).reorders ho
  | removeBlock b =>
    simp only [LayoutCall.run, ends_map]
    exact removeBlock_reorders ho b
  | appendInstruction b v =>
    simp only [LayoutCall.run, ends_map]
    exact appendInstruction_reorders ho (hb b (by simp [LayoutCall.blocks]))
  | insertInstructionBefore anchor v =>
    simp only [LayoutCall.run, ends_map]
    exact insertInstructionBefore_reorders ho
  | detachInstruction v =>
    simp only [LayoutCall.run, ends_map]
    exact detachInstruction_reorders ho v
  | eraseInstruction v =>
    simp only [LayoutCall.run, ends_map]
    exact eraseInstruction_reorders ho v
  | replaceAllUses old new =>
    simp only [LayoutCall.run, ends_map]
    exact (replaceAllUses_quietly (hv old (by simp [LayoutCall.values]))
      (hv new (by simp [LayoutCall.values]))).reorders ho
  | addIncoming v b incoming =>
    simp only [LayoutCall.run, ends_map]
    exact (addIncoming_quietly (hb b (by simp [LayoutCall.blocks]))
      (hv incoming (by simp [LayoutCall.values]))).reorders ho
  | removeIncoming v b =>
    simp only [LayoutCall.run, ends_map]
    exact (removeIncoming_quietly v b).reorders ho

/-! ### Emissions -/

namespace Builder

variable {s s' : Builder} {v : ValueId}

/-- A value that was just made, at the cursor. -/
def Places (s : Builder) (o o' : Order) (v : ValueId) : Prop :=
  ¬ s.module.values.Has v ∧ ∃ p, s.cursor = some p ∧ match p.before with
    | some anchor => anchor ∈ o.code p.block ∧ o.InsertsCode o' anchor v
    | none => o.AppendsCode o' p.block v

/-- The new instruction is fresh, linked at the cursor, and all else stays in its place. -/
theorem Emitted.reorders (he : Emitted s v s') (hb : ∀ p ∈ s.cursor, s.module.blocks.Has p.block)
    (ho : s.module.Ordered o) :
    Changed s.module s'.module ∧ ∃ o', s'.module.Ordered o' ∧ s.Places o o' v := by
  obtain ⟨hcur, m, p, type, i, hp, hc, ha, ht, hk, -, -, rfl, hm⟩ := he
  have hq : Quieted s.module (m.pushed type (.instruction i)) :=
    hp.quieted.tail (.instruction m type i ht hk)
  have hord := Quieted.ordered hq ho
  have hblock : (m.pushed type (.instruction i)).blocks.Has p.block :=
    hq.extends.blocks _ (hb p hc)
  have hnew := has_pushed_new m type (.instruction i)
  have hfree : (m.pushed type (.instruction i)).blockOf? ⟨m.values.size⟩ = none := by
    simp [blockOf?, Arena.parent?, pushed]
  have hinstr : (m.pushed type (.instruction i)).isInstruction ⟨m.values.size⟩ := by
    simp [isInstruction, instruction?, kindOf, value_pushed_new, ValueKind.instruction?]
  have hfresh : ¬ s.module.values.Has ⟨m.values.size⟩ :=
    fun hv => Nat.lt_irrefl _ (hp.extends.has hv)
  rw [hm]
  unfold linked
  cases hbefore : p.before with
  | none =>
    have hmove := Move.pushCode _ p.block ⟨m.values.size⟩ hblock hnew hfree hinstr
    refine ⟨(Quieted.changed hq).tail (.inr hmove), _, hord.pushCode hblock hnew hfree, hfresh, p, hc, ?_⟩
    simp [hbefore, Order.AppendsCode]
  | some anchor =>
    have hold := (Quieted.ordered hp.quieted ho).blockOf?_eq_some.mp (ha anchor (by simp [hbefore]))
    have hin := hord.blockOf?_eq_some.mpr hold
    have hmove := Move.insertCode _ p.block anchor ⟨m.values.size⟩ hin hnew hfree hinstr
    obtain ⟨xs, ys, hl⟩ := List.append_of_mem hold
    refine ⟨(Quieted.changed hq).tail (.inr hmove), _, hord.insertCode hnew hfree hl, hfresh, p, hc, ?_⟩
    simp only [hbefore]
    exact ⟨hold, p.block, xs, ys, hl, rfl⟩

end Builder

/-! ### Every call -/

/-- What a call that succeeds does to the order. -/
def Call.Reorders (s : Builder) (o o' : Order) : Call → Reply → Prop
  | symbol c, _ => c.Reorders s.module o o'
  | layout c, r => c.Reorders o o' r
  | emission e, .value v => if e.kept? = some v then o' = o else s.Places o o' v
  | types _, _ | constant _, _ | setCursor _, _ | atInstruction _, _ => o' = o
  | emission _, _ => False

namespace Builder

variable {s s' : Builder} {c : Call}

/-- A state that one call may lead to: the module changed, and its order as that call says. -/
structure Follows (s s' : Builder) (o' : Order) : Prop where
  changed : Changed s.module s'.module
  ordered : s'.module.Ordered o'
  cursor : ∀ p ∈ s'.cursor, s'.module.blocks.Has p.block

theorem Sane.follows {s' : Builder} (h : s.Sane) (hc : Changed s.module s'.module)
    (ho : s'.module.Ordered o') (hcur : s'.cursor = s.cursor) : Follows s s' o' :=
  ⟨hc, ho, fun p hp => hc.extends.blocks _ (h.cursor p (hcur ▸ hp))⟩

theorem perform_reorders (h : s.Sane) (hc : c.Valid s.module) :
    Ends c.perform s
      (fun r s' => ∃ o', Follows s s' o' ∧ c.Reorders s s.module.order o' r)
      fun s' => Follows s s' s.module.order := by
  have ho := h.ordered
  cases c with
  | types c =>
    have quiet {t : TypeTable} (hg : s.module.types.Grown t) :
        Follows s (s.withTypes t) s.module.order :=
      have hq := (prepared_withTypes hg).2.quieted
      h.follows (Quieted.changed hq) (Quieted.ordered hq ho) rfl
    change Ends (onTypes c.run) s _ _
    rw [ends_onTypes]
    refine (TypeCall.run_grown h.sound.types.indexed hc).mono (fun r t hg => ?_) fun t hg => ?_
    · exact ⟨_, quiet hg, rfl⟩
    · exact quiet hg
  | constant c =>
    have quiet {m : Module} (hp : Module.Prepared s.module m) :
        Follows s { s with module := m } s.module.order :=
      h.follows (Quieted.changed hp.quieted) (Quieted.ordered hp.quieted ho) rfl
    simp only [Call.perform, ends_map, ends_onModule]
    refine (ConstantCall.run_prepared h.sound.types.indexed hc.1 hc.2).mono (fun v m hp => ?_) fun m hp => ?_
    · exact ⟨_, quiet hp, rfl⟩
    · exact quiet hp
  | symbol c =>
    simp only [Call.perform, ends_onModule]
    refine (SymbolCall.run_reorders h.sound ho hc.1 hc.2.1 hc.2.2).mono
      (fun r m hr => ?_) fun m hr => ?_
    · obtain ⟨hm, o', ho', hspec⟩ := hr
      exact ⟨o', h.follows hm ho' rfl, hspec⟩
    · exact h.follows hr.1 hr.2 rfl
  | layout c =>
    simp only [Call.perform, ends_onModule]
    refine (LayoutCall.run_reorders ho hc.1 hc.2.1 hc.2.2).mono (fun r m hr => ?_) fun m hr => ?_
    · obtain ⟨hm, o', ho', hspec⟩ := hr
      exact ⟨o', h.follows hm ho' rfl, hspec⟩
    · exact h.follows hr.1 hr.2 rfl
  | setCursor p =>
    simp only [Call.perform, ends_map, Builder.setCursor, ends_modify]
    exact ⟨_, ⟨.refl, ho, fun q hq => (hc q hq).1⟩, rfl⟩
  | atInstruction v =>
    simp only [Call.perform, ends_map, Builder.atInstruction, ends_bind, ends_readModule]
    split
    · rename_i b hb
      refine ⟨_, ⟨.refl, ho, ?_⟩, rfl⟩
      rintro p ⟨⟩
      exact ho.has_of_mem (ho.blockOf?_eq_some.mp hb)
    · exact h.follows .refl ho rfl
  | emission e =>
    simp only [Call.perform, ends_map]
    refine (emission_emits h.sound ho hc).mono (fun v s' hv => ?_) fun s' hp => ?_
    · obtain ⟨rfl, hk⟩ | he := hv
      · exact ⟨_, h.follows .refl ho rfl, by simp [Call.Reorders, hk]⟩
      · obtain ⟨hm, o', ho', hplaces⟩ := he.reorders h.cursor ho
        refine ⟨o', h.follows hm ho' he.1, ?_⟩
        have hkept : e.kept? ≠ some v := fun hk => hplaces.1 (hc.values v (by
          cases e <;> simp_all [Emission.kept?, Emission.values]))
        simpa [Call.Reorders, hkept] using hplaces
    · have hq := hp.2.quieted
      exact h.follows (Quieted.changed hq) (Quieted.ordered hq ho) hp.1

theorem Follows.sane (h : s.Sane) (hf : Follows s s' o') : s'.Sane where
  sound := hf.changed.sound h.sound
  ordered := hf.ordered.order_eq.symm ▸ hf.ordered
  cursor := hf.cursor

/-- A call takes a sane builder to a sane one, whether it succeeds or fails. -/
theorem Sane.called (h : s.Sane) (hc : Called s s') : s'.Sane := by
  obtain ⟨c, hv, rfl⟩ := hc
  have hends : Ends c.perform s (fun _ => Sane) Sane :=
    (perform_reorders h hv).mono (fun _ _ ⟨_, hf, _⟩ => hf.sane h) fun _ hf => hf.sane h
  exact hends.state

theorem ordered_empty (name : String) :
    Module.Ordered { name } ⟨fun _ => [], fun _ => []⟩ where
  code :=
    { holds := fun _ => Chain.holds_empty
      parent := by simp [Arena.parent?] }
  blocks :=
    { holds := fun _ => Chain.holds_empty
      parent := by simp [Arena.parent?] }

theorem sane_empty (name : String) : Sane { module := { name } } where
  sound :=
    { types := TypeTable.wellFormed_empty
      values := by simp [Arena.Has]
      functions := by simp [HasFunction] }
  ordered := (ordered_empty name).order_eq.symm ▸ ordered_empty name
  cursor := by simp

theorem Reachable.sane (h : s.Reachable) : s.Sane := by
  obtain ⟨name, h⟩ := h
  induction h with
  | refl => exact sane_empty name
  | tail _ hc ih => exact ih.called hc

end Builder

theorem Module.Reachable.sound (h : m.Reachable) : m.Sound := by
  obtain ⟨cursor, h⟩ := h
  exact h.sane.sound

theorem Module.Reachable.ordered (h : m.Reachable) : m.Ordered m.order := by
  obtain ⟨cursor, h⟩ := h
  exact h.sane.ordered

/-- A program that scales its argument by the sum of two constants, over two blocks and a phi. -/
def scaling : List Call :=
  [.types (.ofType (.int 32)),
    .symbol (.declareFunction "scale" ⟨0⟩ [⟨0⟩] false),
    .layout (.appendBlock ⟨0⟩ "entry"),
    .layout (.appendBlock ⟨0⟩ "exit"),
    .constant (.integer ⟨0⟩ 2),
    .constant (.integer ⟨0⟩ 3),
    .setCursor (some { block := ⟨0⟩ }),
    .emission (.binary .add ⟨1⟩ ⟨2⟩),
    .emission (.br ⟨1⟩),
    .setCursor (some { block := ⟨1⟩ }),
    .emission (.phi ⟨0⟩ [(⟨0⟩, ⟨3⟩)]),
    .emission (.binary .mul ⟨5⟩ ⟨0⟩),
    .emission (.ret ⟨6⟩)]

/-- The builder after those calls. -/
def scaled : Builder := Builder.replay { module := { name := "scaling" } } scaling

theorem reachable_scaled : scaled.Reachable :=
  Builder.Replays.reachable (by decide +kernel) (Builder.reachable_empty "scaling")

end SsaKit
