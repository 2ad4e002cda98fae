import SsaKit.Proofs.Reachable

/-! Modules that are built without moving an instruction: every return fits its function. -/
namespace SsaKit

open Attempt SsaKit.Module

namespace Module

variable {m m' : Module} {o o' : Order} {v w : ValueId} {b : BlockId} {f : FunctionId}
  {type : Option TypeId}

/-- The type that a return hands back, none without a value. -/
def returned (m : Module) (v : ValueId) : Option (Option TypeId) :=
  match m.kindOf v with
  | .instruction (.ret value) => some (value.map m.typeOf)
  | _ => none

/-- A type fits the result of a function, none fits a function without one. -/
def ResultFits (m : Module) (f : FunctionId) : Option TypeId → Prop
  | some type => type = m.resultType f
  | none => m.types.contains (m.resultType f) ∧ m.types.entry (m.resultType f) = .void

theorem resultFits_map {r : Option ValueId} (h : m.ReturnFits f r) :
    m.ResultFits f (r.map m.typeOf) := by
  cases r <;> exact h

/-- Every return in a function fits it. -/
def Returns (m : Module) (o : Order) : Prop :=
  ∀ f b v, b ∈ o.blocks f → v ∈ o.code b → ∀ type, m.returned v = some type → m.ResultFits f type

/-! ### What a return hands back is kept -/

theorem returned_congr (hs : m.Sound) (hx : m.Extends m') (hv : m.values.Has v)
    (hk : m'.kindOf v = m.kindOf v) : m'.returned v = m.returned v := by
  unfold returned
  rw [hk]
  split
  · rename_i value hi
    have hfits := (hs.values v hv).2
    rw [hi] at hfits
    cases value with
    | none => rfl
    | some w => simp [hx.typeOf_eq (hfits.1 w (by simp [Instruction.operands]))]
  · rfl

theorem returned_other (h : ∀ value, m.kindOf v ≠ .instruction (.ret value)) :
    m.returned v = none := by
  unfold returned
  split
  · rename_i value hi
    exact (h value hi).elim
  · rfl

theorem returned_revalued {g : Value → Value} (hs : m.Sound) (hx : m.Extends (m.revalued w g))
    (hv : m.values.Has v) (hg : (g (m.value w)).kind = (m.value w).kind ∨
      ∀ value, m.kindOf w ≠ .instruction (.ret value) ∧
        (g (m.value w)).kind ≠ .instruction (.ret value)) :
    (m.revalued w g).returned v = m.returned v := by
  by_cases hw : m.values.Has w
  · by_cases hvw : v = w
    · subst hvw
      have hk : (m.revalued v g).kindOf v = (g (m.value v)).kind := by
        rw [kindOf, value_revalued hw, if_pos rfl]
      obtain hg | hg := hg
      · exact returned_congr hs hx hv (hk.trans hg)
      · have hold : m.returned v = none := returned_other fun value => (hg value).1
        have hnew : (m.revalued v g).returned v = none :=
          returned_other fun value => hk ▸ (hg value).2
        rw [hold, hnew]
    · refine returned_congr hs hx hv ?_
      rw [kindOf, value_revalued hw, if_neg hvw]
      rfl
  · rw [revalued_of_not_has hw]

theorem returned_replaced {old new : ValueId} (hs : m.Sound) (hx : m.Extends (m.replaced old new))
    (hv : m.values.Has v) (ht : m.typeOf old = m.typeOf new) :
    (m.replaced old new).returned v = m.returned v := by
  have hk : (m.replaced old new).kindOf v = (replaceIn old new (m.value v)).kind := by
    rw [kindOf, value_replaced]
  have htype : ∀ u, (m.replaced old new).typeOf u = m.typeOf u := fun u => by
    rw [typeOf, value_replaced, replaceIn_type]
    rfl
  have hstand : ∀ u, m.typeOf (if u = old then new else u) = m.typeOf u := by
    intro u
    split
    · rename_i he
      rw [he, ht]
    · rfl
  cases hm : m.kindOf v with
  | instruction i =>
    have hm' : (m.value v).kind = .instruction i := hm
    simp only [replaceIn, hm'] at hk
    cases i with
    | ret value =>
      unfold returned
      rw [hm, hk]
      cases value with
      | none => rfl
      | some u => simp [Instruction.mapOperands, htype, hstand]
    | _ =>
      have hold : m.returned v = none := returned_other fun value => by simp [hm]
      have hnew : (m.replaced old new).returned v = none :=
        returned_other fun value => by simp [hk, Instruction.mapOperands]
      rw [hold, hnew]
  | _ =>
    have hm' := hm
    unfold kindOf at hm'
    simp only [replaceIn, hm'] at hk
    exact returned_congr hs hx hv (hk.trans hm.symm)

theorem Quiet.returned (hq : Quiet m m') (hs : m.Sound) (hv : m.values.Has v) :
    m'.returned v = m.returned v := by
  have hx := hq.extends
  have pushed {type : TypeId} {kind : ValueKind} (hx : m.Extends (m.pushed type kind)) :
      (m.pushed type kind).returned v = m.returned v :=
    returned_congr hs hx hv (by rw [kindOf, value_pushed hv]; rfl)
  cases hq with
  | prepare _ hp =>
    cases hp with
    | types t _ => exact returned_congr hs hx hv rfl
    | constant type kind _ _ _ _ => exact pushed hx
  | instruction type i _ _ => exact pushed hx
  | addGlobal type valueType name _ _ _ =>
    have hnew : v ≠ ⟨m.values.size⟩ := fun he => by
      rw [he] at hv
      exact Nat.lt_irrefl _ hv
    refine returned_congr hs hx hv ?_
    change ((m.pushed type _).revalued ⟨m.values.size⟩ _).kindOf v = m.kindOf v
    rw [kindOf, value_revalued (has_pushed_new m type _), if_neg hnew, value_pushed hv]
    rfl
  | removeGlobal w _ => exact returned_congr hs hx hv rfl
  | rename w name _ => exact returned_revalued hs hx hv (.inl rfl)
  | renameGlobal w name _ _ =>
    refine returned_congr hs hx hv ?_
    change (m.revalued w fun x => { x with name }).kindOf v = m.kindOf v
    by_cases hw : m.values.Has w
    · rw [kindOf, value_revalued hw]
      split
      · rename_i he
        rw [he]
        rfl
      · rfl
    · rw [revalued_of_not_has hw]
  | changeGlobal w g g' hg _ _ =>
    exact returned_revalued hs hx hv (.inr fun value => by simp [hg])
  | addIncoming w b u entries hw _ _ _ _ =>
    exact returned_revalued hs hx hv (.inr fun value => by simp [kindOf_of_instruction? hw])
  | dropIncoming w b entries hw =>
    exact returned_revalued hs hx hv (.inr fun value => by simp [kindOf_of_instruction? hw])
  | addFunction m₁ name type params ha _ _ _ => exact returned_congr hs hx hv (ha.kindOf_eq hv)
  | link f linkage => exact returned_congr hs hx hv rfl
  | removeFunction f _ => exact returned_congr hs hx hv rfl
  | pushBlock name => exact returned_congr hs hx hv rfl
  | nameBlock b name => exact returned_congr hs hx hv rfl
  | replace old new _ _ ht => exact returned_replaced hs hx hv ht

theorem Changed.returned (hc : Changed m m') (hs : m.Sound) (hv : m.values.Has v) :
    m'.returned v = m.returned v := by
  induction hc with
  | refl => rfl
  | tail hc hstep ih =>
    have hs' := Changed.sound hc hs
    have hv' := (Changed.extends hc).has hv
    obtain hq | hm := hstep
    · rw [hq.returned hs' hv', ih]
    · rw [returned_congr hs' hm.extends hv' (hm.kindOf_eq v), ih]

theorem Extends.resultFits (hx : m.Extends m') (hs : m.Sound) (hf : m.HasFunction f)
    (h : m.ResultFits f type) : m'.ResultFits f type := by
  obtain ⟨result, params, isVariadic, he, -⟩ := hs.functions f hf
  have hresult := hx.resultType_eq hf (by simp [he, Ty.params])
  cases type with
  | some type => exact h.trans hresult.symm
  | none =>
    obtain ⟨hc, hv⟩ := h
    unfold ResultFits
    rw [hresult]
    refine ⟨hx.types.contains _ hc, ?_⟩
    exact (hx.types.entry_eq_of_kind hc (by simp [TypeTable.kind, hv, Ty.kind])).trans hv

end Module

/-! ### Orders that only lose code -/

/-- No instruction is linked where it was not before. -/
def Order.Within (o' o : Order) : Prop :=
  ∀ f b v, b ∈ o'.blocks f → v ∈ o'.code b → b ∈ o.blocks f ∧ v ∈ o.code b

namespace Order.Within

variable {o o' : Order} {v : ValueId} {b : BlockId} {f : FunctionId}

theorem refl (o : Order) : o.Within o := fun _ _ _ hb hv => ⟨hb, hv⟩

theorem trans {o'' : Order} (h : o''.Within o') (h' : o'.Within o) : o''.Within o :=
  fun f b v hb hv => h' f b v (h f b v hb hv).1 (h f b v hb hv).2

theorem of_dropsCode (h : o.DropsCode o' v) : o'.Within o := by
  obtain ⟨b, xs, ys, hl, rfl⟩ | ⟨-, rfl⟩ := h
  · intro f k w hk hw
    refine ⟨hk, ?_⟩
    by_cases hkb : k = b
    · subst hkb
      have hw : w ∈ xs ++ ys := by simpa [setCode] using hw
      rw [hl]
      rcases List.mem_append.mp hw with hw | hw
      · exact List.mem_append_left _ hw
      · exact List.mem_append_right _ (List.mem_cons_of_mem _ hw)
    · simpa [setCode, hkb] using hw
  · exact refl _

theorem of_removesBlock (h : o.RemovesBlock o' b) : o'.Within o := by
  have emptied : ∀ {k w}, w ∈ (o.setCode b []).code k → w ∈ o.code k := by
    intro k w hw
    by_cases hk : k = b
    · simp [setCode, hk] at hw
    · simpa [setCode, hk] using hw
  obtain ⟨f, xs, ys, hl, rfl⟩ | ⟨-, rfl⟩ := h
  · intro g k w hk hw
    refine ⟨?_, emptied hw⟩
    by_cases hg : g = f
    · subst hg
      have hk : k ∈ xs ++ ys := by simpa [setBlocks] using hk
      have hl : o.blocks g = xs ++ b :: ys := hl
      rw [hl]
      rcases List.mem_append.mp hk with hk | hk
      · exact List.mem_append_left _ hk
      · exact List.mem_append_right _ (List.mem_cons_of_mem _ hk)
    · simpa [setBlocks, setCode, hg] using hk
  · exact fun g k w hk hw => ⟨hk, emptied hw⟩

theorem of_removesBlocks (h : o.RemovesBlocks o' f) : o'.Within o := by
  obtain ⟨hblocks, hcode⟩ := h
  intro g k w hk hw
  rw [hblocks] at hk
  rw [hcode] at hw
  refine ⟨?_, ?_⟩
  · by_cases hg : g = f
    · simp [hg] at hk
    · simpa [hg] using hk
  · by_cases hb : k ∈ o.blocks f
    · simp [hb] at hw
    · simpa [hb] using hw

/-- A block without code brings no instruction along. -/
theorem of_setBlocks {l : List BlockId} (hb : o.code b = [])
    (hl : ∀ k ∈ l, k ∈ o.blocks f ∨ k = b) : (o.setBlocks f l).Within o := by
  intro g k w hk hw
  have hcode : w ∈ o.code k := hw
  refine ⟨?_, hcode⟩
  by_cases hg : g = f
  · subst hg
    have hk : k ∈ l := by simpa [setBlocks] using hk
    obtain hk | rfl := hl k hk
    · exact hk
    · rw [hb] at hcode
      cases hcode
  · simpa [setBlocks, hg] using hk

theorem of_appendsBlock (hb : o.code b = []) (h : o.AppendsBlock o' f b) : o'.Within o := by
  rw [h]
  exact of_setBlocks hb fun k hk => by simpa using hk

theorem of_insertsBlock {anchor : BlockId} (hb : o.code b = []) (h : o.InsertsBlock o' anchor b) :
    o'.Within o := by
  obtain ⟨f, xs, ys, hl, rfl⟩ := h
  refine of_setBlocks hb fun k hk => ?_
  rw [hl]
  simp only [List.mem_append, List.mem_cons] at hk ⊢
  tauto

end Order.Within

/-- With one more instruction in a list, there is that one and what was there before. -/
theorem Order.mem_code_setCode {o : Order} {k b : BlockId} {l : List ValueId} {v w : ValueId}
    (hl : ∀ w ∈ l, w ∈ o.code k ∨ w = v) (hw : w ∈ (o.setCode k l).code b) :
    w ∈ o.code b ∨ w = v ∧ b = k := by
  by_cases hb : b = k
  · subst hb
    have hw : w ∈ l := by simpa [Order.setCode] using hw
    exact (hl w hw).imp_right fun he => ⟨he, rfl⟩
  · exact .inl (by simpa [Order.setCode, hb] using hw)

/-! ### Calls -/

/-- The calls that put an instruction in a block which was made before. -/
def Call.relinks : Call → Bool
  | layout (.appendInstruction _ _) | layout (.insertInstructionBefore _ _) => true
  | _ => false

/-- A new block is made by no call before. -/
theorem LayoutCall.run_fresh {m : Module} (c : LayoutCall) :
    Ends c.run m (fun r _ => ∀ b, r = .block (some b) → ¬ m.blocks.Has b) fun _ => True := by
  cases c with
  | appendBlock f name =>
    simp only [LayoutCall.run, ends_map]
    unfold Module.appendBlock pushBlock
    simp only [ends_bind, ends_modifyGet, ends_pure]
    rintro b ⟨⟩
    exact Nat.lt_irrefl _
  | insertBlockBefore anchor name =>
    simp only [LayoutCall.run, ends_map]
    unfold Module.insertBlockBefore pushBlock
    simp only [ends_bind, ends_get]
    split
    · exact fun b hb => by cases hb
    · simp only [ends_bind, ends_modifyGet, ends_pure]
      rintro b ⟨⟩
      exact Nat.lt_irrefl _
  | _ =>
    simp only [LayoutCall.run, ends_map]
    exact Ends.of_forall (fun _ _ _ hb => by cases hb) fun _ => trivial

namespace Builder

variable {s s' : Builder} {o o' : Order} {c : Call} {v : ValueId}

theorem returns_follows (h : s.module.Returns s.module.order) (hs : s.Sane)
    (hf : Follows s s' o') (hw : o'.Within s.module.order) :
    s'.module.Returns s'.module.order := by
  rw [hf.ordered.order_eq]
  intro f b v hb hv type htype
  obtain ⟨hb, hv⟩ := hw f b v hb hv
  have hhas := (hs.ordered.code.holds b).has v hv
  have hfun : s.module.HasFunction f := hs.ordered.hasFunction_of_mem hb
  rw [Changed.returned hf.changed hs.sound hhas] at htype
  exact (Changed.extends hf.changed).resultFits hs.sound hfun (h f b v hb hv type htype)

/-- A new instruction changes no list but the one of its block. -/
theorem Places.lists (h : s.Places o o' v) (ho : s.module.Ordered o) :
    o'.blocks = o.blocks ∧ ∃ p, s.cursor = some p ∧
      ∀ b w, w ∈ o'.code b → w ∈ o.code b ∨ (w = v ∧ b = p.block) := by
  obtain ⟨-, p, hp, hplace⟩ := h
  split at hplace
  · rename_i anchor hbefore
    obtain ⟨ha, b, xs, ys, hl, rfl⟩ := hplace
    obtain rfl : b = p.block := ho.code.disjoint (k := anchor) (by simp [hl]) ha
    refine ⟨rfl, p, hp, fun b w => Order.mem_code_setCode fun w hw => ?_⟩
    rw [hl]
    simp only [List.mem_append, List.mem_cons] at hw ⊢
    tauto
  · obtain rfl := hplace
    refine ⟨rfl, p, hp, fun b w => Order.mem_code_setCode fun w hw => ?_⟩
    simpa using hw

/-- A return that was just made fits the function of its block. -/
theorem Emitted.returns (he : Emitted s v s') (hs : s.Sane)
    (h : s.module.Returns s.module.order) : s'.module.Returns s'.module.order := by
  obtain ⟨hc, o', ho', hplaces⟩ := he.reorders hs.cursor hs.ordered
  obtain ⟨hblocks, q, hq, hcode⟩ := hplaces.lists hs.ordered
  obtain ⟨-, m, p, type, i, hm, hp, -, ht, hk, hr, -, rfl, hmodule⟩ := he
  obtain rfl := Option.some_inj.mp (hp.symm.trans hq)
  rw [ho'.order_eq]
  intro f b w hb hw returned hreturned
  rw [hblocks] at hb
  have hfun : s.module.HasFunction f := hs.ordered.hasFunction_of_mem hb
  obtain hw | ⟨rfl, rfl⟩ := hcode b w hw
  · have hhas := (hs.ordered.code.holds b).has w hw
    rw [Changed.returned hc hs.sound hhas] at hreturned
    exact hc.extends.resultFits hs.sound hfun (h f b w hb hw returned hreturned)
  · have hx : m.Extends s'.module := by
      rw [hmodule]
      exact (extends_pushed type _).trans (extends_linked _ p _)
    have hkind : s'.module.kindOf ⟨m.values.size⟩ = .instruction i := by
      rw [hmodule, kindOf_linked, kindOf, value_pushed_new]
    unfold Module.returned at hreturned
    rw [hkind] at hreturned
    split at hreturned
    · rename_i value hi
      cases hi
      obtain rfl := Option.some_inj.mp hreturned
      obtain ⟨g, hg, hfits⟩ := hr value rfl
      have hm' : m.Sound := Changed.sound (Quieted.changed hm.quieted) hs.sound
      have hg' := (Quieted.ordered hm.quieted hs.ordered).functionOf?_eq_some.mp hg
      obtain rfl : g = f := hs.ordered.blocks.disjoint (k := p.block) hg' hb
      have htypes : value.map s'.module.typeOf = value.map m.typeOf := by
        cases value with
        | none => rfl
        | some u => simp [hx.typeOf_eq (hk.1 u (by simp [Instruction.operands]))]
      rw [htypes]
      exact hx.resultFits hm' (hm.extends.functions _ hfun).1 (resultFits_map hfits)
    · cases hreturned

/-- A call that links no instruction, old or new, leaves none where it was not before. -/
theorem perform_within (hs : s.Sane) (hv : c.Valid s.module) (hc : c.relinks = false)
    (he : ∀ e, c ≠ .emission e) :
    Ends c.perform s (fun _ s' => ∃ o', Follows s s' o' ∧ o'.Within s.module.order)
      fun s' => Follows s s' s.module.order := by
  have ho := hs.ordered
  have within {ok : Reply → Builder → Prop} {failed : Builder → Prop}
      (hends : Ends c.perform s ok failed)
      (hw : ∀ r s' o', c.Reorders s s.module.order o' r → ok r s' → o'.Within s.module.order) :
      Ends c.perform s (fun _ s' => ∃ o', Follows s s' o' ∧ o'.Within s.module.order)
        fun s' => Follows s s' s.module.order := by
    refine ((perform_reorders hs hv).and hends).mono (fun r s' hr => ?_) fun s' hf => hf.1
    obtain ⟨⟨o', hf, hre⟩, hok⟩ := hr
    exact ⟨o', hf, hw r s' o' hre hok⟩
  have all : Ends c.perform s (fun _ _ => True) fun _ => True :=
    Ends.of_forall (fun _ _ => trivial) fun _ => trivial
  cases c with
  | emission e => exact (he e rfl).elim
  | symbol c =>
    refine within all fun r s' o' hre _ => ?_
    cases c with
    | removeFunction f =>
      simp only [Call.Reorders, SymbolCall.Reorders] at hre
      split at hre
      · rw [hre]
        exact .refl _
      · exact .of_removesBlocks hre
    | _ =>
      have hre : o' = s.module.order := hre
      rw [hre]
      exact .refl _
  | layout c =>
    have hfresh : Ends (Call.layout c).perform s
        (fun r _ => ∀ b, r = .block (some b) → ¬ s.module.blocks.Has b) fun _ => True := by
      simp only [Call.perform, ends_onModule]
      exact c.run_fresh
    have hempty : ∀ b, ¬ s.module.blocks.Has b → s.module.order.code b = [] := fun b hb =>
      List.eq_nil_iff_forall_not_mem.mpr fun v hv => hb (ho.has_of_mem hv)
    refine within hfresh fun r s' o' hre hr => ?_
    cases c with
    | appendInstruction b v | insertInstructionBefore anchor v => cases hc
    | appendBlock f name =>
      cases r with
      | block b =>
        cases b with
        | some b => exact .of_appendsBlock (hempty b (hr b rfl)) hre
        | none => exact hre.elim
      | _ => exact hre.elim
    | insertBlockBefore anchor name =>
      cases r with
      | block b =>
        cases b with
        | some b => exact .of_insertsBlock (hempty b (hr b rfl)) hre
        | none =>
          rw [hre.2]
          exact .refl _
      | _ => exact hre.elim
    | removeBlock b => exact .of_removesBlock hre
    | detachInstruction v | eraseInstruction v => exact .of_dropsCode hre
    | _ =>
      have hre : o' = s.module.order := hre
      rw [hre]
      exact .refl _
  | _ =>
    refine within all fun r s' o' hre _ => ?_
    have hre : o' = s.module.order := hre
    rw [hre]
    exact .refl _

/-- A call that links no old instruction keeps every return in a function that it fits. -/
theorem perform_returns (hs : s.Sane) (h : s.module.Returns s.module.order)
    (hv : c.Valid s.module) (hc : c.relinks = false) :
    Ends c.perform s (fun _ s' => s'.module.Returns s'.module.order)
      fun s' => s'.module.Returns s'.module.order := by
  have same {s' : Builder} (hf : Follows s s' s.module.order) :
      s'.module.Returns s'.module.order := returns_follows h hs hf (.refl _)
  by_cases he : ∃ e, c = .emission e
  · obtain ⟨e, rfl⟩ := he
    simp only [Call.perform, ends_map]
    refine (emission_emits hs.sound hs.ordered hv).mono (fun v s' hv => ?_) fun s' hp => ?_
    · obtain ⟨rfl, -⟩ | he := hv
      · exact h
      · exact he.returns hs h
    · have hq := hp.2.quieted
      exact same (hs.follows (Quieted.changed hq) (Quieted.ordered hq hs.ordered) hp.1)
  · refine (perform_within hs hv hc fun e hce => he ⟨e, hce⟩).mono (fun _ s' hr => ?_)
      fun _ hf => same hf
    obtain ⟨o', hf, hw⟩ := hr
    exact returns_follows h hs hf hw

end Builder

/-! ### Building -/

/-- One call that links no old instruction. -/
def Builder.Builds (s s' : Builder) : Prop :=
  ∃ c : Call, c.relinks = false ∧ c.Valid s.module ∧ s' = (c.perform.outcome s).2

/-- Every state that such calls lead to from an empty module. -/
def Builder.Built (s : Builder) : Prop :=
  ∃ name, Relation.ReflTransGen Builder.Builds { module := { name } } s

/-- A module that such calls lead to. -/
def Module.Built (m : Module) : Prop := ∃ cursor, Builder.Built { module := m, cursor }

theorem Builder.Built.module {s : Builder} (h : s.Built) : s.module.Built := ⟨s.cursor, h⟩

namespace Builder

variable {s s' : Builder}

theorem Builds.called (h : s.Builds s') : s.Called s' := by
  obtain ⟨c, -, hv, he⟩ := h
  exact ⟨c, hv, he⟩

theorem Replays.built {calls : List Call} (h : s.Replays calls)
    (hc : ∀ c ∈ calls, c.relinks = false) (hs : s.Built) : (s.replay calls).Built := by
  induction calls generalizing s with
  | nil => exact hs
  | cons c calls ih =>
    obtain ⟨hv, h⟩ := h
    obtain ⟨name, hs⟩ := hs
    obtain ⟨hc, hcalls⟩ := List.forall_mem_cons.mp hc
    exact ih h hcalls ⟨name, hs.tail ⟨c, hc, hv, rfl⟩⟩

theorem built_empty (name : String) : Built { module := { name } } := ⟨name, .refl⟩

theorem Built.reachable (h : s.Built) : s.Reachable := by
  obtain ⟨name, h⟩ := h
  exact ⟨name, Relation.ReflTransGen.mono (fun _ _ => Builds.called) _ _ h⟩

theorem Built.returns (h : s.Built) : s.module.Returns s.module.order := by
  obtain ⟨name, h⟩ := h
  induction h with
  | refl =>
    intro f b v hb
    rw [(ordered_empty name).order_eq] at hb
    cases hb
  | tail hsteps hstep ih =>
    have hsane : Sane _ := (Built.reachable ⟨name, hsteps⟩).sane
    obtain ⟨c, hc, hv, rfl⟩ := hstep
    exact (perform_returns hsane ih hv hc).state

end Builder

theorem Module.Built.reachable {m : Module} (h : m.Built) : m.Reachable := by
  obtain ⟨cursor, h⟩ := h
  exact ⟨cursor, h.reachable⟩

theorem Module.Built.returns {m : Module} (h : m.Built) : m.Returns m.order := by
  obtain ⟨cursor, h⟩ := h
  exact h.returns
end SsaKit
