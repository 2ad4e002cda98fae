import SsaKit.Proofs.Reachable

/-! Every module that can be built comes from an empty one by single changes, so what holds of an
empty module and is kept by every change holds of all of them. -/
namespace SsaKit

open Attempt SsaKit.Module

variable {m m' : Module} {s s' : Builder} {v w : ValueId}

theorem Builder.Sane.changed (h : s.Sane) (hc : Called s s') : Changed s.module s'.module := by
  obtain ⟨c, hv, rfl⟩ := hc
  have hends : Ends c.perform s (fun _ t => Changed s.module t.module)
      fun t => Changed s.module t.module :=
    (perform_reorders h hv).mono (fun _ _ ⟨_, hf, _⟩ => hf.changed) fun _ hf => hf.changed
  exact hends.state

theorem Builder.Reachable.changed (h : s.Reachable) : ∃ name, Changed { name } s.module := by
  obtain ⟨name, h⟩ := h
  refine ⟨name, ?_⟩
  induction h with
  | refl => exact .refl
  | tail hr hc ih => exact ih.trans (Builder.Sane.changed (Builder.Reachable.sane ⟨name, hr⟩) hc)

namespace Module

/-- What holds at first and is kept by every change holds of every module that can be built. -/
theorem Reachable.invariant {P : Module → Prop} (h : m.Reachable)
    (hempty : ∀ name, P { name }) (hstep : ∀ m m', Change m m' → P m → P m') : P m := by
  obtain ⟨cursor, h⟩ := h
  obtain ⟨name, hc⟩ := h.changed
  change Changed { name } m at hc
  clear h
  induction hc with
  | refl => exact hempty name
  | tail _ hs ih => exact hstep _ _ hs ih

/-! ### Aggregates are made of earlier values -/

/-- Every aggregate comes behind its elements. -/
def Grounded (m : Module) : Prop :=
  ∀ v elements, m.kindOf v = .aggregate elements → ∀ w ∈ elements, w.index < v.index

/-- All aggregates of the second module are aggregates of the first one. -/
def KeepsAggregates (m m' : Module) : Prop :=
  ∀ v elements, m'.kindOf v = .aggregate elements → m.kindOf v = .aggregate elements

theorem KeepsAggregates.grounded (hk : m.KeepsAggregates m') (h : m.Grounded) : m'.Grounded :=
  fun v elements hv => h v elements (hk v elements hv)

theorem keepsAggregates_of_values (hv : ∀ v, m'.value v = m.value v) : m.KeepsAggregates m' :=
  fun v elements h => by
    rw [kindOf, hv] at h
    exact h

theorem keepsAggregates_revalued {g : Value → Value}
    (hg : ∀ elements, (g (m.value v)).kind = .aggregate elements →
      m.kindOf v = .aggregate elements) : m.KeepsAggregates (m.revalued v g) := by
  intro w elements h
  by_cases hv : m.values.Has v
  · rw [kindOf, value_revalued hv] at h
    split at h
    · rename_i he
      rw [he]
      exact hg elements h
    · exact h
  · rwa [revalued_of_not_has hv] at h

theorem kindOf_pushed (type : TypeId) (kind : ValueKind) (v : ValueId) :
    (m.pushed type kind).kindOf v = m.kindOf v ∨
      v = ⟨m.values.size⟩ ∧ (m.pushed type kind).kindOf v = kind := by
  by_cases hv : m.values.Has v
  · rw [kindOf, value_pushed hv]
    exact .inl rfl
  · by_cases he : v = ⟨m.values.size⟩
    · subst he
      rw [kindOf, value_pushed_new]
      exact .inr ⟨rfl, rfl⟩
    · have hn : ¬ (m.pushed type kind).values.Has v := fun h => (has_pushed.mp h).elim hv he
      rw [kindOf, kindOf, value_of_not_has hn, value_of_not_has hv]
      exact .inl rfl

theorem keepsAggregates_pushed {type : TypeId} {kind : ValueKind}
    (hk : ∀ elements, kind ≠ .aggregate elements) : m.KeepsAggregates (m.pushed type kind) := by
  intro v elements h
  rcases kindOf_pushed (m := m) type kind v with he | ⟨-, he⟩
  · rwa [he] at h
  · exact absurd (he.symm.trans h) (hk elements)

theorem Prepares.grounded (hp : Prepares m m') (h : m.Grounded) : m'.Grounded := by
  cases hp with
  | types t _ => exact h
  | constant type kind _ _ _ hk =>
    intro v elements hv w hw
    rcases kindOf_pushed (m := m) type kind v with he | ⟨rfl, he⟩
    · exact h v elements (he.symm.trans hv) w hw
    · obtain rfl : kind = .aggregate elements := he.symm.trans hv
      exact (hk.1 w hw).1

theorem Argues.grounded {f : FunctionId} {params : List ValueId} (ha : Argues f m params m')
    (h : m.Grounded) : m'.Grounded := by
  induction ha with
  | nil => exact h
  | snoc type _ _ ih => exact (keepsAggregates_pushed (by simp)).grounded ih

theorem Quiet.grounded (hq : Quiet m m') (h : m.Grounded) : m'.Grounded := by
  cases hq with
  | prepare _ hp => exact hp.grounded h
  | instruction type i _ _ => exact (keepsAggregates_pushed (by simp)).grounded h
  | addGlobal type valueType name _ _ _ =>
    have hpush : m.KeepsAggregates (m.pushed type (.global { valueType })) :=
      keepsAggregates_pushed (by simp)
    exact (keepsAggregates_revalued fun _ hk => hk).grounded (hpush.grounded h)
  | rename v name _ => exact (keepsAggregates_revalued fun _ hk => hk).grounded h
  | renameGlobal v name _ _ =>
    have hn : Grounded { m with globalNames := m.renamedTable v name } := h
    exact (keepsAggregates_revalued fun _ hk => hk).grounded hn
  | changeGlobal v g g' _ _ _ => exact (keepsAggregates_revalued (by simp)).grounded h
  | addIncoming v b w entries _ _ _ _ _ => exact (keepsAggregates_revalued (by simp)).grounded h
  | dropIncoming v b entries _ => exact (keepsAggregates_revalued (by simp)).grounded h
  | replace old new _ _ _ =>
    have hkeep : m.KeepsAggregates (m.replaced old new) := fun v elements hv => by
      rw [kindOf, value_replaced, replaceIn] at hv
      split at hv
      · cases hv
      · exact hv
    exact hkeep.grounded h
  | addFunction m₁ name type params ha _ _ _ =>
    have hargs : m₁.Grounded := ha.grounded h
    exact hargs
  | removeGlobal _ _ | link _ _ | removeFunction _ _ | pushBlock _
  | nameBlock _ _ => exact h

theorem Move.grounded (hm : Move m m') (h : m.Grounded) : m'.Grounded := by
  refine (keepsAggregates_of_values fun v => ?_).grounded h
  cases hm <;> simp [value_def, withCode, withBlocks]

theorem Changed.grounded (hc : Changed m m') (h : m.Grounded) : m'.Grounded := by
  induction hc with
  | refl => exact h
  | tail _ hs ih => exact hs.elim (fun hq => hq.grounded ih) fun hm => hm.grounded ih

theorem Reachable.grounded (h : m.Reachable) : m.Grounded := by
  refine h.invariant (fun name v elements hv => ?_) fun _ _ hs hm =>
    hs.elim (fun hq => hq.grounded hm) fun hmove => hmove.grounded hm
  rw [kindOf, value_of_not_has (by simp [Arena.Has])] at hv
  cases hv

/-! ### Globals on the list -/

/-- Whatever is on the list of globals is a global. -/
def ListsGlobals (m : Module) : Prop := ∀ v ∈ m.globals, ∃ g, m.kindOf v = .global g

theorem ListsGlobals.of_extends (h : m.ListsGlobals) (hx : m.Extends m')
    (hg : ∀ v ∈ m'.globals, v ∈ m.globals) : m'.ListsGlobals := by
  intro v hv
  obtain ⟨g, hk⟩ := h v (hg v hv)
  obtain hsame | ⟨g', g'', -, hk', -⟩ | ⟨i, i', hi, -⟩ :=
    (hx.values v (has_of_kindOf (by simp [hk]))).2.2
  · exact ⟨g, hsame.trans hk⟩
  · exact ⟨g'', hk'⟩
  · rw [hk] at hi
    cases hi

theorem Quiet.listsGlobals (hq : Quiet m m') (h : m.ListsGlobals) : m'.ListsGlobals := by
  have hx := hq.extends
  cases hq with
  | addGlobal type valueType name _ _ _ =>
    have hnamed : (m.pushed type (.global { valueType })).Extends
        ((m.pushed type (.global { valueType })).revalued ⟨m.values.size⟩
          fun x => { x with name := some name }) := extends_revalued rfl (.inl rfl)
    have hold := h.of_extends ((extends_pushed type _).trans hnamed) fun _ hw => hw
    intro v hv
    rcases List.mem_append.mp hv with hv | hv
    · exact hold v hv
    · obtain rfl := List.mem_singleton.mp hv
      refine ⟨{ valueType }, ?_⟩
      change Value.kind (Module.value (Module.revalued _ _ _) _) = _
      rw [value_revalued (has_pushed_new m _ _), if_pos rfl, value_pushed_new]
  | removeGlobal v _ => exact h.of_extends hx fun w hw => List.mem_of_mem_filter hw
  | prepare _ hp =>
    cases hp with
    | types t _ => exact h.of_extends hx fun _ hw => hw
    | constant type kind _ _ _ _ => exact h.of_extends hx fun _ hw => hw
  | addFunction m₁ name type params ha _ _ _ =>
    refine h.of_extends hx fun v hv => ?_
    have hsame : m₁.globals = m.globals := by rw [ha.eq_values]
    exact hsame ▸ hv
  | _ => exact h.of_extends hx fun _ hw => hw

theorem Move.listsGlobals (hm : Move m m') (h : m.ListsGlobals) : m'.ListsGlobals := by
  refine h.of_extends hm.extends fun v hv => ?_
  cases hm <;> exact hv

theorem Changed.listsGlobals (hc : Changed m m') (h : m.ListsGlobals) : m'.ListsGlobals := by
  induction hc with
  | refl => exact h
  | tail _ hs ih => exact hs.elim (fun hq => hq.listsGlobals ih) fun hm => hm.listsGlobals ih

theorem Reachable.listsGlobals (h : m.Reachable) : m.ListsGlobals :=
  h.invariant (fun _ v hv => by cases hv) fun _ _ hs hm =>
    hs.elim (fun hq => hq.listsGlobals hm) fun hmove => hmove.listsGlobals hm

end Module
end SsaKit
