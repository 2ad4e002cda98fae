import SsaKit.Proofs.Legality
import SsaKit.Proofs.StableTypes

/-! Which pointer arithmetic is accepted, and what an accepted one leaves: one more instruction, behind
which everything stands as before. -/
namespace SsaKit

open Attempt

namespace Module

variable {m m' : Module} {type target : TypeId} {base v : ValueId} {indices first rest : List ValueId}

/-- The indices lead from what the base points to, to a type. -/
structure Targets (m : Module) (base : ValueId) (indices : List ValueId) (target : TypeId) : Prop where
  pointer : m.types.kind (m.typeOf base) = .pointer
  nonempty : indices ≠ []
  integers : ∀ v ∈ indices, m.types.kind (m.typeOf v) = .integer
  steps : (indices.drop 1).foldlM (Builder.stepInto m) (Builder.pointee m (m.typeOf base)) =
    .ok target

/-- The second module has the types and values of the first one, as they were. -/
structure Preserves (m m' : Module) : Prop where
  types : m.types.Keeps m'.types
  values : ∀ v, m.values.Has v → m'.values.Has v ∧ m'.value v = m.value v

theorem pointee_of_pointer (h : m.types.entry type = .pointer target) :
    Builder.pointee m type = target := by
  simp [Builder.pointee, h, Ty.element]

theorem foldlM_stepInto_append : (first ++ rest).foldlM (Builder.stepInto m) type = .ok target ↔
    ∃ middle, first.foldlM (Builder.stepInto m) type = .ok middle ∧
      rest.foldlM (Builder.stepInto m) middle = .ok target := by
  rw [List.foldlM_append]
  cases first.foldlM (Builder.stepInto m) type <;> simp [bind, Except.bind]

/-- Of two lists of indices, the second goes on from where the first one leads. -/
theorem targets_append (hne : first ≠ []) : m.Targets base (first ++ rest) target ↔
    ∃ middle, m.Targets base first middle ∧
      (∀ v ∈ rest, m.types.kind (m.typeOf v) = .integer) ∧
      rest.foldlM (Builder.stepInto m) middle = .ok target := by
  obtain ⟨head, tail, rfl⟩ := List.exists_cons_of_ne_nil hne
  constructor
  · intro h
    obtain ⟨middle, hmiddle, hrest⟩ := foldlM_stepInto_append.mp h.steps
    exact ⟨middle, ⟨h.pointer, hne, fun v hv => h.integers v (List.mem_append_left _ hv), hmiddle⟩,
      fun v hv => h.integers v (List.mem_append_right _ hv), hrest⟩
  · rintro ⟨middle, h, hintegers, hrest⟩
    refine ⟨h.pointer, by simp, fun v hv => ?_, foldlM_stepInto_append.mpr ⟨middle, h.steps, hrest⟩⟩
    exact (List.mem_append.mp hv).elim (h.integers v) (hintegers v)

/-- The first index leads to no other type. -/
theorem targets_of_pointer {middle : TypeId} {z : ValueId}
    (hbase : m.types.entry (m.typeOf base) = .pointer middle)
    (hz : m.types.kind (m.typeOf z) = .integer) : m.Targets base (z :: rest) target ↔
      (∀ v ∈ rest, m.types.kind (m.typeOf v) = .integer) ∧
      rest.foldlM (Builder.stepInto m) middle = .ok target := by
  have hkind : m.types.kind (m.typeOf base) = .pointer := by
    rw [TypeTable.kind, hbase]
    rfl
  constructor
  · intro h
    have hsteps := h.steps
    rw [pointee_of_pointer hbase] at hsteps
    exact ⟨fun v hv => h.integers v (List.mem_cons_of_mem _ hv), hsteps⟩
  · rintro ⟨hintegers, hsteps⟩
    refine ⟨hkind, by simp, by simpa using ⟨hz, hintegers⟩, ?_⟩
    rw [pointee_of_pointer hbase]
    exact hsteps

/-- The steps start at the type that the base points to, which is one of the module. -/
theorem Targets.pointee (h : m.Targets base indices target) (hs : m.Sound)
    (hb : m.values.Has base) : ∃ type, m.types.entry (m.typeOf base) = .pointer type ∧
      m.types.contains type ∧ (indices.drop 1).foldlM (Builder.stepInto m) type = .ok target := by
  obtain ⟨type, hbase⟩ := Builder.entry_of_pointer h.pointer
  have hfits := hs.types.fits _ (hs.values base hb).1
  have hsteps := h.steps
  rw [hbase] at hfits
  rw [pointee_of_pointer hbase] at hsteps
  exact ⟨type, hbase, hfits, hsteps⟩

theorem Targets.contains (h : m.Targets base indices target) (hs : m.Sound)
    (hb : m.values.Has base) : m.types.contains target := by
  obtain ⟨type, -, hfits, hsteps⟩ := h.pointee hs hb
  exact Builder.foldlM_stepInto_contains (s := { module := m }) hs hfits hsteps

namespace Preserves

variable (hp : m.Preserves m')
include hp

theorem typeOf_eq (hv : m.values.Has v) : m'.typeOf v = m.typeOf v := by
  rw [typeOf, (hp.values v hv).2, typeOf]

theorem constWord?_eq (hv : m.values.Has v) : m'.constWord? v = m.constWord? v := by
  rw [constWord?, kindOf, (hp.values v hv).2, constWord?, kindOf]

theorem entry_eq (hs : m.Sound) (hv : m.values.Has v) :
    m'.types.entry (m'.typeOf v) = m.types.entry (m.typeOf v) := by
  rw [hp.typeOf_eq hv, (hp.types _ (hs.values v hv).1).2]

theorem kind_eq (hs : m.Sound) (hv : m.values.Has v) :
    m'.types.kind (m'.typeOf v) = m.types.kind (m.typeOf v) := by
  rw [TypeTable.kind, hp.entry_eq hs hv, TypeTable.kind]

theorem stepInto_iff {index : ValueId} (hc : m.types.contains type) (hi : m.values.Has index) :
    Builder.stepInto m' type index = .ok target ↔ Builder.stepInto m type index = .ok target := by
  have hentry := (hp.types type hc).2
  have hword := hp.constWord?_eq hi
  cases he : m.types.entry type with
  | struct name fields isPacked =>
    cases hw : m.constWord? index with
    | none => simp only [Builder.stepInto, hentry, he, hword, hw, reduceCtorEq]
    | some word =>
      simp only [Builder.stepInto, hentry, he, hword, hw]
      cases (fields.getD [])[word.toNat]? <;> simp only [reduceCtorEq]
  | _ => simp only [Builder.stepInto, hentry, he, reduceCtorEq]

theorem foldlM_stepInto_iff (hs : m.Sound) (hc : m.types.contains type)
    (hi : ∀ v ∈ indices, m.values.Has v) :
    indices.foldlM (Builder.stepInto m') type = .ok target ↔
      indices.foldlM (Builder.stepInto m) type = .ok target := by
  induction indices generalizing type with
  | nil => simp only [List.foldlM_nil]
  | cons index indices ih =>
    have hrest : ∀ v ∈ indices, m.values.Has v := fun v hv => hi v (List.mem_cons_of_mem _ hv)
    simp only [Builder.foldlM_stepInto_cons, hp.stepInto_iff hc (hi index List.mem_cons_self)]
    refine exists_congr fun next => and_congr_right fun hnext => ih ?_ hrest
    exact Builder.stepInto_contains (s := { module := m }) hs hnext

theorem targets (hs : m.Sound) (hb : m.values.Has base) (hi : ∀ v ∈ indices, m.values.Has v)
    (h : m.Targets base indices target) : m'.Targets base indices target := by
  obtain ⟨type, hbase, hfits, hsteps⟩ := h.pointee hs hb
  refine ⟨(hp.kind_eq hs hb).trans h.pointer, h.nonempty,
    fun v hv => (hp.kind_eq hs (hi v hv)).trans (h.integers v hv), ?_⟩
  rw [pointee_of_pointer ((hp.entry_eq hs hb).trans hbase)]
  exact (hp.foldlM_stepInto_iff hs hfits fun v hv => hi v (List.mem_of_mem_drop hv)).mpr hsteps

end Preserves
end Module

namespace Builder

open SsaKit.Module

variable {s s' : Builder} {v w base : ValueId} {type target : TypeId} {i : Instruction} {ty : Ty}
  {indices : List ValueId}

/-- There is a place for an instruction. -/
def Ready (s : Builder) : Prop :=
  ∃ p, s.cursor = some p ∧ ∀ anchor ∈ p.before, s.module.blockOf? anchor = some p.block

/-- An instruction was made whose type is described by `ty`. Another one can follow. -/
structure Gains (s : Builder) (i : Instruction) (ty : Ty) (v : ValueId) (s' : Builder) : Prop where
  ready : s'.Ready
  preserves : s.module.Preserves s'.module
  fresh : ¬ s.module.values.Has v
  has : s'.module.values.Has v
  instruction : s'.module.kindOf v = .instruction i
  type : s'.module.types.entry (s'.module.typeOf v) = ty

theorem value_inserted {p : Position} :
    (s.inserted p type i).module.value w = (s.module.pushed type (.instruction i)).value w := by
  simp only [inserted, linked, value_def, withCode]
  cases p.before with
  | some anchor => rw [Chain.content?_insertBefore]
  | none => rw [Chain.content?_pushBack]

theorem blockOf?_inserted {p : Position} (hw : w ≠ ⟨s.module.values.size⟩) :
    (s.inserted p type i).module.blockOf? w = s.module.blockOf? w := by
  have hpushed : (s.module.pushed type (.instruction i)).values.parent? w =
      s.module.values.parent? w := by
    have hindex : w.index ≠ s.module.values.size := fun h => hw (by rw [← h])
    simp [pushed, Arena.parent?, Array.getElem?_push, hindex]
  have hnew := has_pushed_new s.module type (.instruction i)
  simp only [inserted, linked, blockOf?, withCode]
  cases p.before with
  | some anchor =>
    rw [← hpushed]
    exact (Chain.parent?_insertBefore hnew).trans (if_neg hw)
  | none =>
    rw [← hpushed]
    exact (Chain.parent?_pushBack hnew).trans (if_neg hw)

theorem gains_inserted {p : Position} (hp : s.cursor = some p)
    (ha : ∀ anchor ∈ p.before, s.module.blockOf? anchor = some p.block)
    (ht : s.module.types.entry type = ty) :
    Gains s i ty ⟨s.module.values.size⟩ (s.inserted p type i) := by
  have hx : (s.module.pushed type (.instruction i)).Extends (s.inserted p type i).module :=
    extends_linked _ p _
  have htypes : (s.inserted p type i).module.types = s.module.types := by
    unfold inserted linked
    rfl
  refine ⟨⟨p, hp, fun anchor hanchor => ?_⟩, ⟨?_, fun w hw => ⟨?_, ?_⟩⟩, ?_, ?_, ?_, ?_⟩
  · have hblock := ha anchor hanchor
    rw [blockOf?_inserted ?_, hblock]
    rintro rfl
    simp [blockOf?, Arena.parent?] at hblock
  · rw [htypes]
    exact .refl _
  · exact hx.has (has_pushed.mpr (.inl hw))
  · rw [value_inserted, value_pushed hw]
  · exact Nat.lt_irrefl _
  · exact hx.has (has_pushed_new s.module type _)
  · rw [kindOf, value_inserted, value_pushed_new]
  · rw [htypes, typeOf, value_inserted, value_pushed_new]
    exact ht

theorem insert_gains (hr : s.Ready) (ht : s.module.types.entry type = ty) :
    Ends (insert type i) s (Gains s i ty) fun _ => False := by
  obtain ⟨p, hp, ha⟩ := hr
  have made : Ends (onModule (insertInstruction p.block p.before type i)) s (Gains s i ty)
      fun _ => False := by
    rw [ends_onModule]
    unfold insertInstruction linkInstruction Edit.relink
    simp only [ends_bind, ends_modify, ends_pure]
    have hgains : Gains s i ty _ _ := gains_inserted hp ha ht
    unfold inserted linked at hgains
    cases hbefore : p.before <;> simp only [hbefore] at hgains <;> exact hgains
  unfold insert
  simp only [ends_bind, ends_get, hp]
  split
  · rename_i anchor hbefore
    rw [if_pos (ha anchor hbefore)]
    exact made
  · exact made

theorem insert_ready : Ends (insert type i) s (fun _ _ => s.Ready) fun _ => True := by
  unfold insert
  simp only [ends_bind, ends_get]
  split
  · trivial
  · rename_i p hp
    split
    · rename_i anchor hbefore
      split
      · rename_i hblock
        refine Ends.of_forall (fun _ _ => ⟨p, hp, fun a ha => ?_⟩) fun _ => trivial
        obtain rfl : anchor = a := Option.some_inj.mp (hbefore.symm.trans ha)
        exact hblock
      · trivial
    · rename_i hnone
      exact Ends.of_forall (fun _ _ => ⟨p, hp, fun a ha => (hnone a ha).elim⟩) fun _ => trivial

theorem ready_withTypes {t : TypeTable} : (s.withTypes t).Ready ↔ s.Ready := .rfl

theorem Gains.of_withTypes {t : TypeTable} (ht : s.module.types.Keeps t)
    (h : Gains (s.withTypes t) i ty v s') : Gains s i ty v s' where
  ready := h.ready
  preserves := ⟨fun id hid => ⟨(h.preserves.types id (ht id hid).1).1,
    (h.preserves.types id (ht id hid).1).2.trans (ht id hid).2⟩, h.preserves.values⟩
  fresh := h.fresh
  has := h.has
  instruction := h.instruction
  type := h.type

/-- Indices that lead somewhere are accepted where there is a place. -/
theorem elementPtr_gains (hs : s.module.Sound) (hb : s.module.values.Has base) (hr : s.Ready)
    (h : s.module.Targets base indices target) :
    Ends (elementPtr base indices) s (Gains s (.elementPtr base indices) (.pointer target))
      fun _ => False := by
  have hasked : Ends (TypeTable.pointer target) s.module.types
      (fun id t => t.entry id = .pointer target ∧ s.module.types.Keeps t) fun _ => False := by
    have hfound : Ends (TypeTable.pointer target) s.module.types
        (fun id t => t.entry id = .pointer target) fun _ => False :=
      TypeTable.ends_pointer hs.types.indexed (h.contains hs hb) fun _ _ _ _ he => he
    exact (hfound.and (TypeTable.intern_keeps _ _)).mono (fun _ _ ht => ht) fun _ ht => ht.1
  unfold elementPtr expectKind
  simp only [ends_bind, ends_readModule, if_pos h.pointer, ends_pure]
  rw [if_neg (by simpa using h.nonempty)]
  rw [ends_bind]
  refine (ends_forM (P := (· = s)) (fun v hv t ht => ?_) rfl).mono ?_ fun _ ht => ht
  · rw [ends_discard, ht]
    unfold expectInteger
    simp only [ends_bind, ends_readModule, if_pos (h.integers v hv), ends_pure]
  · rintro - t rfl
    simp only [ends_bind, ends_readModule, ends_ofExcept, h.steps, ends_onTypes]
    refine hasked.mono (fun id t ht => ?_) fun _ ht => ht
    exact (insert_gains (ready_withTypes.mpr hr) ht.1).mono
      (fun _ _ hg => hg.of_withTypes ht.2) fun _ hf => hf

/-- Nothing else is accepted. -/
theorem elementPtr_targets : Ends (elementPtr base indices) s
    (fun _ _ => s.Ready ∧ ∃ target, s.module.Targets base indices target) fun _ => True := by
  unfold elementPtr
  rw [ends_bind]
  refine ends_expectKind (fun hk => ?_) trivial
  dsimp only
  split
  · trivial
  · rename_i hne
    rw [ends_bind]
    refine ends_forM_check (P := fun n => s.module.types.kind (s.module.typeOf n) = .integer)
      (fun n _ => ?_) (fun hin => ?_) trivial
    · rw [ends_discard]
      exact ends_expectInteger (fun hk => ⟨rfl, hk⟩) rfl
    · simp only [ends_bind, ends_readModule, ends_ofExcept, ends_onTypes]
      split
      · rename_i target ht
        have hany : Ends (TypeTable.pointer target) s.module.types (fun _ _ => True) fun _ => True :=
          Ends.of_forall (fun _ _ => trivial) fun _ => trivial
        refine hany.mono (fun id t _ => ?_) fun _ _ => trivial
        refine insert_ready.mono (fun _ _ hready => ?_) fun _ _ => trivial
        exact ⟨ready_withTypes.mp hready, target, hk, by simpa using hne, hin, ht⟩
      · trivial

end Builder
end SsaKit
