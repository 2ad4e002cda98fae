import SsaKit.Proofs.Content
import SsaKit.Transform.DeadCode

/-! Removal of dead instructions: what goes has no effect, and nothing that stays reads it. -/
namespace SsaKit

open Attempt SsaKit.Module Transform

variable {m m' : Module} {o : Order} {f : FunctionId} {b : BlockId} {v w : ValueId}
  {dead dead' : ValueId → Prop} {i : Instruction}

open Classical in
/-- The order without some instructions. -/
noncomputable def Order.sparing (o : Order) (dead : ValueId → Prop) : Order where
  blocks := o.blocks
  code b := (o.code b).filter fun v => ¬ dead v

namespace Module

/-- A module without some instructions that have no effect and that no other one reads. -/
structure Erased (m : Module) (dead : ValueId → Prop) (m' : Module) : Prop
    extends m.SameContent m' where
  changed : Changed m m'
  ordered : m'.Ordered (m.order.sparing dead)
  idle : ∀ v, dead v → ∃ i, m.instruction? v = some i ∧ i.hasSideEffects = false
  unread : ∀ f ∈ m.liveFunctions, ∀ v ∈ m.instructionsOf f, ¬ dead v →
    ∀ w ∈ readOf m v, ¬ dead w

namespace Erased

theorem refl (ho : m.Ordered o) : m.Erased (fun _ => False) m where
  toSameContent := .refl m
  changed := .refl
  ordered := by
    have hsame : m.order.sparing (fun _ => False) = o := by
      rw [ho.order_eq]
      ext1
      · rfl
      · simp [Order.sparing]
    exact hsame ▸ ho
  idle _ h := h.elim
  unread _ _ _ _ _ _ _ h := h

section

variable (h : m.Erased dead m')
include h

theorem blocksOf_eq (f : FunctionId) : m'.blocksOf f = m.blocksOf f := h.ordered.blocksOf_eq

open Classical in
theorem instructions_eq (b : BlockId) :
    m'.instructions b = (m.instructions b).filter fun v => ¬ dead v := h.ordered.instructions_eq

theorem mem_instructions : v ∈ m'.instructions b ↔ v ∈ m.instructions b ∧ ¬ dead v := by
  simp [h.instructions_eq]

theorem mem_instructionsOf : v ∈ m'.instructionsOf f ↔ v ∈ m.instructionsOf f ∧ ¬ dead v := by
  simp [instructionsOf, h.blocksOf_eq, h.mem_instructions, ← and_assoc]

theorem readOf_eq (v : ValueId) : readOf m' v = readOf m v := by
  rw [readOf, readOf, h.instruction?]

theorem entry?_eq (ho : m.Ordered o) (f : FunctionId) : m'.entry? f = m.entry? f := by
  rw [h.ordered.entry?_eq, ho.entry?_eq, ← ho.order_eq]
  rfl

theorem isDeclaration_eq (ho : m.Ordered o) (f : FunctionId) :
    m'.isDeclaration f = m.isDeclaration f := by
  rw [h.ordered.isDeclaration_eq, ho.isDeclaration_eq, ← ho.order_eq]
  rfl

/-- An instruction without effect that nothing reads is erased. -/
theorem erase (hi : m.instruction? v = some i) (he : i.hasSideEffects = false)
    (hv : ∀ f ∈ m.liveFunctions, ∀ u ∈ m'.instructionsOf f, v ∉ readOf m u) :
    Ends (eraseInstruction v) m' (fun _ => m.Erased fun w => dead w ∨ w = v) fun _ => False := by
  have husers : m'.users v = [] := by
    unfold users
    rw [List.filter_eq_nil_iff]
    intro u hu hreads
    obtain ⟨f, hf, hu⟩ := List.mem_flatMap.mp hu
    rw [h.liveFunctions] at hf
    obtain ⟨j, hj, hmem⟩ := (Option.any_eq_true _ _).mp hreads
    rw [h.instruction?] at hj
    exact hv f hf u hu (mem_readOf.mpr ⟨j, hj, by simpa using hmem⟩)
  unfold eraseInstruction
  simp only [ends_bind, ends_get, husers, List.head?_nil]
  refine ends_detach ⟨h.toSameContent.trans (sameContent_detached m' v),
    h.changed.trans (changed_detached m' v), ?_, ?_, ?_⟩
  · have ho := h.ordered.detached_order v
    have hsame : (⟨(m.order.sparing dead).blocks, fun b =>
        ((m.order.sparing dead).code b).filter (· ≠ v)⟩ : Order) =
        m.order.sparing fun w => dead w ∨ w = v := by
      ext1
      · rfl
      · funext b
        simp only [Order.sparing, List.filter_filter]
        refine List.filter_congr fun w _ => ?_
        by_cases hd : dead w <;> by_cases hw : w = v <;> simp [hd, hw]
    exact hsame ▸ ho
  · rintro w (hw | rfl)
    · exact h.idle w hw
    · exact ⟨i, hi, he⟩
  · intro f hf u hu hn w hw
    rw [not_or] at hn ⊢
    refine ⟨h.unread f hf u hu hn.1 w hw, ?_⟩
    rintro rfl
    exact hv f hf u (h.mem_instructionsOf.mpr ⟨hu, hn.1⟩) hw

end

theorem mem_codeOf (ho : m.Ordered o) :
    v ∈ codeOf m ↔ ∃ f ∈ m.liveFunctions, v ∈ m.instructionsOf f := by
  unfold codeOf
  rw [List.mem_flatMap]
  constructor
  · rintro ⟨f, hf, hv⟩
    exact ⟨f, (mem_definedFunctions.mp hf).1, hv⟩
  · rintro ⟨f, hf, hv⟩
    obtain ⟨b, hb, -⟩ := List.mem_flatMap.mp hv
    exact ⟨f, ho.defined_of_mem hf hb, hv⟩

theorem mem_deadCode : v ∈ deadCode m ↔ v ∈ codeOf m ∧ (∀ u ∈ codeOf m, v ∉ readOf m u) ∧
    ∃ i, m.instruction? v = some i ∧ i.hasSideEffects = false := by
  simp [deadCode, isUseless, readValues, readOf, Option.any_eq_true]

/-- One round erases all that is dead when it begins. -/
theorem round (h : m.Erased dead m') :
    Ends ((deadCode m').forM eraseInstruction) m'
      (fun _ => m.Erased fun w => dead w ∨ w ∈ deadCode m') fun _ => False := by
  have congr {t : Module} {dead dead' : ValueId → Prop} (ht : m.Erased dead t)
      (he : ∀ w, dead w ↔ dead' w) : m.Erased dead' t := by
    obtain rfl : dead = dead' := funext fun w => propext (he w)
    exact ht
  refine ends_forM_stages (P := fun done t => m.Erased (fun w => dead w ∨ w ∈ done) t)
    (fun done v rest hl t ht => ?_) (congr h (by simp))
  have hv : v ∈ deadCode m' := by simp [hl]
  obtain ⟨-, hunread, i, hi, he⟩ := mem_deadCode.mp hv
  rw [h.instruction?] at hi
  refine (ht.erase hi he fun f hf u hu hmem => ?_).mono
    (fun _ s hs => congr hs fun w => by simp [or_assoc]) fun _ hs => hs
  have hcode : u ∈ codeOf m' := (mem_codeOf h.ordered).mpr ⟨f, h.liveFunctions ▸ hf,
    h.mem_instructionsOf.mpr ⟨(ht.mem_instructionsOf.mp hu).1,
      fun hd => (ht.mem_instructionsOf.mp hu).2 (.inl hd)⟩⟩
  exact hunread u hcode (h.readOf_eq u ▸ hmem)

/-- Every round erases what the rounds before it left without a reader. -/
theorem rounds (fuel : Nat) (changed : Bool) (h : m.Erased dead m') :
    Ends (eraseRounds fuel changed) m' (fun _ t => ∃ dead, m.Erased dead t) fun _ => False := by
  induction fuel generalizing m' dead changed with
  | zero => exact ⟨dead, h⟩
  | succ fuel ih =>
    unfold eraseRounds
    simp only [ends_bind, ends_get]
    split
    · exact ⟨dead, h⟩
    · rw [ends_bind]
      exact h.round.mono (fun _ t ht => ih true ht) fun _ ht => ht

end Erased

theorem ends_eraseDead (ho : m.Ordered o) :
    Ends eraseDead m (fun _ t => ∃ dead, m.Erased dead t) fun _ => False := by
  unfold eraseDead
  rw [ends_bind, ends_get]
  exact (Erased.refl ho).rounds _ false

end Module
end SsaKit
