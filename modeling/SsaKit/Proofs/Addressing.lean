import SsaKit.Proofs.Framing
import SsaKit.Proofs.Returns

/-! Derived pointers in modules that are built from new instructions only: the indices lead from
what the base points to to what the result points to. -/
namespace SsaKit

open Attempt SsaKit.Module

namespace Module

variable {m m' : Module} {v init : ValueId} {f : FunctionId} {b : BlockId}

/-- Every derived pointer of the second module is one of the first. -/
def Inherits (m m' : Module) : Prop :=
  ∀ v base indices, m'.instruction? v = some (.elementPtr base indices) →
    m.instruction? v = some (.elementPtr base indices)

instance : Std.Refl Inherits := ⟨fun _ _ _ _ h => h⟩

instance : IsTrans Module Inherits := ⟨fun _ _ _ h h' v base indices hv =>
  h v base indices (h' v base indices hv)⟩

theorem inherits_of_kindOf (h : ∀ v, m'.kindOf v = m.kindOf v) : m.Inherits m' := by
  intro v base indices hv
  rw [instruction?, h v] at hv
  exact hv

theorem inherits_revalued {g : Value → Value} (h : (g (m.value v)).kind = (m.value v).kind ∨
    ∀ base indices, (g (m.value v)).kind ≠ .instruction (.elementPtr base indices)) :
    m.Inherits (m.revalued v g) := by
  by_cases hv : m.values.Has v
  · intro w base indices hw
    have hk := kindOf_of_instruction? hw
    rw [kindOf, value_revalued hv] at hk
    split at hk
    · rename_i he
      obtain h | h := h
      · rw [h] at hk
        have hk : m.kindOf w = .instruction (.elementPtr base indices) := he ▸ hk
        simp [instruction?, hk, ValueKind.instruction?]
      · exact (h base indices hk).elim
    · have hk : m.kindOf w = .instruction (.elementPtr base indices) := hk
      simp [instruction?, hk, ValueKind.instruction?]
  · rw [revalued_of_not_has hv]
    exact Std.Refl.refl m

theorem inherits_pushed {type : TypeId} {kind : ValueKind}
    (h : ∀ base indices, kind ≠ .instruction (.elementPtr base indices)) :
    m.Inherits (m.pushed type kind) := by
  intro w base indices hw
  have hk := kindOf_of_instruction? hw
  by_cases hold : m.values.Has w
  · have hk : m.kindOf w = .instruction (.elementPtr base indices) := by
      rw [← hk, kindOf, kindOf, value_pushed hold]
    simp [instruction?, hk, ValueKind.instruction?]
  · have hnew : (m.pushed type kind).values.Has w := has_of_kindOf (by simp [hk])
    obtain hnew | rfl := has_pushed.mp hnew
    · exact (hold hnew).elim
    · rw [kindOf, value_pushed_new] at hk
      exact (h base indices hk).elim

theorem Prepares.inherits (h : Prepares m m') : m.Inherits m' := by
  cases h with
  | types t _ => exact inherits_of_kindOf fun _ => rfl
  | constant type kind hc _ _ _ =>
    refine inherits_pushed fun base indices he => ?_
    rw [he] at hc
    cases hc

theorem Prepared.inherits (h : Prepared m m') : m.Inherits m' := by
  induction h with
  | refl => exact Std.Refl.refl m
  | tail _ hs ih => exact IsTrans.trans _ _ _ ih hs.inherits

/-! ### Operations -/

theorem inherits_nameless : Nameless Inherits where
  kept hv _ _ _ := inherits_of_kindOf fun v => congrArg Value.kind (hv v)
  pushed _ _ _ hk := inherits_pushed hk
  rekinded _ _ _ hk := inherits_revalued (.inr hk)
  renamed hk _ := inherits_of_kindOf hk

end Module

theorem SymbolCall.run_inherits (c : SymbolCall) : Stays Inherits c.run := by
  cases c with
  | removeFunction f =>
    exact (removeFunction_framed inherits_nameless.toFramed
      (fun _ _ => inherits_of_kindOf fun _ => rfl) f).map _
  | _ => exact SymbolCall.run_nameless inherits_nameless (by simp)

/-- A change of the layout makes no derived pointer, but a replacement may change one. -/
theorem LayoutCall.run_inherits (c : LayoutCall) (hc : ∀ old new, c ≠ .replaceAllUses old new) :
    Stays Inherits c.run :=
  LayoutCall.run_framed inherits_nameless.toFramed hc

/-! ### Derived pointers -/

namespace Module

variable {m m' : Module}

/-- The type of every derived pointer is the one that its indices lead to. -/
def Derived (m : Module) : Prop :=
  ∀ v base indices, m.instruction? v = some (.elementPtr base indices) →
    m.Derives base indices (m.typeOf v)

theorem Inherits.derived (h : m.Inherits m') (hx : m.Extends m') (hs : m.Sound) (hd : m.Derived) :
    m'.Derived := by
  intro v base indices hv
  have hold := h v base indices hv
  have hbase : m.values.Has base := hs.operands_has hold base (by simp [Instruction.operands])
  have hhas : m.values.Has v := has_of_kindOf (by simp [kindOf_of_instruction? hold])
  rw [hx.typeOf_eq hhas]
  exact Builder.derives_extends hx hbase (hd v base indices hold)

end Module

/-- The calls that give an old instruction another place or other operands. -/
def Call.rewires : Call → Bool
  | layout (.appendInstruction _ _) | layout (.insertInstructionBefore _ _)
  | layout (.replaceAllUses _ _) => true
  | _ => false

namespace Builder

variable {s s' : Builder} {c : Call} {v : ValueId}

/-- A pointer that was just derived has the type that its indices lead to. -/
theorem Emitted.derived (he : Emitted s v s') (hs : s.Sane) (hd : s.module.Derived) :
    s'.module.Derived := by
  obtain ⟨-, m, p, type, i, hm, -, -, ht, hk, -, hderives, rfl, hmodule⟩ := he
  have hsound : m.Sound := Changed.sound (Quieted.changed hm.quieted) hs.sound
  have hm' : m.Derived := hm.inherits.derived hm.extends hs.sound hd
  have hx : m.Extends s'.module := by
    rw [hmodule]
    exact (extends_pushed type _).trans (extends_linked _ p _)
  intro w base indices hw
  have hkind := kindOf_of_instruction? hw
  rw [hmodule, kindOf_linked] at hkind
  by_cases hold : m.values.Has w
  · have hkind : m.kindOf w = .instruction (.elementPtr base indices) := by
      rw [← hkind, kindOf, kindOf, value_pushed hold]
    have hi : m.instruction? w = some (.elementPtr base indices) := by
      simp [instruction?, hkind, ValueKind.instruction?]
    have hbase : m.values.Has base := hsound.operands_has hi base (by simp [Instruction.operands])
    rw [hx.typeOf_eq hold]
    exact derives_extends hx hbase (hm' w base indices hi)
  · have hnew : (m.pushed type (.instruction i)).values.Has w := has_of_kindOf (by simp [hkind])
    obtain rfl : w = ⟨m.values.size⟩ := (has_pushed.mp hnew).resolve_left hold
    rw [kindOf, value_pushed_new] at hkind
    obtain rfl : i = .elementPtr base indices := by simpa using hkind
    have htype : s'.module.typeOf ⟨m.values.size⟩ = type := by
      rw [hmodule, (extends_linked _ p _).typeOf_eq (has_pushed_new m type _), typeOf_pushed_new]
    rw [htype]
    exact derives_extends hx (hk.1 base (by simp [Instruction.operands])) (hderives _ _ rfl)

theorem perform_derived (hs : s.Sane) (hd : s.module.Derived) (hv : c.Valid s.module)
    (hc : c.rewires = false) :
    Ends c.perform s (fun _ s' => s'.module.Derived) fun s' => s'.module.Derived := by
  have hfollows := perform_reorders hs hv
  have inherits {m : Module} (hx : s.module.Extends m) (hi : s.module.Inherits m) : m.Derived :=
    hi.derived hx hs.sound hd
  have stays (h : Stays (fun s s' : Builder => s.module.Inherits s'.module) c.perform) :
      Ends c.perform s (fun _ s' => s'.module.Derived) fun s' => s'.module.Derived := by
    refine (hfollows.and (h s)).mono (fun _ s' hr => ?_) fun s' hr => ?_
    · obtain ⟨⟨o', hf, -⟩, hi⟩ := hr
      exact inherits (Changed.extends hf.changed) hi
    · exact inherits (Changed.extends hr.1.changed) hr.2
  have edit {α : Type} {step : Edit α} (h : Stays Inherits step) :
      Stays (fun s s' : Builder => s.module.Inherits s'.module) (onModule step) :=
    stays_onPart h fun _ _ h => h
  cases c with
  | emission e =>
    simp only [Call.perform, ends_map]
    refine (emission_emits hs.sound hs.ordered hv).mono (fun v s' hv => ?_) fun s' hp => ?_
    · obtain ⟨rfl, -⟩ | he := hv
      · exact hd
      · exact he.derived hs hd
    · exact inherits hp.2.extends hp.2.inherits
  | types c => exact stays (edit (onTypes_framed inherits_nameless.toFramed _))
  | constant c =>
    simp only [Call.perform, ends_map, ends_onModule]
    refine (ConstantCall.run_prepared hs.sound.types.indexed hv.1 hv.2).mono (fun _ m hp => ?_) fun m hp => ?_
    · exact inherits (Prepared.extends hp) (Prepared.inherits hp)
    · exact inherits (Prepared.extends hp) (Prepared.inherits hp)
  | symbol c => exact stays (edit c.run_inherits)
  | layout c =>
    refine stays (edit (c.run_inherits fun old new he => ?_))
    rw [he] at hc
    cases hc
  | setCursor p =>
    simp only [Call.perform, ends_map, Builder.setCursor, ends_modify]
    exact hd
  | atInstruction v =>
    simp only [Call.perform, ends_map, Builder.atInstruction, ends_bind, ends_readModule]
    split
    · exact hd
    · exact hd

/-- One call that changes no old instruction. -/
def Assembles (s s' : Builder) : Prop :=
  ∃ c : Call, c.rewires = false ∧ c.Valid s.module ∧ s' = (c.perform.outcome s).2

/-- Every state that such calls lead to from an empty module. -/
def Assembled (s : Builder) : Prop :=
  ∃ name, Relation.ReflTransGen Assembles { module := { name } } s

theorem Assembles.builds (h : s.Assembles s') : s.Builds s' := by
  obtain ⟨c, hc, hv, he⟩ := h
  refine ⟨c, ?_, hv, he⟩
  unfold Call.relinks
  split
  · cases hc
  · cases hc
  · rfl

theorem Assembled.built (h : s.Assembled) : s.Built := by
  obtain ⟨name, h⟩ := h
  exact ⟨name, Relation.ReflTransGen.mono (fun _ _ => Assembles.builds) _ _ h⟩

theorem Assembled.derived (h : s.Assembled) : s.module.Derived := by
  obtain ⟨name, h⟩ := h
  induction h with
  | refl =>
    intro v base indices hv
    have hk := kindOf_of_instruction? hv
    rw [kindOf, value_of_not_has (by simp [Arena.Has])] at hk
    cases hk
  | tail hsteps hstep ih =>
    have hsane : Sane _ := (Assembled.built ⟨name, hsteps⟩).reachable.sane
    obtain ⟨c, hc, hv, rfl⟩ := hstep
    exact (perform_derived hsane ih hv hc).state

theorem assembled_empty (name : String) : Assembled { module := { name } } := ⟨name, .refl⟩

theorem Replays.assembled {calls : List Call} (h : s.Replays calls)
    (hc : ∀ c ∈ calls, c.rewires = false) (hs : s.Assembled) : (s.replay calls).Assembled := by
  induction calls generalizing s with
  | nil => exact hs
  | cons c calls ih =>
    obtain ⟨hv, h⟩ := h
    obtain ⟨name, hs⟩ := hs
    obtain ⟨hc, hcalls⟩ := List.forall_mem_cons.mp hc
    exact ih h hcalls ⟨name, hs.tail ⟨c, hc, hv, rfl⟩⟩

end Builder

/-- A module that such calls lead to. -/
def Module.Assembled (m : Module) : Prop :=
  ∃ cursor, Builder.Assembled { module := m, cursor }

theorem Module.Assembled.built {m : Module} (h : m.Assembled) : m.Built := by
  obtain ⟨cursor, h⟩ := h
  exact ⟨cursor, h.built⟩

theorem Module.Assembled.derived {m : Module} (h : m.Assembled) : m.Derived := by
  obtain ⟨cursor, h⟩ := h
  exact h.derived

end SsaKit
