import SsaKit.Proofs.Upkeep
import SsaKit.Proofs.VerifiedPasses

/-! Calls and passes, in any order, lead to modules only that pass the check of a module from
outside. -/
namespace SsaKit

open Attempt Transform

namespace Module

variable {m m' : Module} {o : Order}

/-! ### What passes do to any module that can be built -/

theorem dropBlock_changes (phis : List ValueId) (b : BlockId) (ho : m.Ordered o)
    (h : Changed m m') : Ends (dropBlock phis b) m' (fun _ => Changed m) (Changed m) := by
  unfold dropBlock
  rw [ends_bind]
  refine (ends_forM (P := Changed m) (fun v _ t ht => ?_) h).mono (fun _ t ht => ?_) fun _ ht => ht
  · rw [ends_discard]
    have hq : Quietly (removeIncoming v b) t := removeIncoming_quietly v b
    exact hq.mono (fun _ _ hu => ht.trans (Quieted.changed hu)) fun _ hu => ht.trans (Quieted.changed hu)
  · obtain ⟨o', ho'⟩ := Changed.ordered ht ho
    exact ends_removeBlock ho' fun u _ hu _ _ => ht.trans hu

/-- Blocks are cut off by single changes, in modules that were never verified too. -/
theorem removeUnreachable_changes (ho : m.Ordered o) :
    Ends removeUnreachable m (fun _ => Changed m) (Changed m) := by
  unfold removeUnreachable
  simp only [ends_bind, ends_get, ends_pure]
  refine ends_mapM_stages (P := fun _ => Changed m) (fun _ f _ _ t ht => ?_) .refl
  unfold removeUnreachableIn
  simp only [ends_bind, ends_get]
  split
  · exact ht
  · simp only [ends_bind, ends_pure]
    exact ends_forM (fun b _ u hu => dropBlock_changes _ b ho hu) ht

theorem foldConstants_changes (hs : m.Sound) (ho : m.Ordered o) :
    Ends foldConstants m (fun _ => Changed m) (Changed m) := by
  unfold foldConstants
  rw [ends_bind, ends_get]
  have hfolding : Folding m [] m := ⟨hs, ⟨o, ho⟩, .refl m, by simp⟩
  refine (foldRounds_keeps (P := Changed m) (fun t v bits word ht hv hc h => ?_) _ false hfolding
    .refl).mono (fun _ _ ht => ht.2) nofun
  exact h.trans (changed_folded ht hv hc)

/-- A pass changes a module by single changes, whether it succeeds or fails. -/
theorem Healthy.pass_changes (h : m.Healthy) (p : Pass) :
    Ends p.run m (fun _ => Changed m) (Changed m) := by
  cases p with
  | globalDce =>
    exact (ends_removeUnneeded h.sound h.ordered h.grounded h.listsGlobals).mono
      (fun _ t ht => Stripped.changed ht) nofun
  | dce =>
    refine (ends_eraseDead h.ordered).mono (fun _ t ht => ?_) nofun
    obtain ⟨dead, ht⟩ := ht
    exact ht.changed
  | unreachableBlockElim => exact removeUnreachable_changes h.ordered
  | constProp => exact foldConstants_changes h.sound h.ordered

theorem healthy_empty (name : String) : Healthy { name } :=
  Reachable.healthy ⟨none, Builder.reachable_empty name⟩

end Module

namespace Builder

open SsaKit.Module

variable {s s' : Builder}

/-- The builder after one pass. -/
def pass (s : Builder) (p : Pass) : Builder := { s with module := (p.run.outcome s.module).2 }

/-- One call on handles of the module or one pass, successful or not. -/
def Advances (s s' : Builder) : Prop :=
  Called s s' ∨ ∃ p : Pass, s' = s.pass p

/-- Every state that calls and passes lead to from an empty module. -/
def Attained (s : Builder) : Prop :=
  ∃ name, Relation.ReflTransGen Advances { module := { name } } s

/-- What calls and passes keep. -/
structure Sturdy (s : Builder) : Prop where
  healthy : s.module.Healthy
  kempt : s.module.Kempt
  cursor : ∀ p ∈ s.cursor, s.module.blocks.Has p.block

theorem Sturdy.changed (h : s.Sturdy) (hc : Changed s.module s'.module)
    (hcursor : ∀ p ∈ s'.cursor, s'.module.blocks.Has p.block) : s'.Sturdy :=
  ⟨Changed.healthy hc h.healthy, Changed.kempt hc h.healthy.ordered h.kempt, hcursor⟩

theorem Sturdy.changes (h : s.Sturdy) (ha : Advances s s') : Changed s.module s'.module := by
  obtain hc | ⟨p, rfl⟩ := ha
  · have hsane : s.Sane := ⟨h.healthy.sound, h.healthy.ordered, h.cursor⟩
    exact hsane.changed hc
  · exact (h.healthy.pass_changes p).state

theorem Sturdy.advances (h : s.Sturdy) (ha : Advances s s') : s'.Sturdy := by
  have hc := h.changes ha
  refine h.changed hc ?_
  obtain hcall | ⟨p, rfl⟩ := ha
  · have hsane : s.Sane := ⟨h.healthy.sound, h.healthy.ordered, h.cursor⟩
    exact (hsane.called hcall).cursor
  · exact fun q hq => (Changed.extends hc).blocks _ (h.cursor q hq)

theorem Attained.sturdy (h : s.Attained) : s.Sturdy := by
  obtain ⟨name, h⟩ := h
  induction h with
  | refl => exact ⟨healthy_empty name, kempt_empty name, by simp⟩
  | tail _ ha ih => exact ih.advances ha

/-- Calls and passes add up to changes of the empty module. -/
theorem Attained.changed (h : s.Attained) : ∃ name, Changed { name } s.module := by
  obtain ⟨name, h⟩ := h
  refine ⟨name, ?_⟩
  induction h with
  | refl => exact .refl
  | tail hs ha ih => exact ih.trans ((Attained.sturdy ⟨name, hs⟩).changes ha)

theorem Reachable.attained (h : s.Reachable) : s.Attained := by
  obtain ⟨name, h⟩ := h
  exact ⟨name, Relation.ReflTransGen.mono (fun _ _ => Or.inl) _ _ h⟩

theorem Attained.pass (h : s.Attained) (p : Pass) : (s.pass p).Attained := by
  obtain ⟨name, h⟩ := h
  exact ⟨name, h.tail (.inr ⟨p, rfl⟩)⟩

/-- Whatever calls and passes make of an empty module, in any order and with any failures, passes the
check of a module from outside. -/
theorem Attained.integrity_checked (h : s.Attained) : s.module.checkIntegrity = .ok () := by
  have hs := h.sturdy
  exact checkIntegrity_eq_ok.mpr
    (hs.kempt.intact hs.healthy.sound hs.healthy.ordered hs.healthy.listsGlobals)

/-- A program that links an instruction twice, a refused call in between, and goes on with a function
and a global that were removed. -/
def battering : List Call :=
  [.types (.ofType (.int 32)),
    .symbol (.declareFunction "kept" ⟨0⟩ [⟨0⟩] false),
    .symbol (.declareFunction "lost" ⟨0⟩ [⟨0⟩] false),
    .symbol (.addGlobal ⟨0⟩ "g"),
    .layout (.appendBlock ⟨0⟩ "entry"),
    .setCursor (some { block := ⟨0⟩ }),
    .emission (.binary .add ⟨0⟩ ⟨0⟩),
    .emission (.ret ⟨0⟩),
    .layout (.appendInstruction ⟨0⟩ ⟨3⟩),
    .layout (.detachInstruction ⟨3⟩),
    .layout (.insertInstructionBefore ⟨4⟩ ⟨3⟩),
    .symbol (.removeGlobal ⟨2⟩),
    .symbol (.removeFunction ⟨1⟩),
    .layout (.appendBlock ⟨1⟩ "late")]

/-- The builder after those calls. -/
def battered : Builder := Builder.replay { module := { name := "battering" } } battering

theorem reachable_battered : battered.Reachable :=
  Builder.Replays.reachable (by decide +kernel) (Builder.reachable_empty "battering")

theorem battered_checked :
    battered.Attained ∧ battered.module.checkIntegrity = .ok () ∧
      (battered.pass .dce).module.checkIntegrity = .ok () := by
  have h := reachable_battered.attained
  exact ⟨h, Attained.integrity_checked h, Attained.integrity_checked (h.pass .dce)⟩

end Builder
end SsaKit
