import SsaKit.Proofs.Reachable

/-! The links of every reachable module are ordinary lists, and every call acts on these lists as it
says. -/
namespace SsaKit

open Attempt

/-- The chains of all owners stand for lists: following the links from the first node meets the
list, following them from the last node meets its reverse, and a node names the owner whose list it
is in. -/
structure Represents {kind owner : Entity} {α : Type} (chain : Handle owner → Chain kind)
    (a : Arena kind owner α) (list : Handle owner → List (Handle kind)) : Prop where
  forward : ∀ q, Chain.Walk a.next? (chain q).first (list q)
  backward : ∀ q, Chain.Walk a.prev? (chain q).last (list q).reverse
  length : ∀ q, (chain q).length = (list q).length
  nodup : ∀ q, (list q).Nodup
  parent : ∀ k q, a.parent? k = some q ↔ k ∈ list q

theorem Threads.represents {kind owner : Entity} {α : Type} {chain : Handle owner → Chain kind}
    {a : Arena kind owner α} {list : Handle owner → List (Handle kind)}
    (h : Threads chain a list) : Represents chain a list where
  forward q := (h.holds q).walk_next
  backward q := (h.holds q).walk_prev
  length q := (h.holds q).length
  nodup q := (h.holds q).nodup
  parent := h.parent

/-- Functions stand for lists of blocks, and blocks, removed or not, for lists of instructions. -/
structure Module.WellLinked (m : Module) : Prop where
  blocks : Represents (fun f => (m.function f).chain) m.blocks m.blocksOf
  code : Represents (fun b => (m.block b).chain) m.values m.instructions

theorem Module.Ordered.wellLinked {m : Module} (h : m.Ordered m.order) : m.WellLinked where
  blocks := h.blocks.represents
  code := h.code.represents

namespace Builder

variable {s : Builder} {c : Call}

/-- Requests that cannot be refused. -/
def Admits (s : Builder) : Call → Prop
  | .layout c => c.Admits s.module
  | _ => False

theorem Sane.admits (h : s.Sane) (hc : s.Admits c) :
    Ends c.perform s (fun _ _ => True) fun _ => False := by
  cases c with
  | layout c =>
    change Ends (onModule c.run) s _ _
    rw [ends_onModule]
    exact LayoutCall.run_succeeds h.ordered hc
  | _ => exact hc.elim

theorem Sane.acts (h : s.Sane) (hc : c.Valid s.module) :
    Ends c.perform s (fun r s' => c.Reorders s s.module.order s'.module.order r)
      fun s' => s'.module.order = s.module.order ∧ ¬ s.Admits c := by
  have hr := perform_reorders h hc
  have ha := fun ha => Sane.admits h (c := c) ha
  unfold Ends at hr ha ⊢
  cases ho : c.perform.outcome s with
  | mk r s' =>
    rw [ho] at hr ha
    cases r with
    | ok r =>
      obtain ⟨o', hf, hspec⟩ := hr
      obtain rfl : o' = s'.module.order := hf.ordered.order_eq.symm
      exact hspec
    | error e => exact ⟨hr.ordered.order_eq, ha⟩

/-- In every reachable state the links stand for lists, and every further call on handles of the
module does to the lists what it says, or is refused and leaves them alone. -/
theorem Reachable.program_order (h : s.Reachable) :
    s.module.WellLinked ∧ ∀ c : Call, c.Valid s.module →
      Ends c.perform s (fun r s' => c.Reorders s s.module.order s'.module.order r)
        fun s' => s'.module.order = s.module.order ∧ ¬ s.Admits c :=
  ⟨h.sane.ordered.wellLinked, fun _ hc => h.sane.acts hc⟩

/-- The first block of the scaling program can be removed, which empties it. -/
theorem scaled_program_order :
    scaled.module.WellLinked ∧ Ends (Call.layout (.removeBlock ⟨0⟩)).perform scaled
      (fun _ s' => scaled.module.order.RemovesBlock s'.module.order ⟨0⟩)
      fun s' => s'.module.order = scaled.module.order ∧ ¬ True := by
  have hreachable := reachable_scaled
  have hvalid : Call.Valid scaled.module (.layout (.removeBlock ⟨0⟩)) := by decide +kernel
  generalize scaled = s at hreachable hvalid ⊢
  have h := Reachable.program_order hreachable
  exact ⟨h.1, h.2 _ hvalid⟩

end Builder
end SsaKit
