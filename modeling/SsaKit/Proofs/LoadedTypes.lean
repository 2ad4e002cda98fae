import SsaKit.Proofs.Containment
import SsaKit.Proofs.RoundTrip

/-! Types of tables that come from outside. What such a table is checked for leaves one way for a type
to hold itself by value: through a named struct that does. -/
namespace SsaKit

namespace TypeTable

open Relation

variable {t : TypeTable} {p s id : TypeId}

def IsNamed (t : TypeTable) (id : TypeId) : Prop := (t.entry id).structName ≠ none

theorem mem_children_of_mem_parts {ty : Ty} (h : p ∈ ty.parts) : p ∈ ty.children := by
  cases ty <;> simp_all [Ty.parts, Ty.children]

theorem Intact.contains_part (h : t.Intact) (hp : t.Holds p id) : t.contains p :=
  (h id (contains_of_holds hp)).children p (mem_children_of_mem_parts hp)

/-- A chain of types that hold each other goes up in the table, or through a named struct. -/
theorem Intact.chain_cases (h : t.Intact) (hp : TransGen t.Holds p id) : p.index < id.index ∨
    ∃ s, t.IsNamed s ∧ TransGen t.Holds p s ∧ ReflTransGen t.Holds s id := by
  have hlink {q k : TypeId} (hq : t.Holds q k) (hn : ¬ t.IsNamed k) : q.index < k.index :=
    (h k (contains_of_holds hq)).earlier (not_not.mp hn) q (mem_children_of_mem_parts hq)
  induction hp with
  | @single id hp =>
    by_cases hn : t.IsNamed id
    · exact .inr ⟨id, hn, .single hp, .refl⟩
    · exact .inl (hlink hp hn)
  | @tail k id hchain hk ih =>
    by_cases hn : t.IsNamed id
    · exact .inr ⟨id, hn, hchain.tail hk, .refl⟩
    · obtain hless | ⟨s, hs, hps, hsk⟩ := ih
      · exact .inl (hless.trans (hlink hk hn))
      · exact .inr ⟨s, hs, hps, hsk.tail hk⟩

theorem Intact.named_of_cycle (h : t.Intact) (hself : TransGen t.Holds id id) :
    ∃ s, t.IsNamed s ∧ TransGen t.Holds id s ∧ TransGen t.Holds s id := by
  obtain hless | ⟨s, hs, hto, hfrom⟩ := h.chain_cases hself
  · exact absurd hless (Nat.lt_irrefl _)
  · rcases reflTransGen_iff_eq_or_transGen.mp hfrom with rfl | hfrom
    · exact ⟨id, hs, hself, hself⟩
    · exact ⟨s, hs, hto, hfrom⟩

/-- A recursion over the parts of a type comes to its end unless it meets a named struct that holds
itself. -/
theorem Intact.acc_iff (h : t.Intact) : Acc t.Holds id ↔
    ∀ s, t.IsNamed s → ReflTransGen t.Holds s id → ¬ TransGen t.Holds s s := by
  constructor
  · intro hid s _ hreach
    rcases reflTransGen_iff_eq_or_transGen.mp hreach with rfl | hreach
    · exact not_holds_itself hid
    · exact not_holds_itself (hid.inv_of_transGen hreach)
  · intro hnamed
    refine acc_of_acyclic (fun p id hp => h.contains_part hp) fun k hk hself => ?_
    obtain ⟨s, hs, hto, hfrom⟩ := h.named_of_cycle hself
    exact hnamed s hs (hfrom.to_reflTransGen.trans hk) (hfrom.trans hto)

/-- What an accepted table is safe from. A chain by which a type holds itself passes through a named
struct, so that no type holds itself exactly if no named struct does. Where none that does is at hand,
the recursions over the parts of a type are well-founded, and the zero of the type and the number of
its nodes are the one answer to their equations. -/
theorem accepted_types (h : t.checkHandles = .ok ()) :
    (∀ id, TransGen t.Holds id id →
      ∃ s, t.IsNamed s ∧ TransGen t.Holds id s ∧ TransGen t.Holds s id) ∧
    ((∀ id, ¬ TransGen t.Holds id id) ↔ ∀ s, t.IsNamed s → ¬ TransGen t.Holds s s) ∧
    ∀ id, (∀ s, t.IsNamed s → ReflTransGen t.Holds s id → ¬ TransGen t.Holds s s) →
      Acc t.Holds id ∧ t.Resolves t.zeroLevel t.zero id ∧
        t.Resolves t.footprintLevel t.footprint id := by
  have hi : t.Intact := checkHandles_eq_ok.mp h
  have hin (p id : TypeId) (hp : t.Holds p id) : t.contains p := hi.contains_part hp
  refine ⟨fun id hself => hi.named_of_cycle hself,
    ⟨fun hnone s _ => hnone s, fun hnone id hself => ?_⟩, fun id hnone => ?_⟩
  · obtain ⟨s, hs, hto, hfrom⟩ := hi.named_of_cycle hself
    exact hnone s hs (hfrom.trans hto)
  · have hid : Acc t.Holds id := hi.acc_iff.mpr hnone
    exact ⟨hid, zero_resolves hin hid, footprint_resolves hin hid⟩

end TypeTable

/-- A module with two named structs. The first one is made of arrays of itself, which no operation
would have let it be. -/
def looped : Module where
  name := "looped"
  types := .ofEntries #[.int 32, .struct (some "loop") (some [⟨2⟩]) false, .array ⟨1⟩ 2,
    .struct (some "pair") (some [⟨0⟩, ⟨0⟩]) false]

open Relation in
/-- The other struct has a zero and a number of nodes all the same. -/
theorem looped_pair : looped.types.checkHandles = .ok () ∧
    (∀ s, looped.types.IsNamed s → ReflTransGen looped.types.Holds s ⟨3⟩ →
      ¬ TransGen looped.types.Holds s s) ∧
    looped.types.footprint ⟨3⟩ = looped.types.footprintLevel looped.types.footprint ⟨3⟩ := by
  have hnumber (p : TypeId) : ¬ looped.types.Holds p ⟨0⟩ := by
    simp [TypeTable.Holds, looped, TypeTable.entry, Ty.parts]
  have hpair (p : TypeId) (hp : looped.types.Holds p ⟨3⟩) : p = ⟨0⟩ := by
    simpa [TypeTable.Holds, looped, TypeTable.entry, Ty.parts] using hp
  have hself (s : TypeId) (hs : ReflTransGen looped.types.Holds s ⟨3⟩) :
      ¬ TransGen looped.types.Holds s s := by
    intro hcycle
    have hreach : TransGen looped.types.Holds s ⟨3⟩ := hcycle.trans_left hs
    obtain ⟨p, hchain, hp⟩ := TransGen.tail'_iff.mp hreach
    rw [hpair p hp] at hchain
    obtain ⟨q, -, hq⟩ := TransGen.tail'_iff.mp (hcycle.trans_left hchain)
    exact hnumber q hq
  have hchecked : looped.types.checkHandles = .ok () := by decide +kernel
  obtain ⟨-, -, hends⟩ := TypeTable.accepted_types hchecked
  obtain ⟨-, -, hfootprint⟩ := hends ⟨3⟩ fun s _ hs => hself s hs
  exact ⟨hchecked, fun s _ hs => hself s hs, hfootprint.1⟩

open Relation in
/-- It is loaded, with a struct that holds itself and has no zero. -/
theorem looped_loaded : Module.load looped.store = .ok looped.restored ∧
    looped.restored.types.checkHandles = .ok () ∧
    TransGen looped.restored.types.Holds ⟨1⟩ ⟨1⟩ ∧ ¬ Acc looped.restored.types.Holds ⟨1⟩ ∧
    ¬ ∃ f : TypeId → Datum, ∀ id, f id = looped.restored.types.zeroLevel f id := by
  have hload : Module.load looped.store = .ok looped.restored :=
    Module.load_store (by decide +kernel)
      ⟨by decide, by decide, by decide, by decide, by decide, by decide, by decide, by decide,
        by decide⟩ (by decide)
  have harray : looped.types.Holds ⟨1⟩ ⟨2⟩ := by simp [TypeTable.Holds, looped, TypeTable.entry, Ty.parts]
  have hstruct : looped.types.Holds ⟨2⟩ ⟨1⟩ := by simp [TypeTable.Holds, looped, TypeTable.entry, Ty.parts]
  have hself : TransGen looped.types.Holds ⟨1⟩ ⟨1⟩ := .tail (.single harray) hstruct
  refine ⟨hload, by decide +kernel, hself, fun hacc => TypeTable.not_holds_itself hacc hself, ?_⟩
  rintro ⟨f, hf⟩
  have h1 : f ⟨1⟩ = .aggregate [f ⟨2⟩] := hf ⟨1⟩
  have h2 : f ⟨2⟩ = .aggregate [f ⟨1⟩, f ⟨1⟩] := hf ⟨2⟩
  have := congrArg sizeOf h1
  rw [h2] at this
  simp at this
  omega

end SsaKit
