import Mathlib.Logic.Function.Iterate
import SsaKit.Proofs.Arrival
import SsaKit.Proofs.Shape

/-! The recursions that a run relies on come to an end by themselves: unrolled as often as there is
fuel, they never ask for what lies below. -/
namespace SsaKit

namespace TypeTable

variable {t : TypeTable}

/-- One level of the zero of a type. -/
def zeroLevel (t : TypeTable) (below : TypeId → Datum) (id : TypeId) : Datum :=
  match t.entry id with
  | .int bits => .int bits 0
  | .float => .single .zero
  | .double => .double .zero
  | .pointer _ => .pointer none
  | .array element length | .vector element length =>
    .aggregate (List.replicate length (below element))
  | .struct _ (some fields) _ => .aggregate (fields.map below)
  | .struct _ none _ | .void | .function _ _ _ => .void

/-- One level of the number of nodes of a type. -/
def footprintLevel (t : TypeTable) (below : TypeId → Option Nat) (id : TypeId) : Option Nat :=
  match t.entry id with
  | .array element length | .vector element length => do
    let each ← below element
    fits ((← fits (each * length)) + 1)
  | .struct _ (some fields) _ =>
    fields.foldlM (fun total field => do fits (total + (← below field))) 1
  | _ => some 1

/-- What is built level by level is the level iterated. -/
theorem eq_iterate_level {α : Type} {level : α → α} {built : Nat → α}
    (h : ∀ n, built (n + 1) = level (built n)) (n : Nat) : built n = level^[n] (built 0) := by
  induction n with
  | zero => rfl
  | succ n ih => rw [Function.iterate_succ_apply', ← ih, h]

theorem zero_eq_iterate (t : TypeTable) (id : TypeId) :
    t.zero id = t.zeroLevel^[t.size + 1] (fun _ => .void) id := by
  have hbuilt := @eq_iterate_level _ t.zeroLevel (zero.build t) (fun _ => rfl)
  exact congrFun (hbuilt _) id

theorem footprint_eq_iterate (t : TypeTable) (id : TypeId) :
    t.footprint id = t.footprintLevel^[t.size + 1] (fun _ => none) id := by
  have hbuilt := @eq_iterate_level _ t.footprintLevel (footprint.count t) (fun _ => rfl)
  exact congrFun (hbuilt _) id

theorem zeroLevel_congr {f g : TypeId → Datum} {id : TypeId}
    (h : ∀ p ∈ (t.entry id).parts, f p = g p) : t.zeroLevel f id = t.zeroLevel g id := by
  unfold zeroLevel
  cases he : t.entry id with
  | array element length | vector element length =>
    dsimp only
    rw [h element (by simp [he, Ty.parts])]
  | struct name fields isPacked =>
    cases fields with
    | none => rfl
    | some fields =>
      dsimp only
      rw [List.map_congr_left fun p hp => h p (by simpa [he, Ty.parts] using hp)]
  | _ => rfl

theorem footprintLevel_congr {f g : TypeId → Option Nat} {id : TypeId}
    (h : ∀ p ∈ (t.entry id).parts, f p = g p) : t.footprintLevel f id = t.footprintLevel g id := by
  unfold footprintLevel
  cases he : t.entry id with
  | array element length | vector element length =>
    dsimp only
    rw [h element (by simp [he, Ty.parts])]
  | struct name fields isPacked =>
    cases fields with
    | none => rfl
    | some fields =>
      have hfields : ∀ p ∈ fields, f p = g p := fun p hp => h p (by simpa [he, Ty.parts] using hp)
      dsimp only
      generalize 1 = total
      clear he
      induction fields generalizing total with
      | nil => rfl
      | cons p fields ih =>
        rw [List.foldlM_cons, List.foldlM_cons, hfields p (by simp)]
        exact bind_congr fun total => ih (fun q hq => hfields q (by simp [hq])) total
  | _ => rfl

/-- Types stand above the types of their parts, on no more levels than there are types. -/
theorem WellFormed.ranked (h : t.WellFormed) : ∃ rank : TypeId → Nat,
    (∀ id, rank id ≤ t.size) ∧ ∀ id, ∀ p ∈ (t.entry id).parts, rank p < rank id := by
  obtain ⟨l, hnodup, hsized, hparts⟩ := h.layered
  refine ⟨fun id => l.idxOf id, fun id => ?_, fun id p hp => ?_⟩
  · have hlength := length_sized_le hnodup fun k hk => (hsized k).mp hk
    exact List.idxOf_le_length.trans hlength
  · have hs : t.isSized id := by
      by_contra hs
      simp [parts_of_not_isSized (Bool.eq_false_iff.mpr hs)] at hp
    obtain ⟨xs, ys, rfl⟩ := List.append_of_mem ((hsized id).mpr hs)
    have hx := hparts xs id ys rfl p hp
    have hid : id ∉ xs := fun hin => (List.nodup_append.mp hnodup).2.2 id hin id (by simp) rfl
    dsimp only
    rw [List.idxOf_append_of_mem hx, List.idxOf_append_of_notMem hid]
    have := List.idxOf_lt_length_of_mem hx
    omega

/-- Unrolled at least to the rank of a type, levels that ask for parts only agree. The ranks need
to fall among the types in question only. -/
theorem iterate_levels {α : Type} {level : (TypeId → α) → TypeId → α} {rank : TypeId → Nat}
    {among : TypeId → Prop}
    (hlocal : ∀ f g id, (∀ p ∈ (t.entry id).parts, f p = g p) → level f id = level g id)
    (hrank : ∀ id, among id → ∀ p ∈ (t.entry id).parts, among p ∧ rank p < rank id)
    (f g : TypeId → α) {n : Nat} {id : TypeId} (hid : among id) (hn : rank id < n) :
    level^[n] f id = level^[n] g id := by
  induction n generalizing id with
  | zero => omega
  | succ n ih =>
    rw [Function.iterate_succ_apply', Function.iterate_succ_apply']
    apply hlocal
    intro p hp
    obtain ⟨hamong, hless⟩ := hrank id hid p hp
    exact ih hamong (by omega)

end TypeTable

namespace Setting

open Run SsaKit.Module

variable {e : Setting} {v : ValueId} {s : Machine}

end Setting
end SsaKit
