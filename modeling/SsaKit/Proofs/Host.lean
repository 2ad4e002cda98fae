import SsaKit.Proofs.Fault

/-! The standard host functions hand in no address, and fail for reasons of their own, never for the
shape of a value. -/
namespace SsaKit

/-- Whether the box is an address. -/
def Box.isPointer : Box → Bool
  | .pointer _ => true
  | _ => false

namespace Host

/-- A host function that hands in no address and no fault of shapes. -/
def Decent (h : HostFunction) : Prop :=
  ∀ boxes, Fault.Ends (h boxes) (fun r => r.isPointer = false) Fault.Shapely

theorem single_shapely (name : String) (boxes : List Box) :
    Fault.Ends (single name boxes) (fun _ => True) Fault.Shapely := by
  unfold single
  split
  · trivial
  · exact rfl

theorem double_shapely (name : String) (box : Box) :
    Fault.Ends (double name box) (fun _ => True) Fault.Shapely := by
  cases box with
  | double _ | single _ => trivial
  | int _ _ | pointer _ | void => exact rfl

theorem absolute_decent (name : String) : Decent (absolute name) := by
  intro boxes
  unfold absolute
  rw [Fault.ends_bind]
  refine (single_shapely name boxes).mono (fun box _ => ?_) fun _ he => he
  split
  · trivial
  · exact rfl

theorem unary_decent (name : String) (op : Double → Double) : Decent (unary name op) := by
  intro boxes
  unfold unary
  rw [Fault.ends_bind]
  refine (single_shapely name boxes).mono (fun box _ => ?_) fun _ he => he
  rw [Fault.ends_bind]
  exact (double_shapely name box).mono (fun _ _ => rfl) fun _ he => he

theorem power_decent : Decent power := by
  intro boxes
  unfold power
  split
  · rename_i base exponent
    rw [Fault.ends_bind]
    refine (double_shapely "pow" base).mono (fun x _ => ?_) fun _ he => he
    rw [Fault.ends_bind]
    exact (double_shapely "pow" exponent).mono (fun _ _ => rfl) fun _ he => he
  · exact rfl

theorem standard_decent : ∀ p ∈ standard.entries, Decent p.2 := by
  intro p hp
  unfold standard at hp
  rcases List.mem_append.mp hp with hp | hp
  · rcases List.mem_append.mp hp with hp | hp
    · obtain ⟨name, -, rfl⟩ := List.mem_map.mp hp
      exact absolute_decent name
    · obtain ⟨⟨name, op⟩, -, rfl⟩ := List.mem_map.mp hp
      exact unary_decent name op
  · obtain rfl := List.mem_singleton.mp hp
    exact power_decent

theorem standard_ends (name : String) (boxes : List Box) :
    Fault.Ends (standard.call name boxes) (fun r => r.isPointer = false) Fault.Shapely := by
  unfold call
  cases hf : standard.find? name with
  | none => exact rfl
  | some function =>
    obtain ⟨xs, ys, hxy, -⟩ := List.lookup_eq_some_iff.mp hf
    exact standard_decent (name, function) (by simp [hxy]) boxes

/-- No call of the standard host fails for the shape of a value. -/
theorem standard_shapely (name : String) (boxes : List Box) :
    Fault.Ends (standard.call name boxes) (fun _ => True) Fault.Shapely :=
  (standard_ends name boxes).mono (fun _ _ => trivial) fun _ he => he

/-- No call of the standard host gives an address. -/
theorem isPointer_of_standard {name : String} {boxes : List Box} {r : Box}
    (h : standard.call name boxes = .ok r) : r.isPointer = false := by
  have hends := standard_ends name boxes
  rw [h] at hends
  exact hends

end Host

end SsaKit
