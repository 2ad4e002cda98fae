import Mathlib.Algebra.Order.BigOperators.Group.List
import Mathlib.Algebra.Order.Group.Nat
import SsaKit.Proofs.Accounting
import SsaKit.Proofs.Relocation
import SsaKit.Proofs.Shape

/-! How many nodes the live cells of memory hold, beside how many they are accounted for. -/
namespace SsaKit

namespace Datum

variable {c d old changed : Datum} {ds : List Datum} {i : Nat} {path : List Nat}

theorem nodesAll_eq (ds : List Datum) : nodesAll ds = (ds.map nodes).sum := by
  induction ds with
  | nil => rfl
  | cons d ds ih => simp [nodesAll, ih]

/-- The nodes of the old member go and those of the new one come. -/
theorem nodesAll_set (h : ds[i]? = some c) :
    nodesAll (ds.set i d) + c.nodes = nodesAll ds + d.nodes := by
  induction ds generalizing i with
  | nil => simp at h
  | cons x ds ih =>
    cases i with
    | zero =>
      obtain rfl : x = c := by simpa using h
      simp only [List.set_cons_zero, nodesAll]
      omega
    | succ i =>
      have := ih (i := i) (by simpa using h)
      simp only [List.set_cons_succ, nodesAll]
      omega

/-- Only a place that is there is replaced. -/
theorem walk_of_replace (h : replace d c path = some changed) : ∃ old, c.walk path = some old := by
  induction path generalizing c changed with
  | nil => exact ⟨c, by simp [walk]⟩
  | cons step path ih =>
    cases c with
    | aggregate members =>
      rw [replace] at h
      obtain ⟨member, hmember, h⟩ := Option.bind_eq_some_iff.mp h
      obtain ⟨part, hpart, -⟩ := Option.bind_eq_some_iff.mp h
      obtain ⟨old, hold⟩ := ih hpart
      exact ⟨old, by rw [walk, hmember]; exact hold⟩
    | _ => cases h

/-- What a datum gains is what the new part has beyond the old one. -/
theorem nodes_replace (hw : c.walk path = some old) (hr : replace d c path = some changed) :
    changed.nodes + old.nodes = c.nodes + d.nodes := by
  induction path generalizing c changed with
  | nil =>
    obtain rfl : c = old := by simpa [walk] using hw
    obtain rfl : d = changed := by simpa [replace] using hr
    omega
  | cons step path ih =>
    cases c with
    | aggregate members =>
      rw [replace] at hr
      obtain ⟨member, hmember, hr⟩ := Option.bind_eq_some_iff.mp hr
      obtain ⟨part, hpart, hr⟩ := Option.bind_eq_some_iff.mp hr
      cases hr
      rw [walk, hmember] at hw
      have hmembers := nodesAll_set (d := part) hmember
      have := ih hw hpart
      simp only [nodes]
      omega
    | _ => cases hr

end Datum

namespace TypeTable

variable {t : TypeTable} {id : TypeId} {ids : List TypeId} {d d' : Datum} {type : TypeId}
  {count n fuel : Nat}

theorem fits_eq_some {m : Nat} (h : fits n = some m) : n = m := by
  unfold fits at h
  split at h
  · exact Option.some_inj.mp h
  · cases h

/-- Counting the nodes of a type builds its zero in numbers. -/
theorem nodes_build (h : footprint.count t fuel id = some n) :
    (zero.build t fuel id).nodes = n := by
  induction fuel generalizing id n with
  | zero => cases h
  | succ fuel ih =>
    have fields {ids : List TypeId} {start : Nat}
        (h : ids.foldlM (fun total field => do
          fits (total + (← footprint.count t fuel field))) start = some n) :
        start + Datum.nodesAll (ids.map (zero.build t fuel)) = n := by
      induction ids generalizing start with
      | nil => simpa [Datum.nodesAll] using h
      | cons field ids ih' =>
        rw [List.foldlM_cons] at h
        obtain ⟨total, htotal, h⟩ := Option.bind_eq_some_iff.mp h
        obtain ⟨each, heach, htotal⟩ := Option.bind_eq_some_iff.mp htotal
        obtain rfl := fits_eq_some htotal
        have := ih heach
        have := ih' h
        simp only [List.map_cons, Datum.nodesAll]
        omega
    rw [footprint.count] at h
    rw [zero.build]
    cases he : t.entry id with
    | array element length | vector element length =>
      rw [he] at h
      obtain ⟨each, heach, h⟩ := Option.bind_eq_some_iff.mp h
      obtain ⟨all, hall, h⟩ := Option.bind_eq_some_iff.mp h
      obtain rfl := fits_eq_some hall
      obtain rfl := fits_eq_some h
      simp [Datum.nodes, Datum.nodesAll_eq, ih heach, Nat.mul_comm]
    | struct name fields' isPacked =>
      rw [he] at h
      cases fields' with
      | none => simpa [Datum.nodes] using h
      | some ids =>
        have := fields h
        simp only [Datum.nodes]
        omega
    | _ =>
      rw [he] at h
      simpa [Datum.nodes] using h

theorem nodes_zero (h : t.footprint id = some n) : (t.zero id).nodes = n := nodes_build h

/-- What a type's cells take is what their zeros have. -/
theorem nodes_demand (h : t.demand type count = some n) : count * (t.zero type).nodes = n := by
  obtain ⟨each, heach, h⟩ := Option.bind_eq_some_iff.mp h
  rw [nodes_zero heach, Nat.mul_comm]
  exact fits_eq_some h

theorem nodes_scalar (h : ∀ ds, d ≠ .aggregate ds) : d.nodes = 1 := by
  cases d with
  | aggregate ds => exact (h ds rfl).elim
  | _ => rfl

/-- A type gives all its values the same number of nodes. -/
theorem Shape.nodes_eq (h : t.Shape id d) (h' : t.Shape id d') : d.nodes = d'.nodes := by
  induction d using Datum.memberwise generalizing id d' with
  | scalar d hd =>
    have hd' : ∀ ds, d' ≠ .aggregate ds := by
      rintro ds rfl
      obtain ⟨ids, hm, -⟩ := shape_aggregate.mp h'
      obtain ⟨ds', rfl, -⟩ := h.members hm
      exact hd ds' rfl
    rw [nodes_scalar hd, nodes_scalar hd']
  | members ds ih =>
    obtain ⟨ids, hm, hs⟩ := shape_aggregate.mp h
    obtain ⟨ds', rfl, hs'⟩ := h'.members hm
    have hall : Datum.nodesAll ds = Datum.nodesAll ds' := by
      clear h h' hm
      induction hs generalizing ds' with
      | nil =>
        cases hs'
        rfl
      | cons hd _ ih' =>
        obtain _ | ⟨hd', hs'⟩ := hs'
        obtain ⟨ihd, ihs⟩ := List.forall_mem_cons.mp ih
        simp only [Datum.nodesAll, ihd hd hd', ih' ihs _ hs']
    simp only [Datum.nodes, hall]

end TypeTable

/-- The nodes in the cells of a live allocation. -/
def Allocation.weight (row : Allocation) : Nat :=
  if row.isLive then Datum.nodesAll row.cells.toList else 0

namespace Memory

variable {mem : Memory} {p : Pointer} {target : Option Pointer} {d changed : Datum}

/-- The nodes in the cells of all live allocations. -/
def weight (mem : Memory) : Nat := (mem.allocations.toList.map Allocation.weight).sum

/-- No allocation has more nodes than it is accounted for. -/
def Modest (mem : Memory) : Prop :=
  ∀ (i : Nat) row, mem.allocations[i]? = some row → row.weight ≤ row.held

theorem Accounted.used_eq (h : mem.Accounted) :
    mem.used = (mem.allocations.toList.map Allocation.held).sum := by
  have hheld : (List.range mem.allocations.size).map mem.held =
      mem.allocations.toList.map Allocation.held := by
    refine List.ext_getElem (by simp) fun i hi _ => ?_
    simp at hi
    simp [held, Array.getElem?_eq_getElem hi]
  rw [h.used, hheld]

/-- Modest memory is within the limit. -/
theorem Modest.weight_le (hm : mem.Modest) (h : mem.Accounted) : mem.weight ≤ mem.limit := by
  have hle : mem.weight ≤ (mem.allocations.toList.map Allocation.held).sum :=
    List.sum_le_sum fun row hrow => by
      obtain ⟨i, hi⟩ := List.mem_iff_getElem?.mp hrow
      exact hm i row (by simpa using hi)
  have := h.limit
  have := h.used_eq
  omega

theorem modest_empty (limit : Nat) : ({ limit } : Memory).Modest := by
  intro i row hi
  simp at hi

/-- What a store changes is the place of a cell that a load reads. -/
theorem changedCell_eq_ok (h : mem.changedCell target d = .ok (p, changed)) :
    ∃ c old, mem.cell p = .ok c ∧ mem.load target = .ok old ∧
      changed.nodes + old.nodes = c.nodes + d.nodes := by
  cases target with
  | none => cases h
  | some q =>
    unfold changedCell at h
    cases hc : mem.cell q with
    | error fault => simp [hc, bind, Except.bind] at h
    | ok c =>
      simp only [hc, bind, Except.bind] at h
      split at h
      · rename_i changed' hreplace
        cases h
        obtain ⟨old, hold⟩ := Datum.walk_of_replace hreplace
        exact ⟨c, old, hc, by simp [load, hc, hold, bind, Except.bind],
          Datum.nodes_replace hold hreplace⟩
      · cases h

/-- A store of no more nodes than the place had keeps memory modest. -/
theorem Modest.setCell (h : mem.Modest) (hc : mem.changedCell target d = .ok (p, changed))
    (hd : ∀ old, mem.load target = .ok old → d.nodes ≤ old.nodes) :
    (mem.setCell p changed).Modest := by
  intro i row' hi
  rw [setCell_getElem?] at hi
  split at hi
  · rename_i hpi
    obtain ⟨row, hrow, rfl⟩ := Option.map_eq_some_iff.mp hi
    have hbefore := h i row hrow
    obtain ⟨c, old, hcell, hold, hnodes⟩ := changedCell_eq_ok hc
    have hle := hd old hold
    obtain ⟨row', hrow', hplace⟩ := row_of_cell hcell
    obtain rfl : row' = row := Option.some_inj.mp (hrow'.symm.trans (hpi ▸ hrow))
    have hset := Datum.nodesAll_set (d := changed) (show row'.cells.toList[p.index.toNat]? = some c
      by simpa using hplace)
    rw [Allocation.set_held]
    unfold Allocation.weight at hbefore ⊢
    simp only [Allocation.set_isLive, Allocation.set_cells, Array.toList_setIfInBounds]
    split
    · rename_i hlive
      rw [if_pos hlive] at hbefore
      omega
    · exact Nat.zero_le _
  · exact h i row' hi

theorem Modest.releaseFrom (h : mem.Modest) (number : Nat) : (mem.releaseFrom number).Modest := by
  intro i row' hi
  rw [releaseFrom_getElem?] at hi
  split at hi
  · obtain ⟨row, hrow, rfl⟩ := Option.map_eq_some_iff.mp hi
    have hbefore := h i row hrow
    unfold Allocation.released
    split
    · simp [Allocation.weight]
    · exact hbefore
  · exact h i row' hi

end Memory
end SsaKit
