import Mathlib.Algebra.GroupWithZero.Nat
import Mathlib.Data.List.Nodup
import Mathlib.Data.List.Perm.Subperm
import SsaKit.Machine.Memory

/-! What memory holds: the nodes in use are those of the live allocations, within the limit. -/
namespace SsaKit

/-- The nodes that so many cells of a type take, if a word can count them. -/
def TypeTable.demand (t : TypeTable) (type : TypeId) (count : Nat) : Option Nat :=
  (t.footprint type).bind fun each => fits (each * count)

namespace Allocation

/-- The nodes that an allocation holds. -/
def held (row : Allocation) : Nat := if row.isLive then row.footprint else 0

/-- What is left of an allocation when the stack is freed. -/
def released (row : Allocation) : Allocation :=
  if row.isStack ∧ row.isLive then
    { cells := #[], footprint := row.footprint, isStack := true, isLive := false }
  else row

theorem released_of_not_stack {row : Allocation} (h : row.isStack = false) : row.released = row := by
  simp [released, h]

@[simp] theorem released_isStack (row : Allocation) : row.released.isStack = row.isStack := by
  unfold released
  split
  · rename_i h
    exact h.1.symm
  · rfl

theorem cell_of_released {row : Allocation} {n : Nat} {c : Datum}
    (h : row.released.cells[n]? = some c) : row.cells[n]? = some c := by
  unfold released at h
  split at h
  · simp at h
  · exact h

@[simp] theorem set_footprint (row : Allocation) (i : Nat) (d : Datum) :
    (row.set i d).footprint = row.footprint := rfl

@[simp] theorem set_isStack (row : Allocation) (i : Nat) (d : Datum) :
    (row.set i d).isStack = row.isStack := rfl

@[simp] theorem set_isLive (row : Allocation) (i : Nat) (d : Datum) :
    (row.set i d).isLive = row.isLive := rfl

@[simp] theorem set_cells (row : Allocation) (i : Nat) (d : Datum) :
    (row.set i d).cells = row.cells.setIfInBounds i d := rfl

@[simp] theorem set_held (row : Allocation) (i : Nat) (d : Datum) : (row.set i d).held = row.held :=
  rfl

end Allocation

namespace Memory

variable {mem : Memory} {t : TypeTable} {type : TypeId} {count n i : Nat} {isStack : Bool}
  {row : Allocation} {p : Pointer} {d : Datum} {host : Host}

theorem room_eq_ok : mem.room t type count = .ok n ↔
    t.demand type count = some n ∧ n ≤ mem.limit - mem.used := by
  have hdemand : ((t.footprint type).bind fun each => TypeTable.fits (each * count)) =
      t.demand type count := rfl
  unfold room
  rw [hdemand]
  cases t.demand type count with
  | none => simp
  | some total =>
    by_cases hle : total ≤ mem.limit - mem.used
    · simp only [Option.filter_some, hle, decide_true, if_true, Except.ok.injEq, Option.some_inj]
      constructor
      · rintro rfl
        exact ⟨rfl, hle⟩
      · exact fun h => h.1
    · simp only [Option.filter_some, hle, decide_false, Bool.false_eq_true, if_false, reduceCtorEq,
        false_iff, Option.some_inj, not_and]
      rintro rfl
      exact hle

theorem room_eq_error {fault : Fault} (h : mem.room t type count = .error fault) :
    fault = .memoryLimit count (t.text type) mem.limit := by
  unfold room at h
  dsimp only at h
  split at h
  · cases h
  · cases h
    rfl

/-- The host has memory for some cells and for what stands in each of them. -/
def Provides (host : Host) (t : TypeTable) (type : TypeId) (count : Nat) : Prop :=
  host.refusal count = none ∧ t.zeroRefusal host type = none

theorem newRow_eq_ok : mem.newRow host t type count isStack = .ok row ↔
    ∃ n, mem.room t type count = .ok n ∧ Provides host t type count ∧
      row = { cells := Array.replicate count (t.zero type), footprint := n, isStack } := by
  unfold newRow Provides build
  cases mem.room t type count with
  | error e => simp [bind, Except.bind]
  | ok n =>
    cases host.refusal count with
    | some refusal => simp [bind, Except.bind, throw, throwThe, MonadExceptOf.throw]
    | none =>
      cases t.zeroRefusal host type with
      | some refusal => simp [bind, Except.bind]
      | none => simp [bind, Except.bind, pure, Except.pure, eq_comm]

theorem zero_eq_ok : mem.zero host t type = .ok d ↔
    ∃ n, mem.room t type 1 = .ok n ∧ t.zeroRefusal host type = none ∧ d = t.zero type := by
  unfold zero build
  cases mem.room t type 1 with
  | error e => simp [bind, Except.bind]
  | ok n =>
    cases t.zeroRefusal host type with
    | some refusal => simp [bind, Except.bind]
    | none => simp [bind, Except.bind, eq_comm]

/-- A cell is there in a live row that is long enough. -/
theorem cell_eq_ok {c : Datum} : mem.cell p = .ok c ↔ ∃ row,
    mem.allocations[p.allocation]? = some row ∧ row.isLive ∧ 0 ≤ p.index ∧
      row.cells[p.index.toNat]? = some c := by
  unfold cell row
  cases hr : mem.allocations[p.allocation]? with
  | none => simp [bind, Except.bind]
  | some row =>
    by_cases hl : row.isLive
    · by_cases hi : p.index < 0
      · have hi' : ¬ 0 ≤ p.index := by omega
        simp [hl, hi, hi', bind, Except.bind]
      · have hi' : 0 ≤ p.index := by omega
        cases hc : row.cells[p.index.toNat]? with
        | none => simp [hl, hi, hc, bind, Except.bind]
        | some d => simp [hl, hi, hc, hi', bind, Except.bind]
    · simp [hl, bind, Except.bind]

/-- What is in a cell is in a row. -/
theorem row_of_cell {c : Datum} (h : mem.cell p = .ok c) :
    ∃ row, mem.allocations[p.allocation]? = some row ∧ row.cells[p.index.toNat]? = some c := by
  obtain ⟨row, hr, -, -, hc⟩ := cell_eq_ok.mp h
  exact ⟨row, hr, hc⟩

/-- The nodes that an allocation holds, by its number. -/
def held (mem : Memory) (i : Nat) : Nat := (mem.allocations[i]?.map Allocation.held).getD 0

/-- The nodes in use are those that the allocations hold, and there are not too many of them. -/
structure Accounted (mem : Memory) : Prop where
  used : mem.used = ((List.range mem.allocations.size).map mem.held).sum
  limit : mem.used ≤ mem.limit

theorem accounted_empty (limit : Nat) : Accounted { limit } := ⟨by simp, Nat.zero_le _⟩

theorem held_of_getElem? (h : mem.allocations[i]? = some row) : mem.held i = row.held := by
  simp [held, h]

/-- Different allocations hold no more than is in use. -/
theorem Accounted.sum_le (h : mem.Accounted) {places : List Nat} (hn : places.Nodup)
    (hp : ∀ i ∈ places, i < mem.allocations.size) : (places.map mem.held).sum ≤ mem.used := by
  have hsub : places.Subperm (List.range mem.allocations.size) :=
    hn.subperm fun i hi => List.mem_range.mpr (hp i hi)
  obtain ⟨sub, hsub, hle⟩ := hsub
  obtain ⟨rest, hrest⟩ := hle.exists_perm_append
  have hall := ((hrest.trans (hsub.append_right rest)).map mem.held).sum_nat
  rw [List.map_append, List.sum_append_nat] at hall
  rw [h.used, hall]
  omega

theorem Accounted.push (h : mem.Accounted) (hlive : row.isLive = true)
    (hroom : row.footprint ≤ mem.limit - mem.used) : (mem.push row).2.Accounted where
  used := by
    have hold : ∀ i ∈ List.range mem.allocations.size, (mem.push row).2.held i = mem.held i := by
      intro i hi
      have hlt := List.mem_range.mp hi
      simp [held, Memory.push, Array.getElem?_push_lt hlt, Array.getElem?_eq_getElem hlt]
    have hnew : (mem.push row).2.held mem.allocations.size = row.footprint := by
      simp [held, Memory.push, Allocation.held, hlive]
    have hsize : (mem.push row).2.allocations.size = mem.allocations.size + 1 := by
      simp [Memory.push]
    rw [hsize, List.range_succ, List.map_append, List.map_congr_left hold, List.sum_append_nat,
      ← h.used, List.map_singleton, List.sum_singleton, hnew]
    rfl
  limit := by
    have := h.limit
    change mem.used + row.footprint ≤ mem.limit
    omega

@[simp] theorem setCell_size (mem : Memory) (p : Pointer) (d : Datum) :
    (mem.setCell p d).allocations.size = mem.allocations.size := by simp [setCell]

theorem setCell_getElem? (mem : Memory) (p : Pointer) (d : Datum) (i : Nat) :
    (mem.setCell p d).allocations[i]? =
      if p.allocation = i then mem.allocations[i]?.map fun row => row.set p.index.toNat d
      else mem.allocations[i]? := Array.getElem?_modify

/-- A cell that has the datum already. -/
theorem setCell_same (h : mem.allocations[n]? = some row) (hc : row.cells = #[d]) :
    mem.setCell { allocation := n } d = mem := by
  have hset : row.set 0 d = row := by
    obtain ⟨cells, footprint, isStack, isLive⟩ := row
    obtain rfl : cells = #[d] := hc
    rfl
  have hrows : (mem.setCell { allocation := n } d).allocations = mem.allocations := by
    apply Array.ext_getElem?
    intro i
    rw [setCell_getElem?]
    split
    · rename_i hi
      subst hi
      simp [h, hset]
    · rfl
  change { mem with allocations := (mem.setCell { allocation := n } d).allocations } = mem
  rw [hrows]

theorem held_setCell : (mem.setCell p d).held i = mem.held i := by
  unfold held setCell
  dsimp only
  rw [Array.getElem?_modify]
  split
  · cases mem.allocations[i]? with
    | none => rfl
    | some row => rfl
  · rfl

theorem Accounted.setCell (h : mem.Accounted) : (mem.setCell p d).Accounted where
  used := by
    rw [List.map_congr_left fun i _ => held_setCell]
    simpa [Memory.setCell] using h.used
  limit := h.limit

/-! ### Freeing the stack -/

theorem free_eq (h : mem.allocations[n]? = some row) : mem.free n =
    { mem with
      allocations := mem.allocations.setIfInBounds n row.released
      used := mem.used - (row.held - row.released.held) } := by
  have hself : mem.allocations.setIfInBounds n row = mem.allocations := by
    apply Array.ext_getElem?
    intro i
    rw [Array.getElem?_setIfInBounds]
    split
    · rename_i he
      rw [← he, h, if_pos (Array.getElem?_eq_some_iff.mp h).1]
    · rfl
  obtain ⟨cells, footprint, isStack, isLive⟩ := row
  unfold free
  rw [h]
  cases isStack <;> cases isLive <;>
    simp [Allocation.released, Allocation.held, hself]

theorem free_of_none (h : mem.allocations[n]? = none) : mem.free n = mem := by
  unfold free
  rw [h]

@[simp] theorem size_free (mem : Memory) (n : Nat) :
    (mem.free n).allocations.size = mem.allocations.size := by
  cases h : mem.allocations[n]? with
  | none => rw [free_of_none h]
  | some row => simp [free_eq h]

@[simp] theorem limit_free (mem : Memory) (n : Nat) : (mem.free n).limit = mem.limit := by
  cases h : mem.allocations[n]? with
  | none => rw [free_of_none h]
  | some row => simp [free_eq h]

theorem free_getElem? (mem : Memory) (n i : Nat) : (mem.free n).allocations[i]? =
    if i = n then mem.allocations[i]?.map Allocation.released else mem.allocations[i]? := by
  cases h : mem.allocations[n]? with
  | none =>
    rw [free_of_none h]
    split
    · rename_i he
      rw [he, h]
      rfl
    · rfl
  | some row =>
    rw [free_eq h]
    dsimp only
    rw [Array.getElem?_setIfInBounds]
    by_cases he : n = i
    · subst he
      rw [if_pos rfl, if_pos rfl, if_pos (Array.getElem?_eq_some_iff.mp h).1, h]
      rfl
    · rw [if_neg he, if_neg (Ne.symm he)]

theorem released_held_le (row : Allocation) : row.released.held ≤ row.held := by
  unfold Allocation.released
  split
  · simp [Allocation.held]
  · exact Nat.le_refl _

theorem Accounted.free (h : mem.Accounted) (n : Nat) : (mem.free n).Accounted := by
  cases hn : mem.allocations[n]? with
  | none => rwa [free_of_none hn]
  | some row =>
    have hlt : n ∈ List.range mem.allocations.size :=
      List.mem_range.mpr (Array.getElem?_eq_some_iff.mp hn).1
    have hothers : ((List.range mem.allocations.size).erase n).map (mem.free n).held =
        ((List.range mem.allocations.size).erase n).map mem.held :=
      List.map_congr_left fun i hi => by
        have hne : i ≠ n := (List.nodup_range.mem_erase_iff.mp hi).1
        rw [Memory.held, free_getElem?, if_neg hne, Memory.held]
    have hthis : (mem.free n).held n = row.released.held := by
      rw [Memory.held, free_getElem?, if_pos rfl, hn]
      rfl
    have hused : (mem.free n).used = mem.used - (row.held - row.released.held) := by
      rw [free_eq hn]
    have hbefore := ((List.perm_cons_erase hlt).map mem.held).sum_nat
    have hafter := ((List.perm_cons_erase hlt).map (mem.free n).held).sum_nat
    have hle := released_held_le row
    have hsum := h.used
    constructor
    · rw [List.map_cons, List.sum_cons, held_of_getElem? hn] at hbefore
      rw [List.map_cons, List.sum_cons, hothers, hthis] at hafter
      rw [hused, size_free, hafter, hsum, hbefore]
      omega
    · have := h.limit
      rw [hused, limit_free]
      omega

/-- Freeing so many allocations from a number on, one after the other. -/
theorem fold_free (mem : Memory) (number n : Nat) :
    let freed := n.fold (fun i _ mem => free mem (number + i)) mem
    (∀ i, freed.allocations[i]? = if number ≤ i ∧ i < number + n then
      mem.allocations[i]?.map Allocation.released else mem.allocations[i]?) ∧
    freed.allocations.size = mem.allocations.size ∧ freed.limit = mem.limit ∧
    (mem.Accounted → freed.Accounted) := by
  induction n with
  | zero =>
    refine ⟨fun i => ?_, rfl, rfl, fun h => h⟩
    rw [if_neg (by omega)]
    rfl
  | succ n ih =>
    obtain ⟨hrows, hsize, hlimit, hacc⟩ := ih
    rw [Nat.fold_succ]
    refine ⟨fun i => ?_, by rw [size_free, hsize], by rw [limit_free, hlimit],
      fun h => (hacc h).free _⟩
    rw [free_getElem?, hrows]
    by_cases he : i = number + n
    · rw [if_pos he, if_neg (by omega), if_pos (by omega)]
    · rw [if_neg he]
      congr 1
      simp only [eq_iff_iff]
      omega

theorem releaseFrom_getElem? (mem : Memory) (number i : Nat) :
    (mem.releaseFrom number).allocations[i]? =
      if number ≤ i then mem.allocations[i]?.map Allocation.released else mem.allocations[i]? := by
  unfold releaseFrom
  rw [(fold_free mem number _).1]
  by_cases hn : number ≤ i
  · by_cases hi : i < mem.allocations.size
    · rw [if_pos (by omega), if_pos hn]
    · rw [if_neg (by omega), if_pos hn, Array.getElem?_eq_none (by omega)]
      rfl
  · rw [if_neg (by omega), if_neg hn]

@[simp] theorem releaseFrom_size (mem : Memory) (number : Nat) :
    (mem.releaseFrom number).allocations.size = mem.allocations.size :=
  (fold_free mem number _).2.1

@[simp] theorem releaseFrom_limit (mem : Memory) (number : Nat) :
    (mem.releaseFrom number).limit = mem.limit := (fold_free mem number _).2.2.1

theorem Accounted.releaseFrom (h : mem.Accounted) (number : Nat) :
    (mem.releaseFrom number).Accounted := (fold_free mem number _).2.2.2 h

end Memory
end SsaKit
