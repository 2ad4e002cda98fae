import SsaKit.Proofs.Relocation
import SsaKit.Proofs.Widening

/-! Machines of two runs where the second one has fewer allocations: what it has, the first one has
under other numbers. -/
namespace SsaKit

/-- Which allocation of the first machine each allocation of the second one stands for. The marks
are where the allocations of the calls in progress begin, in both machines. -/
structure Numbering where
  places : List Nat := []
  marks : List (Nat × Nat) := []

/-- More allocations, while the same calls are in progress. -/
structure Numbering.Extends (σ τ : Numbering) : Prop where
  places : σ.places <+: τ.places
  marks : τ.marks = σ.marks

theorem Numbering.Extends.refl (σ : Numbering) : σ.Extends σ := ⟨List.prefix_rfl, rfl⟩

theorem Numbering.Extends.trans {σ τ υ : Numbering} (h : σ.Extends τ) (h' : τ.Extends υ) :
    σ.Extends υ := ⟨h.places.trans h'.places, h'.marks.trans h.marks⟩

/-- Rows of the same kind and length. -/
structure Allocation.Alike (row row' : Allocation) : Prop where
  footprint : row'.footprint = row.footprint
  isStack : row'.isStack = row.isStack
  isLive : row'.isLive = row.isLive
  size : row'.cells.size = row.cells.size

theorem Allocation.Alike.held {row row' : Allocation} (h : row.Alike row') :
    row'.held = row.held := by
  rw [Allocation.held, Allocation.held, h.isLive, h.footprint]

theorem Allocation.Alike.released {row row' : Allocation} (h : row.Alike row') :
    row.released.Alike row'.released := by
  unfold Allocation.released
  rw [h.isStack, h.isLive, h.footprint]
  split
  · exact ⟨rfl, rfl, rfl, rfl⟩
  · exact h

theorem Allocation.Alike.set {row row' : Allocation} (h : row.Alike row') (i : Nat) (d d' : Datum) :
    (row.set i d).Alike (row'.set i d') :=
  ⟨h.footprint, h.isStack, h.isLive, by simpa using h.size⟩

namespace Setting

open Fault

/-- The second machine has its allocations and globals from the first one, with the same content
except where it is busy filling. Globals that it does not have yet hold what they start with. -/
structure Mirrors (e : Setting) (busy : List Nat) (σ : Numbering) (s t : Machine) : Prop where
  size : σ.places.length = t.memory.allocations.size
  nodup : σ.places.Nodup
  rows : ∀ (i : Nat) row', t.memory.allocations[i]? = some row' → ∃ a row,
    σ.places[i]? = some a ∧ s.memory.allocations[a]? = some row ∧ row.Alike row'
  cells : ∀ (i a : Nat) row row', i ∉ busy → σ.places[i]? = some a →
    s.memory.allocations[a]? = some row → t.memory.allocations[i]? = some row' →
    ∀ (n : Nat) c c', row.cells[n]? = some c → row'.cells[n]? = some c' → c.Mirrors σ.places c'
  globals : ∀ (v : ValueId) q, t.globals[v]? = some q →
    ∃ p, s.globals[v]? = some p ∧ p.Mirrors σ.places q
  fresh : ∀ (v : ValueId) p, s.globals[v]? = some p → t.globals[v]? = none →
    p.allocation ∉ σ.places ∧ ∃ g d n, e.Pristine s v p g d n
  apart : ∀ (v w : ValueId) p q, s.globals[v]? = some p → s.globals[w]? = some q →
    t.globals[v]? = none → t.globals[w]? = none → p.allocation = q.allocation → v = w
  accounted : s.memory.Accounted
  accounted' : t.memory.Accounted
  limit : s.memory.limit = e.limits.cells
  limit' : t.memory.limit = e.limits.cells
  depth : t.depth = s.depth
  steps : t.steps ≤ s.steps
  marks : ∀ k ∈ σ.marks, k.1 ≤ s.memory.allocations.size ∧ k.2 ≤ t.memory.allocations.size ∧
    ∀ (i a : Nat) row', σ.places[i]? = some a → t.memory.allocations[i]? = some row' →
      row'.isStack = true → (k.2 ≤ i ↔ k.1 ≤ a)

namespace Mirrors

variable {e : Setting} {busy : List Nat} {σ : Numbering} {s s' t : Machine} {p q : Pointer}
  {d d' : Datum} {row row' : Allocation} {a i n : Nat} {v : ValueId} {g : Global}

theorem row_of_place (h : e.Mirrors busy σ s t) (ha : σ.places[i]? = some a) :
    ∃ row row', s.memory.allocations[a]? = some row ∧ t.memory.allocations[i]? = some row' ∧
      row.Alike row' := by
  have hlt := (List.getElem?_eq_some_iff.mp ha).1
  have hrow' := Array.getElem?_eq_getElem (h.size ▸ hlt)
  obtain ⟨b, row, hb, hrow, halike⟩ := h.rows i _ hrow'
  obtain rfl := Option.some_inj.mp (ha.symm.trans hb)
  exact ⟨row, _, hrow, hrow', halike⟩

theorem lt_of_mem (h : e.Mirrors busy σ s t) (ha : a ∈ σ.places) :
    a < s.memory.allocations.size := by
  obtain ⟨i, hi⟩ := List.getElem?_of_mem ha
  obtain ⟨row, -, hrow, -⟩ := h.row_of_place hi
  exact (Array.getElem?_eq_some_iff.mp hrow).1

/-- The first run goes ahead. -/
theorem widen (h : e.Mirrors busy σ s t) (hw : e.Widens s s') : e.Mirrors busy σ s' t where
  size := h.size
  nodup := h.nodup
  rows i row' hi := by
    obtain ⟨a, row, ha, hrow, halike⟩ := h.rows i row' hi
    exact ⟨a, row, ha, hw.rows a row hrow, halike⟩
  cells i a row row' hb ha hr hr' := by
    obtain ⟨row₀, -, hrow, -⟩ := h.row_of_place ha
    obtain rfl := Option.some_inj.mp ((hw.rows a row₀ hrow).symm.trans hr)
    exact h.cells i a row₀ row' hb ha hrow hr'
  globals v q hq := by
    obtain ⟨p, hp, hm⟩ := h.globals v q hq
    exact ⟨p, hw.globals v p hp, hm⟩
  fresh v p hp hn := by
    cases hv : s.globals[v]? with
    | none =>
      obtain ⟨hsize, hpristine⟩ := hw.made v p hv hp
      refine ⟨fun hmem => ?_, hpristine⟩
      have := h.lt_of_mem hmem
      omega
    | some p' =>
      obtain rfl := Option.some_inj.mp ((hw.globals v p' hv).symm.trans hp)
      obtain ⟨hout, g, d, n, hpristine⟩ := h.fresh v p' hv hn
      exact ⟨hout, g, d, n, hw.pristine hpristine⟩
  apart v w p q hp hq hv hw' he := by
    have old {v : ValueId} {p p' : Pointer} (hn : t.globals[v]? = none)
        (hv : s.globals[v]? = some p') (hp : s'.globals[v]? = some p) :
        p' = p ∧ p.allocation < s.memory.allocations.size := by
      obtain rfl := Option.some_inj.mp ((hw.globals v p' hv).symm.trans hp)
      obtain ⟨-, g, d, n, hpristine⟩ := h.fresh v p' hv hn
      exact ⟨rfl, (Array.getElem?_eq_some_iff.mp hpristine.row).1⟩
    cases hsv : s.globals[v]? with
    | none =>
      have hnew := (hw.made v p hsv hp).1
      cases hsw : s.globals[w]? with
      | none => exact hw.apart v w p q hsv hsw hp hq he
      | some q' =>
        have := (old hw' hsw hq).2
        omega
    | some p' =>
      obtain ⟨rfl, hlt⟩ := old hv hsv hp
      cases hsw : s.globals[w]? with
      | none =>
        have := (hw.made w q hsw hq).1
        omega
      | some q' =>
        obtain ⟨rfl, -⟩ := old hw' hsw hq
        exact h.apart v w p' q' hsv hsw hv hw' he
  accounted := hw.accounted h.accounted
  accounted' := h.accounted'
  limit := hw.limit.trans h.limit
  limit' := h.limit'
  depth := h.depth.trans hw.depth.symm
  steps := Nat.le_trans h.steps hw.steps
  marks k hk := by
    obtain ⟨hs, ht, hrows⟩ := h.marks k hk
    exact ⟨Nat.le_trans hs hw.size_le, ht, hrows⟩

/-! ### Room -/

theorem held_of_place (h : e.Mirrors busy σ s t) (ha : σ.places[i]? = some a) :
    t.memory.held i = s.memory.held a := by
  obtain ⟨row, row', hr, hr', halike⟩ := h.row_of_place ha
  rw [Memory.held_of_getElem? hr, Memory.held_of_getElem? hr', halike.held]

theorem used_eq (h : e.Mirrors busy σ s t) :
    t.memory.used = (σ.places.map s.memory.held).sum := by
  have hlist : (List.range σ.places.length).map t.memory.held = σ.places.map s.memory.held := by
    refine List.ext_getElem (by simp) fun i hi hi' => ?_
    have hlt : i < σ.places.length := by simpa using hi'
    simpa using h.held_of_place (List.getElem?_eq_getElem hlt)
  rw [h.accounted'.used, ← h.size, hlist]

/-- The second machine holds no more than the first one, and an allocation that it does not have
fits into the difference. -/
theorem used_add_le (h : e.Mirrors busy σ s t) (hout : a ∉ σ.places)
    (hr : s.memory.allocations[a]? = some row) :
    t.memory.used + row.held ≤ s.memory.used := by
  have hin : ∀ b ∈ a :: σ.places, b < s.memory.allocations.size := by
    intro b hb
    rcases List.mem_cons.mp hb with rfl | hb
    · exact (Array.getElem?_eq_some_iff.mp hr).1
    · exact h.lt_of_mem hb
  have hsum := h.accounted.sum_le (List.nodup_cons.mpr ⟨hout, h.nodup⟩) hin
  rw [List.map_cons, List.sum_cons, Memory.held_of_getElem? hr, ← h.used_eq] at hsum
  omega

theorem used_le (h : e.Mirrors busy σ s t) : t.memory.used ≤ s.memory.used := by
  rw [h.used_eq]
  exact h.accounted.sum_le h.nodup fun a => h.lt_of_mem

theorem room (h : e.Mirrors busy σ s t) {types : TypeTable} {type : TypeId} {count : Nat}
    (hr : s.memory.room types type count = .ok n) : t.memory.room types type count = .ok n := by
  rw [Memory.room_eq_ok] at hr ⊢
  refine ⟨hr.1, ?_⟩
  have := h.used_le
  have := h.limit
  have := h.limit'
  omega

theorem newRow (h : e.Mirrors busy σ s t) {types : TypeTable} {type : TypeId} {count : Nat}
    {isStack : Bool} (hr : s.memory.newRow e.host types type count isStack = .ok row) :
    t.memory.newRow e.host types type count isStack = .ok row := by
  rw [Memory.newRow_eq_ok] at hr ⊢
  obtain ⟨n, hroom, hhost, hrow⟩ := hr
  exact ⟨n, h.room hroom, hhost, hrow⟩

/-! ### New allocations -/

/-- The second machine gets an allocation that the first one has already. -/
theorem push (h : e.Mirrors busy σ s t) {busy' : List Nat}
    {globals : Std.TreeMap ValueId Pointer} (hr : s.memory.allocations[a]? = some row)
    (hout : a ∉ σ.places) (halike : row.Alike row') (hlive : row.isLive = true)
    (hbusy : ∀ i ∈ busy, i ∈ busy')
    (hcells : t.memory.allocations.size ∉ busy' → ∀ (n : Nat) c c', row.cells[n]? = some c →
      row'.cells[n]? = some c' → c.Mirrors (σ.places ++ [a]) c')
    (hmarks : row'.isStack = true → ∀ k ∈ σ.marks, k.1 ≤ a)
    (hglobals : ∀ (w : ValueId) q, globals[w]? = some q →
      ∃ p, s.globals[w]? = some p ∧ p.Mirrors (σ.places ++ [a]) q)
    (hnone : ∀ w : ValueId, globals[w]? = none → t.globals[w]? = none)
    (hfresh : ∀ (w : ValueId) p, s.globals[w]? = some p → globals[w]? = none → p.allocation ≠ a) :
    e.Mirrors busy' ⟨σ.places ++ [a], σ.marks⟩ s
      { t with memory := (t.memory.push row').2, globals } := by
  have hsize : (t.memory.push row').2.allocations.size = t.memory.allocations.size + 1 := by
    simp [Memory.push]
  have hplaces : ∀ (i b : Nat), (σ.places ++ [a])[i]? = some b →
      (σ.places[i]? = some b ∧ i < t.memory.allocations.size) ∨
        (i = t.memory.allocations.size ∧ b = a) := by
    intro i b hb
    rw [List.getElem?_append] at hb
    split at hb
    · rename_i hi
      exact .inl ⟨hb, h.size ▸ hi⟩
    · rename_i hi
      obtain ⟨hlt, hb⟩ := List.getElem?_eq_some_iff.mp hb
      have hsize := h.size
      simp only [List.length_singleton] at hlt
      exact .inr ⟨by omega, by simpa using hb.symm⟩
  have hold : ∀ i < t.memory.allocations.size,
      (t.memory.push row').2.allocations[i]? = t.memory.allocations[i]? := fun i hi => by
    simp [Memory.push, Array.getElem?_push_lt hi, Array.getElem?_eq_getElem hi]
  have hnew : (t.memory.push row').2.allocations[t.memory.allocations.size]? = some row' := by
    simp [Memory.push]
  have hbudget := h.used_add_le hout hr
  have hheld : row.held = row'.footprint := by simp [Allocation.held, hlive, halike.footprint]
  exact {
    size := by simp [hsize, h.size]
    nodup := h.nodup.append (List.nodup_singleton a) (by simpa using hout)
    rows := fun i row'' hi => by
      by_cases hlt : i < t.memory.allocations.size
      · rw [hold i hlt] at hi
        obtain ⟨b, row₀, hb, hr₀, halike₀⟩ := h.rows i row'' hi
        exact ⟨b, row₀, by rw [List.getElem?_append_left (h.size ▸ hlt), hb], hr₀, halike₀⟩
      · obtain rfl : i = t.memory.allocations.size := by
          have hin : i < (t.memory.push row').2.allocations.size :=
            (Array.getElem?_eq_some_iff.mp hi).1
          omega
        obtain rfl := Option.some_inj.mp (hnew.symm.trans hi)
        exact ⟨a, row, by simp [← h.size], hr, halike⟩
    cells := fun i b row₀ row₀' hb' hb hr₀ hr₀' n c c' hc hc' => by
      obtain ⟨hb, hlt⟩ | ⟨rfl, rfl⟩ := hplaces i b hb
      · rw [hold i hlt] at hr₀'
        have hm := h.cells i b row₀ row₀' (fun hi => hb' (hbusy i hi)) hb hr₀ hr₀' n c c' hc hc'
        exact hm.mono (List.prefix_append _ _)
      · obtain rfl := Option.some_inj.mp (hnew.symm.trans hr₀')
        obtain rfl := Option.some_inj.mp (hr.symm.trans hr₀)
        exact hcells hb' n c c' hc hc'
    globals := hglobals
    fresh := fun w p hp hn => by
      obtain ⟨hmem, hpristine⟩ := h.fresh w p hp (hnone w hn)
      exact ⟨by simp [hmem, hfresh w p hp hn], hpristine⟩
    apart := fun v w p q hp hq hv hw => h.apart v w p q hp hq (hnone v hv) (hnone w hw)
    accounted := h.accounted
    accounted' := by
      refine h.accounted'.push (halike.isLive.trans hlive) ?_
      have := h.accounted.limit
      have := h.limit
      have := h.limit'
      omega
    limit := h.limit
    limit' := h.limit'
    depth := h.depth
    steps := h.steps
    marks := fun k hk => by
      obtain ⟨hs, ht, hrows⟩ := h.marks k hk
      have hle : k.2 ≤ (t.memory.push row').2.allocations.size := by omega
      refine ⟨hs, hle, fun i b row₀ hb hr₀ hstack => ?_⟩
      obtain ⟨hb, hlt⟩ | ⟨rfl, rfl⟩ := hplaces i b hb
      · rw [hold i hlt] at hr₀
        exact hrows i b row₀ hb hr₀ hstack
      · obtain rfl := Option.some_inj.mp (hnew.symm.trans hr₀)
        simp [ht, hmarks hstack k hk] }

theorem mirrors_new (h : e.Mirrors busy σ s t) (a : Nat) :
    ({ allocation := a } : Pointer).Mirrors (σ.places ++ [a])
      { allocation := t.memory.allocations.size } := ⟨by simp [← h.size], rfl, rfl⟩

/-- Both machines get the same new row. -/
theorem allocate (h : e.Mirrors busy σ s t) {type : TypeId} {count : Nat} {isStack : Bool}
    (hr : s.memory.newRow e.host e.module.types type count isStack = .ok row) :
    e.Mirrors busy ⟨σ.places ++ [s.memory.allocations.size], σ.marks⟩
      { s with memory := (s.memory.push row).2 } { t with memory := (t.memory.push row).2 } := by
  obtain ⟨m, -, -, hrow⟩ := Memory.newRow_eq_ok.mp hr
  have hwide := h.widen (widens_pushed hr)
  refine hwide.push (by simp [Memory.push]) (fun hin => ?_) ⟨rfl, rfl, rfl, rfl⟩
    (by rw [hrow]) (fun _ hi => hi) (fun _ n c c' hc hc' => ?_) (fun _ k hk => (h.marks k hk).1)
    (fun w q hq => ?_) (fun _ hn => hn) (fun w p hp hn he => ?_)
  · exact Nat.lt_irrefl _ (h.lt_of_mem hin)
  · obtain rfl := Option.some_inj.mp (hc.symm.trans hc')
    rw [hrow] at hc
    obtain ⟨-, rfl⟩ : n < count ∧ e.module.types.zero type = c := by
      simpa [Array.getElem?_replicate] using hc
    exact Datum.mirrors_zero e.module.types type
  · obtain ⟨p, hp, hm⟩ := h.globals w q hq
    exact ⟨p, hp, hm.mono (List.prefix_append _ _)⟩
  · obtain ⟨-, g, d, n, hpristine⟩ := h.fresh w p hp hn
    have := (Array.getElem?_eq_some_iff.mp hpristine.row).1
    omega

/-- The second machine opens the storage of a global that the first one has. -/
theorem opened (h : e.Mirrors busy σ s t) (hp : s.globals[v]? = some p) (hn : t.globals[v]? = none)
    (hpristine : e.Pristine s v p g d n) :
    ∃ row', t.memory.newRow e.host e.module.types g.valueType 1 false = .ok row' ∧
      e.Mirrors (t.memory.allocations.size :: busy) ⟨σ.places ++ [p.allocation], σ.marks⟩ s
        (Setting.opened t v row') := by
  obtain ⟨hout, -⟩ := h.fresh v p hp hn
  have hbudget := h.used_add_le hout hpristine.row
  have hheld : Allocation.held { cells := #[d], footprint := n, isStack := false } = n := rfl
  have hroom : t.memory.room e.module.types g.valueType 1 = .ok n := by
    refine Memory.room_eq_ok.mpr ⟨hpristine.demand, ?_⟩
    have := h.accounted.limit
    have := h.limit
    have := h.limit'
    omega
  refine ⟨_, Memory.newRow_eq_ok.mpr ⟨n, hroom, hpristine.provides, rfl⟩, ?_⟩
  refine h.push hpristine.row hout ⟨rfl, rfl, rfl, by simp⟩ rfl (fun i hi => by simp [hi])
    (fun hni => by simp at hni) (fun hstack => by cases hstack) (fun w q hq => ?_)
    (fun w hw => ?_) fun w p' hp' hw he => ?_
  · rw [getElem?_insert] at hq
    split at hq
    · rename_i he
      obtain rfl := he
      obtain rfl := Option.some_inj.mp hq
      refine ⟨p, hp, ?_⟩
      have hnew := h.mirrors_new p.allocation
      rwa [← hpristine.place] at hnew
    · obtain ⟨p', hp', hm⟩ := h.globals w q hq
      exact ⟨p', hp', hm.mono (List.prefix_append _ _)⟩
  · rw [getElem?_insert] at hw
    split at hw
    · cases hw
    · exact hw
  · rw [getElem?_insert] at hw
    split at hw
    · cases hw
    · rename_i hne
      exact hne (by simpa using h.apart v w p p' hp hp' hn hw he.symm)

/-! ### Cells -/

theorem cell (h : e.Mirrors [] σ s t) (hp : p.Mirrors σ.places q) :
    Entails (s.memory.cell p) (t.memory.cell q) (Datum.Mirrors σ.places) := by
  obtain ⟨row, row', hr, hr', halike⟩ := h.row_of_place hp.allocation
  have hrow : s.memory.row p = if row.isLive then .ok row else .error (.released p.allocation) := by
    rw [Memory.row, hr]
  have hrow' : t.memory.row q =
      if row.isLive then .ok row' else .error (.released q.allocation) := by
    rw [Memory.row, hr']
    dsimp only
    rw [halike.isLive]
  unfold Memory.cell
  rw [hrow, hrow', hp.index]
  refine entails_bind (P := fun r r' => r = row ∧ r' = row') ?_ fun r r' hrr => ?_
  · split
    · exact entails_ok ⟨rfl, rfl⟩
    · exact entails_error _ _
  · obtain ⟨hr₁, hr₂⟩ := hrr
    by_cases hneg : p.index < 0
    · simp only [hneg, if_true]
      exact entails_error _ _
    · simp only [hneg, if_false, hr₁, hr₂]
      cases hc : row.cells[p.index.toNat]? with
      | none => exact entails_error _ _
      | some c =>
        have hlt := (Array.getElem?_eq_some_iff.mp hc).1
        have hc' := Array.getElem?_eq_getElem (halike.size ▸ hlt)
        rw [hc']
        exact entails_ok (h.cells _ _ row row' (by simp) hp.allocation hr hr' _ c _ hc hc')

theorem load (h : e.Mirrors [] σ s t) {target target' : Option Pointer}
    (hp : Option.Rel (Pointer.Mirrors σ.places) target target') :
    Entails (s.memory.load target) (t.memory.load target') (Datum.Mirrors σ.places) := by
  cases hp with
  | none => exact entails_error _ _
  | @some p q hp =>
    refine entails_bind (h.cell hp) fun c c' hc => ?_
    rw [hp.path]
    cases hw : c.walk p.path with
    | none => exact entails_error _ _
    | some d =>
      obtain ⟨d', hw', hd⟩ := hc.walk hw
      rw [hw']
      exact entails_ok hd

theorem changedCell (h : e.Mirrors [] σ s t) {target target' : Option Pointer}
    (hp : Option.Rel (Pointer.Mirrors σ.places) target target') (hd : d.Mirrors σ.places d') :
    Entails (s.memory.changedCell target d) (t.memory.changedCell target' d')
      (fun x y => x.1.Mirrors σ.places y.1 ∧ x.2.Mirrors σ.places y.2) := by
  cases hp with
  | none => exact entails_error _ _
  | @some p q hp =>
    refine entails_bind (h.cell hp) fun c c' hc => ?_
    rw [hp.path]
    cases hr : Datum.replace d c p.path with
    | none => exact entails_error _ _
    | some changed =>
      obtain ⟨changed', hr', hm⟩ := hc.replace hd hr
      rw [hr']
      exact entails_ok ⟨hp, hm⟩

/-- Both machines change a cell. Afterwards the second one may be done with filling that row. -/
theorem setCell (h : e.Mirrors busy σ s t) {busy' : List Nat} (hp : p.Mirrors σ.places q)
    (hd : d.Mirrors σ.places d')
    (hbusy : ∀ j ∈ busy, j ∈ busy' ∨ j = q.allocation ∧ p.index = 0 ∧
      ∀ row, s.memory.allocations[p.allocation]? = some row → row.cells.size = 1) :
    e.Mirrors busy' σ { s with memory := s.memory.setCell p d }
      { t with memory := t.memory.setCell q d' } := by
  have hsame : ∀ i a : Nat, σ.places[i]? = some a → (p.allocation = a ↔ q.allocation = i) := by
    intro i a ha
    have hlt := (List.getElem?_eq_some_iff.mp ha).1
    rw [eq_comm (a := q.allocation), ← List.getElem?_inj hlt h.nodup, ha, hp.allocation,
      Option.some_inj, eq_comm]
  have hrow : ∀ (i a : Nat), σ.places[i]? = some a → ∃ row row',
      s.memory.allocations[a]? = some row ∧ t.memory.allocations[i]? = some row' ∧
      row.Alike row' ∧
      (s.memory.setCell p d).allocations[a]? =
        some (if q.allocation = i then row.set p.index.toNat d else row) ∧
      (t.memory.setCell q d').allocations[i]? =
        some (if q.allocation = i then row'.set p.index.toNat d' else row') := by
    intro i a ha
    obtain ⟨row, row', hr, hr', halike⟩ := h.row_of_place ha
    refine ⟨row, row', hr, hr', halike, ?_, ?_⟩
    · rw [Memory.setCell_getElem?, hr]
      simp only [hsame i a ha, Option.map_some]
      split <;> rfl
    · rw [Memory.setCell_getElem?, hr', hp.index]
      split <;> rfl
  have halloc : p.allocation ∈ σ.places := List.mem_of_getElem? hp.allocation
  exact {
    size := by simp [h.size]
    nodup := h.nodup
    rows := fun i row₁ hi => by
      have hlt : i < t.memory.allocations.size := by
        simpa using (Array.getElem?_eq_some_iff.mp hi).1
      obtain ⟨a, ha⟩ : ∃ a, σ.places[i]? = some a :=
        ⟨_, List.getElem?_eq_getElem (h.size ▸ hlt)⟩
      obtain ⟨row, row', -, -, halike, hs, ht⟩ := hrow i a ha
      obtain rfl := Option.some_inj.mp (ht.symm.trans hi)
      refine ⟨a, _, ha, hs, ?_⟩
      split
      · exact halike.set _ d d'
      · exact halike
    cells := fun i a row₁ row₁' hi ha hr₁ hr₁' n c c' hc hc' => by
      obtain ⟨row, row', hr, hr', halike, hs, ht⟩ := hrow i a ha
      obtain rfl := Option.some_inj.mp (hs.symm.trans hr₁)
      obtain rfl := Option.some_inj.mp (ht.symm.trans hr₁')
      by_cases he : q.allocation = i
      · simp only [he, if_true, Allocation.set_cells, Array.getElem?_setIfInBounds] at hc hc'
        by_cases hn : p.index.toNat = n
        · simp only [hn, if_true] at hc hc'
          split at hc
          · split at hc'
            · cases hc
              cases hc'
              exact hd
            · cases hc'
          · cases hc
        · simp only [hn, if_false] at hc hc'
          refine h.cells i a row row' (fun hb => ?_) ha hr hr' n c c' hc hc'
          obtain hb | ⟨-, hzero, hone⟩ := hbusy i hb
          · exact hi hb
          · have hlt := (Array.getElem?_eq_some_iff.mp hc).1
            rw [hone row (by rw [(hsame i a ha).mpr he, hr])] at hlt
            simp only [hzero, Int.toNat_zero] at hn
            omega
      · simp only [he, if_false] at hc hc'
        refine h.cells i a row row' (fun hb => ?_) ha hr hr' n c c' hc hc'
        obtain hb | ⟨rfl, -⟩ := hbusy i hb
        · exact hi hb
        · exact he rfl
    globals := h.globals
    fresh := fun w p' hp' hn => by
      obtain ⟨hout, g, d₀, n, hpristine⟩ := h.fresh w p' hp' hn
      refine ⟨hout, g, d₀, n, { hpristine with row := ?_ }⟩
      have hne : p.allocation ≠ p'.allocation := fun he => hout (he ▸ halloc)
      rw [Memory.setCell_getElem?, if_neg hne]
      exact hpristine.row
    apart := h.apart
    accounted := h.accounted.setCell
    accounted' := h.accounted'.setCell
    limit := h.limit
    limit' := h.limit'
    depth := h.depth
    steps := h.steps
    marks := fun k hk => by
      obtain ⟨hs, ht, hrows⟩ := h.marks k hk
      refine ⟨by simpa using hs, by simpa using ht, fun i a row₁ ha hr₁ hstack => ?_⟩
      obtain ⟨row, row', -, hr', -, -, hset⟩ := hrow i a ha
      obtain rfl := Option.some_inj.mp (hset.symm.trans hr₁)
      refine hrows i a row' ha hr' ?_
      split at hstack
      · exact hstack
      · exact hstack }

theorem store (h : e.Mirrors [] σ s t) (hp : p.Mirrors σ.places q) (hd : d.Mirrors σ.places d') :
    e.Mirrors [] σ { s with memory := s.memory.setCell p d }
      { t with memory := t.memory.setCell q d' } :=
  h.setCell hp hd fun _ hj => by cases hj

/-- The second machine fills the storage of a global with what it holds in the first one. -/
theorem fill (h : e.Mirrors (i :: busy) σ s t) (ha : σ.places[i]? = some a)
    (hr : s.memory.allocations[a]? = some { cells := #[d], footprint := n, isStack := false })
    (hd : d.Mirrors σ.places d') :
    e.Mirrors busy σ s { t with memory := t.memory.setCell { allocation := i } d' } := by
  have hplace : Pointer.Mirrors σ.places { allocation := a } { allocation := i } := ⟨ha, rfl, rfl⟩
  have hset : e.Mirrors busy σ { s with memory := s.memory.setCell { allocation := a } d }
      { t with memory := t.memory.setCell { allocation := i } d' } :=
    h.setCell hplace hd fun j hj => by
      obtain rfl | hj := List.mem_cons.mp hj
      · refine .inr ⟨rfl, rfl, fun row hrow => ?_⟩
        obtain rfl := Option.some_inj.mp (hr.symm.trans hrow)
        rfl
      · exact .inl hj
  rwa [Memory.setCell_same hr rfl] at hset

/-! ### Steps and calls -/

theorem tick (h : e.Mirrors busy σ s t) :
    e.Mirrors busy σ { s with steps := s.steps + 1 } { t with steps := t.steps + 1 } :=
  { h with
    fresh := fun v p hp hn => by
      obtain ⟨hout, g, d, n, hpristine⟩ := h.fresh v p hp hn
      exact ⟨hout, g, d, n, { hpristine with }⟩
    steps := Nat.succ_le_succ h.steps }

/-- A call begins in both machines. -/
theorem entered (h : e.Mirrors busy σ s t) :
    e.Mirrors busy ⟨σ.places, (s.memory.mark, t.memory.mark) :: σ.marks⟩
      { s with depth := s.depth + 1 } { t with depth := t.depth + 1 } :=
  { h with
    fresh := fun v p hp hn => by
      obtain ⟨hout, g, d, n, hpristine⟩ := h.fresh v p hp hn
      exact ⟨hout, g, d, n, { hpristine with }⟩
    depth := congrArg (· + 1) h.depth
    marks := fun k hk => by
      obtain rfl | hk := List.mem_cons.mp hk
      · refine ⟨Nat.le_refl _, Nat.le_refl _, fun i a row' ha hr' _ => ?_⟩
        have hin : i < t.memory.allocations.size := (Array.getElem?_eq_some_iff.mp hr').1
        have hin' := h.lt_of_mem (List.mem_of_getElem? ha)
        simp only [Memory.mark]
        omega
      · exact h.marks k hk }

/-- A call ends in both machines, and what it had on the stack is freed. -/
theorem left (h : e.Mirrors [] σ s t) {k : Nat × Nat} {marks : List (Nat × Nat)}
    (hk : σ.marks = k :: marks) :
    e.Mirrors [] ⟨σ.places, marks⟩
      { s with memory := s.memory.releaseFrom k.1, depth := s.depth - 1 }
      { t with memory := t.memory.releaseFrom k.2, depth := t.depth - 1 } := by
  have hmark := h.marks k (by simp [hk])
  have hrow : ∀ (i a : Nat), σ.places[i]? = some a → ∃ row row',
      s.memory.allocations[a]? = some row ∧ t.memory.allocations[i]? = some row' ∧
      row.Alike row' ∧
      ((s.memory.releaseFrom k.1).allocations[a]? = some row ∧
        (t.memory.releaseFrom k.2).allocations[i]? = some row' ∨
      (s.memory.releaseFrom k.1).allocations[a]? = some row.released ∧
        (t.memory.releaseFrom k.2).allocations[i]? = some row'.released) := by
    intro i a ha
    obtain ⟨row, row', hr, hr', halike⟩ := h.row_of_place ha
    refine ⟨row, row', hr, hr', halike, ?_⟩
    rw [Memory.releaseFrom_getElem?, Memory.releaseFrom_getElem?, hr, hr']
    cases hstack : row'.isStack with
    | true =>
      have hiff := hmark.2.2 i a row' ha hr' hstack
      by_cases hle : k.1 ≤ a
      · exact .inr ⟨by simp [hle], by simp [hiff.mpr hle]⟩
      · have hle' : ¬ k.2 ≤ i := fun hle' => hle (hiff.mp hle')
        exact .inl ⟨by simp [hle], by simp [hle']⟩
    | false =>
      have hleft := Allocation.released_of_not_stack (halike.isStack.symm.trans hstack)
      have hright := Allocation.released_of_not_stack hstack
      refine .inl ⟨?_, ?_⟩
      · simp [hleft]
      · simp [hright]
  exact {
    size := by simp [h.size]
    nodup := h.nodup
    rows := fun i row₁ hi => by
      have hlt : i < t.memory.allocations.size := by
        simpa using (Array.getElem?_eq_some_iff.mp hi).1
      obtain ⟨a, ha⟩ : ∃ a, σ.places[i]? = some a :=
        ⟨_, List.getElem?_eq_getElem (h.size ▸ hlt)⟩
      obtain ⟨row, row', -, -, halike, ⟨hs, ht⟩ | ⟨hs, ht⟩⟩ := hrow i a ha
      · obtain rfl := Option.some_inj.mp (ht.symm.trans hi)
        exact ⟨a, _, ha, hs, halike⟩
      · obtain rfl := Option.some_inj.mp (ht.symm.trans hi)
        exact ⟨a, _, ha, hs, halike.released⟩
    cells := fun i a row₁ row₁' hi ha hr₁ hr₁' n c c' hc hc' => by
      obtain ⟨row, row', hr, hr', halike, ⟨hs, ht⟩ | ⟨hs, ht⟩⟩ := hrow i a ha
      · obtain rfl := Option.some_inj.mp (hs.symm.trans hr₁)
        obtain rfl := Option.some_inj.mp (ht.symm.trans hr₁')
        exact h.cells i a row row' hi ha hr hr' n c c' hc hc'
      · obtain rfl := Option.some_inj.mp (hs.symm.trans hr₁)
        obtain rfl := Option.some_inj.mp (ht.symm.trans hr₁')
        refine h.cells i a row row' hi ha hr hr' n c c' (Allocation.cell_of_released hc)
          (Allocation.cell_of_released hc')
    globals := h.globals
    fresh := fun w p hp hn => by
      obtain ⟨hout, g, d, n, hpristine⟩ := h.fresh w p hp hn
      refine ⟨hout, g, d, n, { hpristine with row := ?_ }⟩
      rw [Memory.releaseFrom_getElem?, hpristine.row]
      split <;> rfl
    apart := h.apart
    accounted := h.accounted.releaseFrom _
    accounted' := h.accounted'.releaseFrom _
    limit := by simp [h.limit]
    limit' := by simp [h.limit']
    depth := congrArg (· - 1) h.depth
    steps := h.steps
    marks := fun k' hk' => by
      obtain ⟨hs, ht, hrows⟩ := h.marks k' (by simp [hk, hk'])
      refine ⟨by simpa using hs, by simpa using ht, fun i a row₁ ha hr₁ hstack => ?_⟩
      obtain ⟨row, row', -, hr', -, ⟨-, ht⟩ | ⟨-, ht⟩⟩ := hrow i a ha
      · obtain rfl := Option.some_inj.mp (ht.symm.trans hr₁)
        exact hrows i a _ ha hr' hstack
      · obtain rfl := Option.some_inj.mp (ht.symm.trans hr₁)
        rw [Allocation.released_isStack] at hstack
        exact hrows i a row' ha hr' hstack }

end Mirrors

/-- Both runs start with nothing. -/
theorem mirrors_start (e : Setting) : e.Mirrors [] {} e.start e.start where
  size := rfl
  nodup := .nil
  rows i row' hi := by simp [start] at hi
  cells i a _ _ _ ha := by simp at ha
  globals v q hq := by simp [start] at hq
  fresh v p hp := by simp [start] at hp
  apart v w p q hp := by simp [start] at hp
  accounted := Memory.accounted_empty _
  accounted' := Memory.accounted_empty _
  limit := rfl
  limit' := rfl
  depth := rfl
  steps := Nat.le_refl _
  marks k hk := by cases hk

end Setting
end SsaKit
