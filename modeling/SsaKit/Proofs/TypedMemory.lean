import SsaKit.Proofs.Addressing
import SsaKit.Proofs.Parallel
import SsaKit.Proofs.ShapedEvaluation
import SsaKit.Proofs.TypedDatum
import SsaKit.Proofs.Widening

/-! Steps of a run keep memory typed: every allocation holds data of its own type, and every pointer
leads to what its type promises. -/
namespace SsaKit

open Run SsaKit.Module

/-! ### Typed machines -/

namespace Module

/-- An allocation made for data of a type, or the storage of a global of that type. -/
def Allots (m : Module) (made : Nat → TypeId → Prop) (s : Machine) (n : Nat) (type : TypeId) :
    Prop :=
  made n type ∨ ∃ v g p, m.kindOf v = .global g ∧ s.globals[v]? = some p ∧ p.allocation = n ∧
    g.valueType = type

/-- A machine whose allocations hold data of the listed types. -/
structure Stores (m : Module) (made : Nat → TypeId → Prop) (rows : List TypeId) (s : Machine) :
    Prop where
  length : rows.length = s.memory.allocations.size
  cells : ∀ (n : Nat) (row : Allocation) (type : TypeId), s.memory.allocations[n]? = some row →
    rows[n]? = some type → ∀ (i : Nat) (d : Datum), row.cells[i]? = some d →
    m.types.Typed rows type d
  globals : ∀ v p, s.globals[v]? = some p → p.path = [] ∧ ∃ g, m.kindOf v = .global g ∧
    rows[p.allocation]? = some g.valueType
  origin : ∀ n type, rows[n]? = some type → m.Allots made s n type

/-- Every value of a frame is typed. -/
def Holds (m : Module) (rows : List TypeId) (frame : Frame) : Prop :=
  ∀ v d, frame[v]? = some d → m.types.Typed rows (m.typeOf v) d

variable {m : Module} {made : Nat → TypeId → Prop} {rows rows' : List TypeId} {s : Machine}
  {frame : Frame} {v : ValueId} {d : Datum} {type pointee : TypeId} {p : Pointer}

theorem Holds.mono (h : m.Holds rows frame) (hr : rows <+: rows') : m.Holds rows' frame :=
  fun v d hd => (h v d hd).mono hr

theorem Holds.shapes (h : m.Holds rows frame) : m.Shapes frame :=
  fun v d hd => (h v d hd).shape

theorem Holds.insert (h : m.Holds rows frame) (hd : m.types.Typed rows (m.typeOf v) d) :
    m.Holds rows (frame.insert v d) :=
  Frame.forall_insert (P := fun v => m.types.Typed rows (m.typeOf v)) h hd

theorem Holds.insertMany {l : List (ValueId × Datum)} (h : m.Holds rows frame)
    (hl : ∀ x ∈ l, m.types.Typed rows (m.typeOf x.1) x.2) : m.Holds rows (frame.insertMany l) :=
  Frame.forall_insertMany (P := fun v => m.types.Typed rows (m.typeOf v)) h hl

namespace Stores

theorem start (limit : Nat) : m.Stores made [] { memory := { limit } } where
  length := rfl
  cells := by simp
  globals v p hp := by simp at hp
  origin := by simp

/-- A new allocation for the storage of a global, or one that was made. -/
theorem push {row : Allocation} {globals : Std.TreeMap ValueId Pointer}
    (h : m.Stores made rows s)
    (hrow : ∀ (i : Nat) (d : Datum), row.cells[i]? = some d → m.types.Typed rows type d)
    (hkept : ∀ (v : ValueId) (p : Pointer), s.globals[v]? = some p → globals[v]? = some p)
    (hnew : ∀ (v : ValueId) (p : Pointer), globals[v]? = some p → s.globals[v]? = some p ∨
      (p = { allocation := rows.length } ∧ ∃ g, m.kindOf v = .global g ∧ g.valueType = type))
    (horigin : m.Allots made { s with globals } rows.length type) :
    m.Stores made (rows ++ [type]) { s with memory := (s.memory.push row).2, globals } where
  length := by simp [Memory.push, h.length]
  cells n row' type' hn ht i d hd := by
    have hmono := List.prefix_append rows [type]
    have hn : (s.memory.allocations.push row)[n]? = some row' := hn
    rw [Array.getElem?_push, ← h.length] at hn
    split at hn
    · rename_i he
      obtain rfl := Option.some_inj.mp hn
      obtain rfl : type = type' := by simpa [he] using ht
      exact (hrow i d hd).mono hmono
    · rename_i he
      have hlt : n < rows.length := h.length ▸ (Array.getElem?_eq_some_iff.mp hn).1
      rw [List.getElem?_append_left hlt] at ht
      exact (h.cells n row' type' hn ht i d hd).mono hmono
  globals v p hp := by
    obtain hp | ⟨rfl, g, hg, rfl⟩ := hnew v p hp
    · obtain ⟨hpath, g, hg, hr⟩ := h.globals v p hp
      exact ⟨hpath, g, hg, getElem?_extended (List.prefix_append rows [type]) hr⟩
    · exact ⟨rfl, g, hg, by simp⟩
  origin n type' ht := by
    by_cases hlt : n < rows.length
    · rw [List.getElem?_append_left hlt] at ht
      obtain hmade | ⟨v, g, p, hg, hp, hn⟩ := h.origin n type' ht
      · exact .inl hmade
      · exact .inr ⟨v, g, p, hg, hkept v p hp, hn⟩
    · have hsize := (List.getElem?_eq_some_iff.mp ht).1
      simp only [List.length_append, List.length_cons, List.length_nil] at hsize
      obtain rfl : n = rows.length := by omega
      obtain rfl : type = type' := by simpa using ht
      exact horigin

theorem setCell (h : m.Stores made rows s)
    (hd : ∀ type, rows[p.allocation]? = some type → m.types.Typed rows type d) :
    m.Stores made rows { s with memory := s.memory.setCell p d } where
  length := by simpa [Memory.setCell] using h.length
  cells n row type hn ht i x hx := by
    have hn : (s.memory.setCell p d).allocations[n]? = some row := hn
    rw [Memory.setCell_getElem?] at hn
    split at hn
    · rename_i he
      subst he
      obtain ⟨old, hold, rfl⟩ := Option.map_eq_some_iff.mp hn
      rw [Allocation.set_cells, Array.getElem?_setIfInBounds] at hx
      split at hx
      · split at hx
        · obtain rfl := Option.some_inj.mp hx
          exact hd type ht
        · cases hx
      · exact h.cells _ old type hold ht i x hx
    · exact h.cells n row type hn ht i x hx
  globals := h.globals
  origin := h.origin

/-- Freed rows hold nothing, and the other ones stay. -/
theorem releaseFrom (h : m.Stores made rows s) (mark depth : Nat) :
    m.Stores made rows { s with memory := s.memory.releaseFrom mark, depth } where
  length := by simpa using h.length
  cells n row type hn ht i d hd := by
    have hn : (s.memory.releaseFrom mark).allocations[n]? = some row := hn
    rw [Memory.releaseFrom_getElem?] at hn
    split at hn
    · obtain ⟨old, hold, rfl⟩ := Option.map_eq_some_iff.mp hn
      exact h.cells n old type hold ht i d (Allocation.cell_of_released hd)
    · exact h.cells n row type hn ht i d hd
  globals := h.globals
  origin := h.origin

theorem counted (h : m.Stores made rows s) (steps depth : Nat) :
    m.Stores made rows { s with steps, depth } :=
  ⟨h.length, h.cells, h.globals, h.origin⟩

theorem cell {root : TypeId} {c : Datum} (h : m.Stores made rows s)
    (hroot : rows[p.allocation]? = some root) (hc : s.memory.cell p = .ok c) :
    m.types.Typed rows root c := by
  obtain ⟨row, hrow, hc⟩ := Memory.row_of_cell hc
  exact h.cells p.allocation row root hrow hroot _ c hc

/-- A load from a place gives data of the type of the place. -/
theorem load (h : m.Stores made rows s) (hp : m.types.Aims rows pointee p) :
    Fault.Ends (s.memory.load (some p)) (m.types.Typed rows pointee) fun _ => True := by
  obtain ⟨root, hroot, htarget, -⟩ := hp
  cases hc : s.memory.cell p with
  | error e => simp [Memory.load, hc, bind, Except.bind]
  | ok c =>
    have hcell := h.cell hroot hc
    simp only [Memory.load, hc, bind, Except.bind]
    split
    · rename_i d hd
      obtain ⟨target, ht, hd⟩ := hcell.walk hd
      exact htarget target ht ▸ hd
    · trivial

/-- A store into a place makes a cell that is typed as before. -/
theorem changedCell (h : m.Stores made rows s) (hp : m.types.Aims rows pointee p)
    (hd : m.types.Typed rows pointee d) : Fault.Ends (s.memory.changedCell (some p) d)
      (fun r => ∀ type, rows[r.1.allocation]? = some type → m.types.Typed rows type r.2)
      fun _ => True := by
  obtain ⟨root, hroot, htarget, -⟩ := hp
  cases hc : s.memory.cell p with
  | error e => simp [Memory.changedCell, hc, bind, Except.bind]
  | ok c =>
    simp only [Memory.changedCell, hc, bind, Except.bind]
    split
    · rename_i changed hchanged
      intro type ht
      obtain rfl : root = type := Option.some_inj.mp (hroot.symm.trans ht)
      exact (h.cell hroot hc).replace hchanged fun target ht => htarget target ht ▸ hd
    · trivial

end Stores

end Module

/-! ### Steps that keep machines typed -/

namespace Run

variable {α β : Type} {m : Module} {made : Nat → TypeId → Prop} {rows : List TypeId} {s : Machine}
  {ok ok' : List TypeId → α → Prop} {mid : List TypeId → β → Prop}

/-- Where the step succeeds, it leads to a typed machine with further allocations at most, and to a
result that is `ok` there. -/
def Yields (m : Module) (made : Nat → TypeId → Prop) (rows : List TypeId) (s : Machine)
    (step : Run α) (ok : List TypeId → α → Prop) : Prop :=
  ∀ a t, step.run.run s = (.ok a, t) →
    ∃ rows', rows <+: rows' ∧ m.Stores made rows' t ∧ ok rows' a

theorem yields_pure {a : α} (h : m.Stores made rows s) (ha : ok rows a) :
    Yields m made rows s (pure a) ok := by
  intro b t hr
  cases hr
  exact ⟨rows, List.prefix_rfl, h, ha⟩

theorem yields_throw (fault : Fault) : Yields m made rows s (throw fault : Run α) ok := by
  intro b t hr
  cases hr

theorem yields_throw_bind (fault : Fault) (next : β → Run α) :
    Yields m made rows s ((throw fault : Run β) >>= next) ok := by
  intro b t hr
  rw [run_bind] at hr
  cases hr

theorem yields_ofExcept {r : Except Fault α} {failed : Fault → Prop} (h : m.Stores made rows s)
    (hr : Fault.Ends r (ok rows) failed) : Yields m made rows s (ofExcept r) ok := by
  cases r with
  | ok a => exact yields_pure h hr
  | error fault => exact yields_throw fault

theorem yields_bind {step : Run β} {next : β → Run α} (h : Yields m made rows s step mid)
    (hn : ∀ rows' b t, rows <+: rows' → m.Stores made rows' t → mid rows' b →
      step.run.run s = (.ok b, t) → Yields m made rows' t (next b) ok) :
    Yields m made rows s (step >>= next) ok := by
  intro a u hr
  obtain ⟨b, t, hs, hr⟩ := run_bind_eq_ok hr
  obtain ⟨rows', hrows, ht, hb⟩ := h b t hs
  obtain ⟨rows'', hrows', hu, ha⟩ := hn rows' b t hrows ht hb hs a u hr
  exact ⟨rows'', hrows.trans hrows', hu, ha⟩

theorem yields_get {next : Machine → Run α} (h : Yields m made rows s (next s) ok) :
    Yields m made rows s (get >>= next) ok :=
  fun a t hr => h a t hr

theorem yields_bind_ofExcept {r : Except Fault β} {next : β → Run α} {good : β → Prop}
    {failed : Fault → Prop} (hr : Fault.Ends r good failed)
    (hn : ∀ b, good b → Yields m made rows s (next b) ok) :
    Yields m made rows s (ofExcept r >>= next) ok := by
  intro a t ht
  rw [run_bind] at ht
  cases r with
  | ok b => exact hn b hr a t ht
  | error fault => cases ht

theorem Yields.mono {step : Run α} (h : Yields m made rows s step ok)
    (hok : ∀ rows' a, rows <+: rows' → ok rows' a → ok' rows' a) :
    Yields m made rows s step ok' := fun a t hr => by
  obtain ⟨rows', hrows, ht, ha⟩ := h a t hr
  exact ⟨rows', hrows, ht, hok rows' a hrows ha⟩

/-- What holds of the results on any machine holds here too. -/
theorem Yields.and {step : Run α} {good : α → Prop} {failed : Fault → Prop}
    (h : Yields m made rows s step ok) (he : Ends step good failed) :
    Yields m made rows s step fun rows a => ok rows a ∧ good a := fun a t hr => by
  obtain ⟨rows', hrows, ht, ha⟩ := h a t hr
  have hgood := he s
  rw [hr] at hgood
  exact ⟨rows', hrows, ht, ha, hgood⟩

theorem yields_mapM {f : β → Run α} {P : List TypeId → β → α → Prop} {xs : List β}
    (h : m.Stores made rows s)
    (hmono : ∀ rows rows' x a, rows <+: rows' → P rows x a → P rows' x a)
    (hf : ∀ rows' t, rows <+: rows' → m.Stores made rows' t → ∀ x ∈ xs,
      Yields m made rows' t (f x) fun rows => P rows x) :
    Yields m made rows s (xs.mapM f) fun rows => List.Forall₂ (P rows) xs := by
  induction xs generalizing rows s with
  | nil => exact yields_pure h .nil
  | cons x xs ih =>
    rw [List.mapM_cons]
    refine yields_bind (hf rows s List.prefix_rfl h x (by simp)) fun rows' a t hrows ht ha _ => ?_
    refine yields_bind (ih ht fun rows'' u hr hu y hy =>
      hf rows'' u (hrows.trans hr) hu y (by simp [hy])) fun rows'' as u hrows' hu has _ => ?_
    exact yields_pure hu (.cons (hmono _ _ x a hrows' ha) has)

end Run

namespace Setting

variable {e : Setting} {made : Nat → TypeId → Prop} {rows : List TypeId} {s : Machine}
  {frame : Frame} {v : ValueId}

/-! ### Storage -/

theorem yields_load {pointee : TypeId} {target : Option Pointer}
    (h : e.module.Stores made rows s) (hp : ∀ p ∈ target, e.module.types.Aims rows pointee p) :
    Yields e.module made rows s (Run.load target)
      fun rows d => e.module.types.Typed rows pointee d := by
  have hload : Fault.Ends (s.memory.load target) (e.module.types.Typed rows pointee)
      fun _ => True := by
    cases target with
    | none => trivial
    | some p => exact h.load (hp p rfl)
  intro d t hr
  rw [load_run] at hr
  exact yields_ofExcept h hload d t hr

theorem yields_store {pointee : TypeId} {target : Option Pointer} {d : Datum}
    (h : e.module.Stores made rows s) (hp : ∀ p ∈ target, e.module.types.Aims rows pointee p)
    (hd : e.module.types.Typed rows pointee d) :
    Yields e.module made rows s (Run.store target d) fun _ _ => True := by
  intro u t hr
  rw [store_run] at hr
  cases target with
  | none => cases hr
  | some p =>
    have hchanged := h.changedCell (hp p rfl) hd
    cases hc : s.memory.changedCell (some p) d with
    | error fault =>
      rw [hc] at hr
      cases hr
    | ok r =>
      rw [hc] at hr hchanged
      cases hr
      exact ⟨rows, List.prefix_rfl, h.setCell hchanged, trivial⟩

theorem zero_typed {t : TypeTable} {type : TypeId} (ht : t.WellFormed) (hs : t.isSized type) :
    t.Typed rows type (t.zero type) :=
  .of_shape (ht.shape_zero hs) (Datum.mirrors_zero t type)

/-- New rows are full of zeros. -/
theorem newRow_typed {mem : Memory} {host : Host} {t : TypeTable} {type : TypeId} {count : Nat}
    {isStack : Bool} {row : Allocation} (ht : t.WellFormed) (hs : t.isSized type)
    (hr : mem.newRow host t type count isStack = .ok row) (i : Nat) (d : Datum)
    (hd : row.cells[i]? = some d) : t.Typed rows type d := by
  obtain ⟨n, -, -, rfl⟩ := Memory.newRow_eq_ok.mp hr
  simp only [Array.getElem?_replicate] at hd
  split at hd
  · obtain rfl := Option.some_inj.mp hd
    exact zero_typed ht hs
  · cases hd

/-- A global has its storage from its first use on. -/
theorem storage_typed {constant : ValueId → Run Datum} {g : Global} (hs : e.module.Sound)
    (h : e.module.Stores made rows s) (hk : e.module.kindOf v = .global g)
    (hg : e.module.types.isSized g.valueType)
    (hc : ∀ init ∈ g.initializer, ∀ rows t, e.module.Stores made rows t →
      Yields e.module made rows t (constant init)
        fun rows d => e.module.types.Typed rows g.valueType d) :
    Yields e.module made rows s (e.storage constant v g)
      fun rows p => p.path = [] ∧ rows[p.allocation]? = some g.valueType := by
  intro p t hr
  cases hn : s.globals[v]? with
  | some q =>
    rw [storage_known hn] at hr
    cases hr
    obtain ⟨hpath, g', hg', hrow⟩ := h.globals v p hn
    obtain rfl : g = g' := by simpa [hk] using hg'
    exact ⟨rows, List.prefix_rfl, h, hpath, hrow⟩
  | none =>
    obtain ⟨hl, row, hrow⟩ := newRow_of_storage hn hr
    rw [storage_new hn hl hrow] at hr
    have hopened : e.module.Stores made (rows ++ [g.valueType]) (opened s v row) := by
      refine h.push (newRow_typed hs.types hg hrow) (fun w q hq => ?_) (fun w q hq => ?_) ?_
      · rw [getElem?_insert, if_neg fun he => ?_]
        · exact hq
        · obtain rfl := he
          rw [hn] at hq
          cases hq
      · rw [getElem?_insert] at hq
        split at hq
        · rename_i he
          obtain rfl := he
          exact .inr ⟨by rw [h.length, Option.some_inj.mp hq], g, hk, rfl⟩
        · exact .inl hq
      · exact .inr ⟨v, g, _, hk, Std.TreeMap.getElem?_insert_self, h.length.symm, rfl⟩
    have hplace : (rows ++ [g.valueType])[s.memory.allocations.size]? = some g.valueType := by
      rw [← h.length]
      simp
    have hfill : Yields e.module made (rows ++ [g.valueType]) (opened s v row) (do
        let d ← e.content constant g
        Run.store (some { allocation := s.memory.allocations.size }) d
        return { allocation := s.memory.allocations.size } : Run Pointer)
        fun rows p => p.path = [] ∧ rows[p.allocation]? = some g.valueType := by
      have hcontent : Yields e.module made (rows ++ [g.valueType]) (opened s v row)
          (e.content constant g) fun rows d => e.module.types.Typed rows g.valueType d := by
        unfold content
        cases hi : g.initializer with
        | none => exact yields_pure hopened (zero_typed hs.types hg)
        | some init => exact hc init hi _ _ hopened
      refine yields_bind hcontent fun rows' d u hx hu hd _ => ?_
      have hplace' : rows'[s.memory.allocations.size]? = some g.valueType :=
        getElem?_extended hx hplace
      refine yields_bind (yields_store hu ?_ hd) fun rows'' _ u' hx' hu' _ _ => ?_
      · rintro q ⟨⟩
        exact TypeTable.aims_whole hplace' rfl
      · exact yields_pure hu' ⟨rfl, getElem?_extended hx' hplace'⟩
    obtain ⟨rows', hx, ht, hp⟩ := hfill p t hr
    exact ⟨rows', (List.prefix_append _ _).trans hx, ht, hp⟩

end Setting

end SsaKit
