import SsaKit.Proofs.Accounting
import SsaKit.Proofs.Simulation

/-! Steps that only add to a machine: what was stored stays, and new globals start with their initial
content. -/
namespace SsaKit

namespace Run

variable {host : Host} {t : TypeTable} {type : TypeId} {count : Nat} {isStack : Bool} {s : Machine}
  {target : Option Pointer} {d : Datum}

theorem allocate_run : (allocate host t type count isStack).run.run s =
    match s.memory.newRow host t type count isStack with
    | .ok row => (.ok (s.memory.push row).1, { s with memory := (s.memory.push row).2 })
    | .error e => (.error e, s) := by
  unfold allocate
  rw [run_bind]
  change (ofExcept (s.memory.newRow host t type count isStack) >>= _).run.run s = _
  rw [run_bind]
  cases s.memory.newRow host t type count isStack <;> rfl

theorem load_run : (load target).run.run s = (s.memory.load target, s) := rfl

theorem store_run : (store target d).run.run s = match s.memory.changedCell target d with
    | .ok (p, changed) => (.ok (), { s with memory := s.memory.setCell p changed })
    | .error e => (.error e, s) := by
  unfold store
  rw [run_bind]
  change (ofExcept (s.memory.changedCell target d) >>= _).run.run s = _
  rw [run_bind]
  cases s.memory.changedCell target d <;> rfl

/-- The first cell of a live allocation takes what is stored. -/
theorem store_first {row : Allocation} {n : Nat} {c : Datum}
    (hr : s.memory.allocations[n]? = some row) (hl : row.isLive = true)
    (hc : row.cells[0]? = some c) : (store (some { allocation := n }) d).run.run s =
      (.ok (), { s with memory := s.memory.setCell { allocation := n } d }) := by
  have hcell : s.memory.changedCell (some { allocation := n }) d = .ok ({ allocation := n }, d) := by
    simp [Memory.changedCell, Memory.cell, Memory.row, hr, hl, hc, Datum.replace, bind,
      Except.bind]
  rw [store_run, hcell]

end Run

namespace Setting

open Run

variable {e : Setting} {v : ValueId} {g : Global} {s : Machine} {row : Allocation}

/-- A machine with the storage of a global that has nothing in it yet. -/
def opened (s : Machine) (v : ValueId) (row : Allocation) : Machine :=
  { s with
    memory := (s.memory.push row).2
    globals := s.globals.insert v { allocation := s.memory.allocations.size } }

theorem storage_known {constant : ValueId → Run Datum} {p : Pointer} (h : s.globals[v]? = some p) :
    (e.storage constant v g).run.run s = (.ok p, s) := by
  rw [storage_run, h]

/-- What goes into the storage of a global at first. -/
def content (e : Setting) (constant : ValueId → Run Datum) (g : Global) : Run Datum :=
  match g.initializer with
  | none => pure (e.module.types.zero g.valueType)
  | some init => constant init

theorem opened_row (s : Machine) (v : ValueId) (row : Allocation) :
    (opened s v row).memory.allocations[s.memory.allocations.size]? = some row := by
  simp [opened, Memory.push]

theorem storage_new {constant : ValueId → Run Datum} (hn : s.globals[v]? = none)
    (hl : e.module.isListed v)
    (hr : s.memory.newRow e.host e.module.types g.valueType 1 false = .ok row) :
    (e.storage constant v g).run.run s = (do
      let d ← e.content constant g
      Run.store (some { allocation := s.memory.allocations.size }) d
      return { allocation := s.memory.allocations.size } : Run Pointer).run.run
        (opened s v row) := by
  have hallocate : (allocate e.host e.module.types g.valueType 1 false).run.run s =
      (.ok { allocation := s.memory.allocations.size },
        { s with memory := (s.memory.push row).2 }) := by
    rw [allocate_run, hr]
    rfl
  rw [storage_run, hn]
  simp only [hl, if_true]
  unfold newStorage content
  rw [run_bind, hallocate]
  dsimp only
  rw [run_bind]
  cases g.initializer with
  | some init => rfl
  | none =>
    obtain ⟨n, -, -, hrow⟩ := Memory.newRow_eq_ok.mp hr
    have hcells : row.cells = #[e.module.types.zero g.valueType] := by rw [hrow]; rfl
    rw [pure_bind, run_bind, store_first (opened_row s v row) (by rw [hrow]) (by rw [hcells]; rfl),
      Memory.setCell_same (opened_row s v row) hcells]
    rfl

/-- Only a listed global that there is room for gets its storage. -/
theorem newRow_of_storage {constant : ValueId → Run Datum} {p : Pointer} {s' : Machine}
    (hn : s.globals[v]? = none) (h : (e.storage constant v g).run.run s = (.ok p, s')) :
    e.module.isListed v ∧
      ∃ row, s.memory.newRow e.host e.module.types g.valueType 1 false = .ok row := by
  rw [storage_run, hn] at h
  by_cases hl : e.module.isListed v
  · refine ⟨hl, ?_⟩
    simp only [hl, if_true] at h
    unfold newStorage at h
    rw [run_bind, allocate_run] at h
    cases hr : s.memory.newRow e.host e.module.types g.valueType 1 false with
    | ok row => exact ⟨row, rfl⟩
    | error fault =>
      rw [hr] at h
      cases h
  · simp only [hl, Bool.false_eq_true, if_false] at h
    cases h

/-! ### What constants read as -/

/-- What a constant reads as where the globals that it leads to have their places. -/
inductive Denotes (e : Setting) (globals : Std.TreeMap ValueId Pointer) : ValueId → Datum → Prop
  | int {v : ValueId} {word : UInt64} : e.module.kindOf v = .int word →
    Denotes e globals v (e.wordDatum (e.module.typeOf v) word)
  | float {v : ValueId} {number : Double} : e.module.kindOf v = .float number →
    Denotes e globals v (e.floatDatum (e.module.typeOf v) number)
  | null {v : ValueId} : e.module.kindOf v = .null → Denotes e globals v (.pointer none)
  | undef {v : ValueId} : e.module.kindOf v = .undef →
    e.module.types.zeroRefusal e.host (e.module.typeOf v) = none →
    Denotes e globals v (e.module.types.zero (e.module.typeOf v))
  | aggregate {v : ValueId} {elements : List ValueId} {ds : List Datum} :
    e.module.kindOf v = .aggregate elements → (hn : elements.length = ds.length) →
    (∀ i hi hi', Denotes e globals (elements.get ⟨i, hi⟩) (ds.get ⟨i, hi'⟩)) →
    Denotes e globals v (.aggregate ds)
  | bytes {v : ValueId} {data : List UInt8} : e.module.kindOf v = .bytes data →
    Denotes e globals v (.aggregate (data.map byteDatum))
  | global {v : ValueId} {g : Global} {p : Pointer} : e.module.kindOf v = .global g →
    globals[v]? = some p → Denotes e globals v (.pointer (some p))

theorem Denotes.of_elements {globals : Std.TreeMap ValueId Pointer} {elements : List ValueId}
    {ds : List Datum} (hk : e.module.kindOf v = .aggregate elements)
    (h : List.Forall₂ (e.Denotes globals) elements ds) : e.Denotes globals v (.aggregate ds) :=
  .aggregate hk h.length_eq (List.forall₂_iff_get.mp h).2

theorem Denotes.mono {globals globals' : Std.TreeMap ValueId Pointer} {d : Datum}
    (hg : ∀ (v : ValueId) p, globals[v]? = some p → globals'[v]? = some p) (h : e.Denotes globals v d) :
    e.Denotes globals' v d := by
  induction h with
  | int hk => exact .int hk
  | float hk => exact .float hk
  | null hk => exact .null hk
  | undef hk hz => exact .undef hk hz
  | aggregate hk hn _ ih => exact .aggregate hk hn ih
  | bytes hk => exact .bytes hk
  | global hk hp => exact .global hk (hg _ _ hp)

/-- What a global starts with. -/
def StartsWith (e : Setting) (globals : Std.TreeMap ValueId Pointer) (g : Global) (d : Datum) :
    Prop :=
  match g.initializer with
  | none => d = e.module.types.zero g.valueType
  | some init => e.Denotes globals init d

theorem StartsWith.mono {globals globals' : Std.TreeMap ValueId Pointer} {d : Datum}
    (hg : ∀ (v : ValueId) p, globals[v]? = some p → globals'[v]? = some p) (h : e.StartsWith globals g d) :
    e.StartsWith globals' g d := by
  unfold StartsWith at h ⊢
  split
  · rename_i hi
    rwa [hi] at h
  · rename_i hi
    rw [hi] at h
    exact h.mono hg

/-! ### Growth -/

/-- The storage of a global that holds what the global starts with. -/
structure Pristine (e : Setting) (s : Machine) (v : ValueId) (p : Pointer) (g : Global) (d : Datum)
    (n : Nat) : Prop where
  kindOf : e.module.kindOf v = .global g
  isListed : e.module.isListed v
  place : p = { allocation := p.allocation }
  row : s.memory.allocations[p.allocation]? =
    some { cells := #[d], footprint := n, isStack := false }
  demand : e.module.types.demand g.valueType 1 = some n
  provides : Memory.Provides e.host e.module.types g.valueType 1
  startsWith : e.StartsWith s.globals g d

/-- A row of zeros of a type that was just made. -/
def Blank (e : Setting) (row : Allocation) : Prop :=
  ∃ type count isStack n, e.module.types.demand type count = some n ∧
    row = { cells := Array.replicate count (e.module.types.zero type), footprint := n, isStack }

/-- The second machine has all that the first one has, globals that were new to it hold what they
start with, and all other new rows are blank. -/
structure Widens (e : Setting) (s s' : Machine) : Prop where
  rows : ∀ (i : Nat) row, s.memory.allocations[i]? = some row → s'.memory.allocations[i]? = some row
  globals : ∀ (v : ValueId) p, s.globals[v]? = some p → s'.globals[v]? = some p
  made : ∀ (v : ValueId) p, s.globals[v]? = none → s'.globals[v]? = some p →
    s.memory.allocations.size ≤ p.allocation ∧ ∃ g d n, e.Pristine s' v p g d n
  apart : ∀ (v w : ValueId) p q, s.globals[v]? = none → s.globals[w]? = none → s'.globals[v]? = some p →
    s'.globals[w]? = some q → p.allocation = q.allocation → v = w
  fresh : ∀ (i : Nat) row, s.memory.allocations.size ≤ i → s'.memory.allocations[i]? = some row →
    e.Blank row ∨ ∃ (v : ValueId) (p : Pointer),
      s.globals[v]? = none ∧ s'.globals[v]? = some p ∧ p.allocation = i
  accounted : s.memory.Accounted → s'.memory.Accounted
  limit : s'.memory.limit = s.memory.limit
  depth : s'.depth = s.depth
  steps : s.steps ≤ s'.steps

namespace Widens

variable {s' s'' : Machine}

theorem of_same (hm : s'.memory = s.memory) (hg : s'.globals = s.globals)
    (hd : s'.depth = s.depth) (hs : s.steps ≤ s'.steps) : e.Widens s s' where
  rows _ _ h := hm ▸ h
  globals _ _ h := hg ▸ h
  made v p hn hp := by simp [hg, hn] at hp
  apart v w p q hn _ hp _ _ := by simp [hg, hn] at hp
  fresh i row hi hrow := by
    rw [hm] at hrow
    exact absurd (Array.getElem?_eq_some_iff.mp hrow).1 (by omega)
  accounted h := hm ▸ h
  limit := by rw [hm]
  depth := hd
  steps := hs

theorem refl (e : Setting) (s : Machine) : e.Widens s s := of_same rfl rfl rfl (Nat.le_refl _)

theorem size_le (h : e.Widens s s') : s.memory.allocations.size ≤ s'.memory.allocations.size := by
  by_contra hlt
  have hin : s'.memory.allocations.size < s.memory.allocations.size := by omega
  have hrow := h.rows _ _ (Array.getElem?_eq_getElem hin)
  have := (Array.getElem?_eq_some_iff.mp hrow).1
  omega

theorem pristine (h : e.Widens s s') {p : Pointer} {d : Datum} {n : Nat}
    (hp : e.Pristine s v p g d n) : e.Pristine s' v p g d n where
  kindOf := hp.kindOf
  isListed := hp.isListed
  place := hp.place
  row := h.rows _ _ hp.row
  demand := hp.demand
  provides := hp.provides
  startsWith := hp.startsWith.mono h.globals

theorem trans (h : e.Widens s s') (h' : e.Widens s' s'') : e.Widens s s'' where
  rows i row hi := h'.rows i row (h.rows i row hi)
  globals v p hp := h'.globals v p (h.globals v p hp)
  made v p hn hp := by
    cases hmid : s'.globals[v]? with
    | none =>
      obtain ⟨hsize, hpristine⟩ := h'.made v p hmid hp
      exact ⟨Nat.le_trans h.size_le hsize, hpristine⟩
    | some q =>
      obtain rfl : q = p := Option.some_inj.mp ((h'.globals v q hmid).symm.trans hp)
      obtain ⟨hsize, g, d, n, hpristine⟩ := h.made v q hn hmid
      exact ⟨hsize, g, d, n, h'.pristine hpristine⟩
  apart v w p q hv hw hp hq he := by
    have inside {v : ValueId} {p p' : Pointer} (hn : s.globals[v]? = none)
        (hmid : s'.globals[v]? = some p') (hp : s''.globals[v]? = some p) :
        p.allocation < s'.memory.allocations.size := by
      obtain rfl : p' = p := Option.some_inj.mp ((h'.globals v p' hmid).symm.trans hp)
      obtain ⟨-, g, d, n, hpristine⟩ := h.made v p' hn hmid
      exact (Array.getElem?_eq_some_iff.mp hpristine.row).1
    cases hv' : s'.globals[v]? with
    | none =>
      have hout := (h'.made v p hv' hp).1
      cases hw' : s'.globals[w]? with
      | none => exact h'.apart v w p q hv' hw' hp hq he
      | some q' =>
        have := inside hw hw' hq
        omega
    | some p' =>
      have hin := inside hv hv' hp
      cases hw' : s'.globals[w]? with
      | none =>
        have := (h'.made w q hw' hq).1
        omega
      | some q' =>
        obtain rfl : p' = p := Option.some_inj.mp ((h'.globals v p' hv').symm.trans hp)
        obtain rfl : q' = q := Option.some_inj.mp ((h'.globals w q' hw').symm.trans hq)
        exact h.apart v w p' q' hv hw hv' hw' he
  fresh i row hi hrow := by
    have kept {v : ValueId} (hn : s'.globals[v]? = none) : s.globals[v]? = none := by
      cases hv : s.globals[v]? with
      | none => rfl
      | some p => exact absurd (h.globals v p hv) (by simp [hn])
    by_cases hmid : s'.memory.allocations.size ≤ i
    · refine (h'.fresh i row hmid hrow).imp_right ?_
      rintro ⟨v, p, hn, hp, rfl⟩
      exact ⟨v, p, kept hn, hp, rfl⟩
    · have hlt : i < s'.memory.allocations.size := by omega
      have hrow' := Array.getElem?_eq_getElem hlt
      obtain rfl := Option.some_inj.mp ((h'.rows i _ hrow').symm.trans hrow)
      refine (h.fresh i _ hi hrow').imp_right ?_
      rintro ⟨v, p, hn, hp, rfl⟩
      exact ⟨v, p, hn, h'.globals v p hp, rfl⟩
  accounted ha := h'.accounted (h.accounted ha)
  limit := h'.limit.trans h.limit
  depth := h'.depth.trans h.depth
  steps := Nat.le_trans h.steps h'.steps

end Widens

/-- A new row takes no more than there is room for. -/
theorem widens_pushed {type : TypeId} {count : Nat} {isStack : Bool}
    (h : s.memory.newRow e.host e.module.types type count isStack = .ok row) :
    e.Widens s { s with memory := (s.memory.push row).2 } where
  rows i row' hi := by
    have hlt := (Array.getElem?_eq_some_iff.mp hi).1
    simpa [Memory.push, Array.getElem?_push_lt hlt, Array.getElem?_eq_getElem hlt] using hi
  globals _ _ h := h
  made v p hn hp := by
    change s.globals[v]? = some p at hp
    simp [hn] at hp
  apart v w p q hn _ hp _ _ := by
    change s.globals[v]? = some p at hp
    simp [hn] at hp
  fresh i row' hi hrow' := by
    have hpushed : (s.memory.allocations.push row)[i]? = some row' := hrow'
    obtain ⟨hlt, -⟩ := Array.getElem?_eq_some_iff.mp hpushed
    obtain rfl : i = s.memory.allocations.size := by
      rw [Array.size_push] at hlt
      omega
    rw [Array.getElem?_push_size] at hpushed
    obtain ⟨n, hroom, -, hrow⟩ := Memory.newRow_eq_ok.mp h
    exact .inl ⟨type, count, isStack, n, (Memory.room_eq_ok.mp hroom).1,
      (Option.some_inj.mp hpushed).symm.trans hrow⟩
  accounted ha := by
    obtain ⟨n, hroom, -, rfl⟩ := Memory.newRow_eq_ok.mp h
    exact ha.push rfl (Memory.room_eq_ok.mp hroom).2
  limit := rfl
  depth := rfl
  steps := Nat.le_refl _

/-- A global that was new gets its storage and what it starts with. -/
theorem widens_stored {s' : Machine} {d : Datum} (hn : s.globals[v]? = none)
    (hk : e.module.kindOf v = .global g) (hl : e.module.isListed v)
    (hr : s.memory.newRow e.host e.module.types g.valueType 1 false = .ok row)
    (h : e.Widens (opened s v row) s') (hd : e.StartsWith s'.globals g d) :
    e.Widens s { s' with memory := s'.memory.setCell { allocation := s.memory.allocations.size } d } ∧
      s'.globals[v]? = some { allocation := s.memory.allocations.size } := by
  obtain ⟨n, hroom, hprovides, hrow⟩ := Memory.newRow_eq_ok.mp hr
  have hopened : ∀ w ≠ v, (opened s v row).globals[w]? = s.globals[w]? := fun w hw => by
    simp [opened, getElem?_insert, Ne.symm hw]
  have hplace : s'.globals[v]? = some { allocation := s.memory.allocations.size } :=
    h.globals _ _ (by simp [opened])
  have hsize : (opened s v row).memory.allocations.size = s.memory.allocations.size + 1 := by
    simp [opened, Memory.push]
  have hpushed := widens_pushed (e := e) hr
  have hset : ∀ i ≠ s.memory.allocations.size,
      (s'.memory.setCell { allocation := s.memory.allocations.size } d).allocations[i]? =
        s'.memory.allocations[i]? := fun i hi => by
    rw [Memory.setCell, Array.getElem?_modify, if_neg (Ne.symm hi)]
  have hthis : (s'.memory.setCell { allocation := s.memory.allocations.size } d).allocations[
      s.memory.allocations.size]? = some { cells := #[d], footprint := n, isStack := false } := by
    rw [Memory.setCell, Array.getElem?_modify, if_pos rfl, h.rows _ _ (opened_row s v row), hrow]
    rfl
  have later : ∀ (w : ValueId) p, w ≠ v → s.globals[w]? = none → s'.globals[w]? = some p →
      s.memory.allocations.size + 1 ≤ p.allocation ∧ ∃ g d n, e.Pristine s' w p g d n := by
    intro w p hwv hw hp
    rw [← hsize]
    exact h.made w p (by rw [hopened w hwv, hw]) hp
  refine ⟨⟨fun i row hi => ?_, fun w p hp => ?_, fun w p hw hp => ?_, fun w w' p q hw hw' hp hq he =>
    ?_, fun i row' hi hrow' => ?_, fun ha => ?_, h.limit, h.depth, h.steps⟩, hplace⟩
  · have hlt := (Array.getElem?_eq_some_iff.mp hi).1
    rw [hset i (by omega)]
    exact h.rows i row (hpushed.rows i row hi)
  · refine h.globals w p ?_
    rw [hopened w (fun he => by simp [he, hn] at hp), hp]
  · by_cases hwv : w = v
    · subst hwv
      obtain rfl := Option.some_inj.mp (hplace.symm.trans hp)
      exact ⟨Nat.le_refl _, g, d, n, hk, hl, rfl, hthis, (Memory.room_eq_ok.mp hroom).1, hprovides,
        hd⟩
    · obtain ⟨hlt, g', d', n', hpristine⟩ := later w p hwv hw hp
      refine ⟨by omega, g', d', n', { hpristine with row := ?_ }⟩
      rw [hset _ (by omega)]
      exact hpristine.row
  · by_cases hwv : w = v
    · by_cases hwv' : w' = v
      · rw [hwv, hwv']
      · have hlt := (later w' q hwv' hw' hq).1
        rw [hwv] at hp
        obtain rfl := Option.some_inj.mp (hplace.symm.trans hp)
        dsimp only at he
        omega
    · have hlt := (later w p hwv hw hp).1
      by_cases hwv' : w' = v
      · rw [hwv'] at hq
        obtain rfl := Option.some_inj.mp (hplace.symm.trans hq)
        dsimp only at he
        omega
      · exact h.apart w w' p q (by rw [hopened w hwv, hw]) (by rw [hopened w' hwv', hw']) hp hq he
  · by_cases hthis : i = s.memory.allocations.size
    · exact .inr ⟨v, _, hn, hplace, hthis.symm⟩
    · rw [hset i hthis] at hrow'
      refine (h.fresh i row' (by omega) hrow').imp_right ?_
      rintro ⟨w, p, hw, hp, rfl⟩
      have hwv : w ≠ v := by
        rintro rfl
        simp [opened] at hw
      exact ⟨w, p, by rw [← hopened w hwv, hw], hp, rfl⟩
  · exact (h.accounted (hpushed.accounted ha)).setCell

/-! ### Steps that only add -/

/-- Where the step succeeds, it has only added to the machine. -/
def Widening {α : Type} (e : Setting) (s : Machine) (step : Run α) (ok : Machine → α → Prop) : Prop :=
  ∀ a s', step.run.run s = (.ok a, s') → e.Widens s s' ∧ ok s' a

section

variable {α β : Type} {ok : Machine → α → Prop} {ok' : Machine → β → Prop}

theorem widening_pure {a : α} (h : ok s a) : e.Widening s (pure a) ok := by
  intro b s' hr
  cases hr
  exact ⟨.refl e s, h⟩

theorem widening_get : e.Widening s (get : Run Machine) fun _ _ => True := by
  intro _ s' hr
  cases hr
  exact ⟨.refl e s, trivial⟩

theorem widening_throw (fault : Fault) : e.Widening s (throw fault : Run α) ok := by
  intro b s' hr
  cases hr

theorem widening_bind {step : Run α} {next : α → Run β} (h : e.Widening s step ok)
    (hn : ∀ a s', e.Widens s s' → ok s' a → e.Widening s' (next a) ok') :
    e.Widening s (step >>= next) ok' := by
  intro b s'' hr
  obtain ⟨a, s', hs, hr⟩ := run_bind_eq_ok hr
  obtain ⟨hw, ha⟩ := h a s' hs
  obtain ⟨hw', hb⟩ := hn a s' hw ha b s'' hr
  exact ⟨hw.trans hw', hb⟩

theorem Widening.mono {step : Run α} {ok' : Machine → α → Prop} (h : e.Widening s step ok)
    (hok : ∀ a s', ok s' a → ok' s' a) : e.Widening s step ok' := fun a s' hr =>
  ⟨(h a s' hr).1, hok a s' (h a s' hr).2⟩

theorem widening_bind_any {step : Run α} {next : α → Run β}
    (h : e.Widening s step fun _ _ => True) (hn : ∀ a s', e.Widening s' (next a) ok') :
    e.Widening s (step >>= next) ok' :=
  widening_bind h fun a s' _ _ => hn a s'

theorem widening_ofExcept (r : Except Fault α) :
    e.Widening s (Run.ofExcept r) fun _ _ => True := by
  cases r with
  | error fault => exact widening_throw fault
  | ok a => exact widening_pure trivial

theorem widening_mapM {P : Machine → α → β → Prop} {f : α → Run β} {xs : List α}
    (hmono : ∀ s s' a b, e.Widens s s' → P s a b → P s' a b)
    (h : ∀ x ∈ xs, ∀ s, e.Widening s (f x) fun s' => P s' x) :
    e.Widening s (xs.mapM f) fun s' => List.Forall₂ (P s') xs := by
  induction xs generalizing s with
  | nil => exact widening_pure .nil
  | cons x xs ih =>
    rw [List.mapM_cons]
    refine widening_bind (h x (by simp) s) fun b s' _ hb => ?_
    refine widening_bind (ih fun y hy => h y (by simp [hy])) fun bs s'' hw hbs => ?_
    exact widening_pure (.cons (hmono s' s'' x b hw hb) hbs)

theorem widening_allocate {type : TypeId} {count : Nat} {isStack : Bool} :
    e.Widening s (Run.allocate e.host e.module.types type count isStack) fun _ _ => True := by
  intro p s' hr
  rw [allocate_run] at hr
  cases hrow : s.memory.newRow e.host e.module.types type count isStack with
  | error fault =>
    rw [hrow] at hr
    cases hr
  | ok row =>
    rw [hrow] at hr
    cases hr
    exact ⟨widens_pushed hrow, trivial⟩

theorem widening_load (target : Option Pointer) :
    e.Widening s (Run.load target) fun _ _ => True :=
  widening_bind_any widening_get fun _ _ => widening_ofExcept _

end

/-! ### Reading -/

theorem storage_widens {constant : ValueId → Run Datum} (hk : e.module.kindOf v = .global g)
    (hc : ∀ init ∈ g.initializer, ∀ s,
      e.Widening s (constant init) fun s' => e.Denotes s'.globals init) :
    e.Widening s (e.storage constant v g) fun s' p => s'.globals[v]? = some p := by
  intro p s' hr
  cases hn : s.globals[v]? with
  | some q =>
    rw [storage_known hn] at hr
    cases hr
    exact ⟨.refl e s, hn⟩
  | none =>
    obtain ⟨hl, row, hrow⟩ := newRow_of_storage hn hr
    rw [storage_new hn hl hrow] at hr
    have hcontent : e.Widening (opened s v row) (e.content constant g)
        fun s' => e.StartsWith s'.globals g := by
      unfold content StartsWith
      cases hi : g.initializer with
      | none => exact widening_pure rfl
      | some init => exact hc init hi _
    obtain ⟨d, s1, hd, hr⟩ := run_bind_eq_ok hr
    obtain ⟨hw, hstarts⟩ := hcontent d s1 hd
    obtain ⟨n, -, -, hcells⟩ := Memory.newRow_eq_ok.mp hrow
    have hstore := store_first (d := d) (hw.rows _ _ (opened_row s v row)) (by rw [hcells])
      (c := e.module.types.zero g.valueType) (by rw [hcells]; rfl)
    rw [run_bind, hstore] at hr
    cases hr
    exact widens_stored hn hk hl hrow hw hstarts

/-- A constant that is read has the globals that it leads to stored. -/
theorem constant_widens (fuel : Nat) (v : ValueId) (s : Machine) :
    e.Widening s (e.constant fuel v) fun s' => e.Denotes s'.globals v := by
  induction fuel generalizing v s with
  | zero => exact widening_throw _
  | succ fuel ih =>
    unfold constant
    dsimp only
    cases hk : (e.module.value v).kind with
    | int word => exact widening_pure (.int hk)
    | float number => exact widening_pure (.float hk)
    | null => exact widening_pure (.null hk)
    | undef =>
      intro d s' hr
      obtain ⟨t, s₁, hs, hr⟩ := run_bind_eq_ok hr
      cases hs
      cases hzero : s.memory.zero e.host e.module.types (e.module.value v).type with
      | error fault =>
        rw [hzero] at hr
        cases hr
      | ok d' =>
        rw [hzero] at hr
        cases hr
        obtain ⟨-, -, hz, rfl⟩ := Memory.zero_eq_ok.mp hzero
        exact ⟨.refl e s, .undef hk hz⟩
    | aggregate elements =>
      refine widening_bind (widening_mapM (fun s s' a d hw h => h.mono hw.globals)
        fun w _ s => ih w s) fun ds s' _ hds => widening_pure (.of_elements hk hds)
    | bytes data => exact widening_pure (.bytes hk)
    | global g =>
      exact widening_bind (storage_widens hk fun init _ s => ih init s) fun p s' _ hp =>
        widening_pure (.global hk hp)
    | argument f n => exact widening_throw _
    | instruction i => exact widening_throw _

section

variable {frame : Frame}

theorem operand_widens (frame : Frame) (v : ValueId) :
    e.Widening s (e.operand frame v) fun _ _ => True := by
  have found : e.Widening s (framed frame v) fun _ _ => True := by
    unfold framed
    cases frame[v]? with
    | some d => exact widening_pure trivial
    | none => exact widening_throw _
  unfold operand
  split
  · exact found
  · exact found
  · exact (e.constant_widens _ v s).mono fun _ _ _ => trivial

theorem wordOperand_widens (v : ValueId) :
    e.Widening s (e.wordOperand frame v) fun _ _ => True :=
  widening_bind_any (operand_widens frame v) fun _ _ => widening_ofExcept _

theorem signedOperand_widens (v : ValueId) :
    e.Widening s (e.signedOperand frame v) fun _ _ => True :=
  widening_bind_any (operand_widens frame v) fun _ _ => widening_ofExcept _

theorem members_widens (v : ValueId) : e.Widening s (e.members frame v) fun _ _ => True :=
  widening_bind_any (operand_widens frame v) fun _ _ => widening_ofExcept _

theorem widening_foldlM {α β : Type} {f : α → β → Run α} {xs : List β} {a : α}
    (h : ∀ a x s, e.Widening s (f a x) fun _ _ => True) :
    e.Widening s (xs.foldlM f a) fun _ _ => True := by
  induction xs generalizing a s with
  | nil => exact widening_pure trivial
  | cons x xs ih =>
    rw [List.foldlM_cons]
    exact widening_bind_any (h a x s) fun _ _ => ih

theorem derive_widens (base : ValueId) (indices : List ValueId) :
    e.Widening s (e.derive frame base indices) fun _ _ => True := by
  unfold derive
  refine widening_bind_any (operand_widens frame base) fun d s => ?_
  refine widening_bind_any (widening_ofExcept _) fun target s => ?_
  cases target with
  | none => exact widening_throw _
  | some p =>
    cases indices with
    | nil => exact widening_pure trivial
    | cons first rest =>
      refine widening_bind_any (signedOperand_widens first) fun offset s => ?_
      refine widening_bind_any (widening_ofExcept _) fun q s => ?_
      refine widening_bind_any (widening_foldlM fun p index s => ?_) fun _ _ =>
        widening_pure trivial
      exact widening_bind_any (signedOperand_widens index) fun _ _ => widening_ofExcept _

/-- An instruction that neither stores nor calls only adds to the machine. -/
theorem evaluate_adds {callee : FunctionId → List Datum → Run Datum} {type : TypeId}
    {i : Instruction} (hstore : ∀ value ptr, i ≠ .store value ptr)
    (hcall : ∀ f args, i ≠ .call f args) :
    e.Widening s (e.evaluate callee frame type i) fun _ _ => True := by
  unfold evaluate
  cases i with
  | store value ptr => exact (hstore value ptr rfl).elim
  | call f args => exact (hcall f args rfl).elim
  | branch _ | condBranch _ _ _ | switch _ _ _ | phi _ | ret _ | unreachable =>
    exact widening_throw _
  | binary op lhs rhs | icmp pred lhs rhs | fcmp pred lhs rhs =>
    refine widening_bind_any (operand_widens frame lhs) fun _ _ => ?_
    exact widening_bind_any (operand_widens frame rhs) fun _ _ => widening_ofExcept _
  | alloca allocated count =>
    have hcount : e.Widening s (e.slotCount frame count) fun _ _ => True := by
      unfold slotCount
      cases count with
      | none => exact widening_pure trivial
      | some v =>
        refine widening_bind_any (signedOperand_widens v) fun n s => ?_
        split
        · exact widening_bind_any (widening_throw _) fun _ _ => widening_pure trivial
        · exact widening_pure trivial
    refine widening_bind_any hcount fun n s => ?_
    exact widening_bind_any widening_allocate fun _ _ => widening_pure trivial
  | load ptr =>
    refine widening_bind_any (operand_widens frame ptr) fun _ _ => ?_
    exact widening_bind_any (widening_ofExcept _) fun _ _ => widening_load _
  | elementPtr base indices => exact derive_widens base indices
  | cast op value =>
    exact widening_bind_any (operand_widens frame value) fun _ _ => widening_ofExcept _
  | extractValue aggregate index =>
    exact widening_bind_any (members_widens aggregate) fun _ _ => widening_ofExcept _
  | insertValue aggregate element index =>
    refine widening_bind_any (members_widens aggregate) fun _ _ => ?_
    exact widening_bind_any (operand_widens frame element) fun _ _ => widening_ofExcept _
  | extractElement vector index =>
    refine widening_bind_any (members_widens vector) fun _ _ => ?_
    exact widening_bind_any (wordOperand_widens index) fun _ _ => widening_ofExcept _
  | insertElement vector element index =>
    refine widening_bind_any (members_widens vector) fun _ _ => ?_
    refine widening_bind_any (operand_widens frame element) fun _ _ => ?_
    exact widening_bind_any (wordOperand_widens index) fun _ _ => widening_ofExcept _
  | shuffle lhs rhs mask =>
    refine widening_bind_any (members_widens lhs) fun _ _ => ?_
    refine widening_bind_any (members_widens rhs) fun _ _ => ?_
    exact widening_bind_any (members_widens mask) fun _ _ => widening_ofExcept _
  | select cond thenValue elseValue =>
    refine widening_bind_any (operand_widens frame cond) fun _ _ => ?_
    refine widening_bind_any (operand_widens frame thenValue) fun _ _ => ?_
    exact widening_bind_any (operand_widens frame elseValue) fun _ _ => widening_ofExcept _

/-- An instruction without effect only adds to the machine. -/
theorem evaluate_widens {callee : FunctionId → List Datum → Run Datum} {type : TypeId}
    {i : Instruction} (hi : i.hasSideEffects = false) :
    e.Widening s (e.evaluate callee frame type i) fun _ _ => True := by
  refine evaluate_adds ?_ ?_
  · rintro value ptr rfl
    cases hi
  · rintro f args rfl
    cases hi

theorem widening_tick (limit : Nat) : e.Widening s (tick limit) fun _ _ => True := by
  intro a s' hr
  rw [tick_run] at hr
  split at hr
  · cases hr
  · cases hr
    exact ⟨.of_same rfl rfl rfl (Nat.le_succ _), trivial⟩

/-! ### Edges and ends of blocks -/

section

variable {f : FunctionId} {b : BlockId} {previous : Option BlockId}
  {callee : FunctionId → List Datum → Run Datum} {rest : List ValueId}

theorem readPhi_widens {incoming : List (BlockId × ValueId)} :
    e.Widening s (e.readPhi f b previous frame v incoming) fun _ x => x.1 = v := by
  unfold readPhi
  split
  · exact widening_throw _
  · split
    · exact widening_throw _
    · exact widening_bind_any (operand_widens frame _) fun _ _ => widening_pure rfl

theorem readPhis_widens (l : List ValueId) :
    e.Widening s (e.readPhis f b previous frame l) fun _ _ => True := by
  induction l generalizing s with
  | nil => exact widening_pure trivial
  | cons v l ih =>
    by_cases hphi : ∃ incoming, e.module.instruction? v = some (.phi incoming)
    · obtain ⟨incoming, hi⟩ := hphi
      rw [readPhis_phi e hi]
      refine widening_bind_any (readPhi_widens.mono fun _ _ _ => trivial) fun _ _ => ?_
      exact widening_bind_any ih fun _ _ => widening_pure trivial
    · rw [readPhis_stop e (head_not_phi hphi)]
      exact widening_pure trivial

theorem switchTarget_widens {word : UInt64} {default : BlockId} {cases : List (ValueId × BlockId)} :
    e.Widening s (e.switchTarget frame word default cases) fun _ _ => True := by
  induction cases generalizing s with
  | nil => exact widening_pure trivial
  | cons c cases ih =>
    unfold switchTarget
    refine widening_bind_any (wordOperand_widens _) fun _ _ => ?_
    split
    · exact widening_pure trivial
    · exact ih

/-- An end of a block only adds to the machine. -/
theorem ending_widens {i : Instruction} (hi : e.module.instruction? v = some i)
    (hend : i.isTerminator ∨ i.isPhi) :
    e.Widening s (e.runInstructions callee f b (v :: rest) frame) fun _ _ => True := by
  rw [runInstructions, hi]
  refine widening_bind_any (widening_tick _) fun _ _ => ?_
  cases i with
  | branch dest => exact widening_pure trivial
  | condBranch cond thenDest elseDest =>
    refine widening_bind_any (operand_widens frame cond) fun _ _ => ?_
    exact widening_bind_any (widening_ofExcept _) fun _ _ => widening_pure trivial
  | switch value default cases =>
    refine widening_bind_any (wordOperand_widens value) fun _ _ => ?_
    exact widening_bind_any switchTarget_widens fun _ _ => widening_pure trivial
  | ret value =>
    cases value with
    | none => exact widening_pure trivial
    | some value =>
      exact widening_bind_any (operand_widens frame value) fun _ _ => widening_pure trivial
  | unreachable | phi _ => exact widening_throw _
  | _ => simp [Instruction.isTerminator, Instruction.isPhi] at hend

end

end

end Setting
end SsaKit
