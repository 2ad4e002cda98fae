import SsaKit.Proofs.Weight
import SsaKit.Proofs.Widening

/-! What loads give after a store, for every place beside, inside or around the one that was stored
into. -/
namespace SsaKit

namespace Datum

variable {d old new changed part : Datum} {path rest : List Nat}

@[simp] theorem walk_nil (d : Datum) : d.walk [] = some d := by
  cases d <;> rfl

@[simp] theorem replace_nil (new d : Datum) : replace new d [] = some new := by
  cases d <;> rfl

theorem walk_append (d : Datum) (path rest : List Nat) :
    d.walk (path ++ rest) = (d.walk path).bind (·.walk rest) := by
  induction path generalizing d with
  | nil => simp
  | cons step path ih =>
    cases d with
    | aggregate members =>
      rw [List.cons_append, walk, walk, Option.bind_assoc]
      simp only [ih]
    | _ => rfl

theorem replace_cons_eq_some {step : Nat} : replace new d (step :: path) = some changed ↔
    ∃ members member part, d = .aggregate members ∧ members[step]? = some member ∧
      replace new member path = some part ∧ changed = .aggregate (members.set step part) := by
  constructor
  · intro h
    cases d with
    | aggregate members =>
      rw [replace] at h
      obtain ⟨member, hmember, h⟩ := Option.bind_eq_some_iff.mp h
      obtain ⟨part, hpart, h⟩ := Option.bind_eq_some_iff.mp h
      cases h
      exact ⟨members, member, part, rfl, hmember, hpart, rfl⟩
    | _ => cases h
  · rintro ⟨members, member, part, rfl, hmember, hpart, rfl⟩
    simp [replace, hmember, hpart]

/-- A place that is there can be replaced. -/
theorem replace_of_walk (h : d.walk path = some old) (new : Datum) :
    ∃ changed, replace new d path = some changed := by
  induction path generalizing d with
  | nil => exact ⟨new, replace_nil new d⟩
  | cons step path ih =>
    cases d with
    | aggregate members =>
      rw [walk] at h
      obtain ⟨member, hmember, h⟩ := Option.bind_eq_some_iff.mp h
      obtain ⟨part, hpart⟩ := ih h
      exact ⟨_, replace_cons_eq_some.mpr ⟨members, member, part, rfl, hmember, hpart, rfl⟩⟩
    | _ => cases h

theorem walk_replace (h : replace new d path = some changed) : changed.walk path = some new := by
  induction path generalizing d changed with
  | nil =>
    obtain rfl : new = changed := by simpa using h
    exact walk_nil new
  | cons step path ih =>
    obtain ⟨members, member, part, rfl, hmember, hpart, rfl⟩ := replace_cons_eq_some.mp h
    have hlt := (List.getElem?_eq_some_iff.mp hmember).1
    rw [walk, List.getElem?_set_self hlt]
    exact ih hpart

/-- What is neither inside the place nor around it is left alone. -/
theorem walk_replace_apart {away : List Nat} (h : replace new d path = some changed)
    (hin : ¬ path <+: away) (hout : ¬ away <+: path) : changed.walk away = d.walk away := by
  induction path generalizing d changed away with
  | nil => exact absurd List.nil_prefix hin
  | cons step path ih =>
    obtain ⟨members, member, part, rfl, hmember, hpart, rfl⟩ := replace_cons_eq_some.mp h
    cases away with
    | nil => exact absurd List.nil_prefix hout
    | cons other away =>
      rw [walk, walk]
      by_cases hstep : step = other
      · subst hstep
        have hlt := (List.getElem?_eq_some_iff.mp hmember).1
        rw [List.getElem?_set_self hlt, hmember]
        exact ih hpart (fun hp => hin ((List.prefix_cons_inj step).mpr hp))
          fun hp => hout ((List.prefix_cons_inj step).mpr hp)
      · rw [List.getElem?_set_ne hstep]

/-- Replacing a place replaces it inside of everything around it. -/
theorem replace_append (h : replace new d (path ++ rest) = some changed) :
    ∃ old part, d.walk path = some old ∧ replace new old rest = some part ∧
      changed.walk path = some part := by
  induction path generalizing d changed with
  | nil => exact ⟨d, changed, walk_nil d, h, walk_nil changed⟩
  | cons step path ih =>
    obtain ⟨members, member, part, rfl, hmember, hpart, rfl⟩ := replace_cons_eq_some.mp h
    obtain ⟨old, part', hold, hpart', hwalk⟩ := ih hpart
    have hlt := (List.getElem?_eq_some_iff.mp hmember).1
    refine ⟨old, part', ?_, hpart', ?_⟩
    · rw [walk, hmember]
      exact hold
    · rw [walk, List.getElem?_set_self hlt]
      exact hwalk

/-- The second datum has `part` at the end of the path, and is otherwise like the first one: the same
data off the path, and as many members at every place on the way. -/
structure Replaced (old : Datum) (path : List Nat) (part new : Datum) : Prop where
  inside : ∀ rest, new.walk (path ++ rest) = part.walk rest
  beside : ∀ away, ¬ path <+: away → ¬ away <+: path → new.walk away = old.walk away
  around : ∀ above, above <+: path → above ≠ path → ∃ members members',
    old.walk above = some (.aggregate members) ∧ new.walk above = some (.aggregate members') ∧
      members.length = members'.length

theorem replaced_of_replace (h : replace part old path = some new) : old.Replaced path part new where
  inside rest := by
    rw [walk_append, walk_replace h, Option.bind_some]
  beside away hin hout := walk_replace_apart h hin hout
  around above hprefix hne := by
    obtain ⟨rest, rfl⟩ := hprefix
    obtain ⟨d, changed, hd, hchanged, hwalk⟩ := replace_append h
    cases rest with
    | nil => exact absurd (List.append_nil above).symm hne
    | cons step rest =>
      obtain ⟨members, member, new', rfl, -, -, rfl⟩ := replace_cons_eq_some.mp hchanged
      exact ⟨members, _, hd, hwalk, (List.length_set ..).symm⟩

theorem Replaced.member {step : Nat} {members members' : List Datum} {c c' : Datum}
    (h : Replaced (.aggregate members) (step :: path) part (.aggregate members'))
    (hc : members[step]? = some c) (hc' : members'[step]? = some c') : c.Replaced path part c' := by
  have hold (away : List Nat) : (Datum.aggregate members).walk (step :: away) = c.walk away := by
    rw [walk, hc]
    rfl
  have hnew (away : List Nat) : (Datum.aggregate members').walk (step :: away) = c'.walk away := by
    rw [walk, hc']
    rfl
  refine ⟨fun rest => ?_, fun away hin hout => ?_, fun above hprefix hne => ?_⟩
  · rw [← hnew]
    exact h.inside rest
  · rw [← hnew, ← hold]
    exact h.beside _ (fun hp => hin ((List.prefix_cons_inj step).mp hp))
      fun hp => hout ((List.prefix_cons_inj step).mp hp)
  · rw [← hnew, ← hold]
    exact h.around _ ((List.prefix_cons_inj step).mpr hprefix) fun he => hne (List.cons.inj he).2

/-- There is one such datum, and replacing gives it. -/
theorem replace_eq_some : replace part old path = some new ↔ old.Replaced path part new := by
  refine ⟨replaced_of_replace, fun h => ?_⟩
  induction path generalizing old new with
  | nil =>
    have hnew := h.inside []
    rw [List.append_nil, walk_nil, walk_nil] at hnew
    rw [replace_nil, hnew]
  | cons step path ih =>
    obtain ⟨members, members', hold, hnew, hlength⟩ := h.around [] List.nil_prefix nofun
    rw [walk_nil, Option.some_inj] at hold hnew
    subst hold hnew
    have hpart := h.inside []
    rw [List.append_nil, walk_nil, walk] at hpart
    obtain ⟨c', hc', -⟩ := Option.bind_eq_some_iff.mp hpart
    obtain ⟨c, hc⟩ : ∃ c, members[step]? = some c :=
      ⟨_, List.getElem?_eq_getElem (hlength ▸ (List.getElem?_eq_some_iff.mp hc').1)⟩
    have hset : members.set step c' = members' := by
      refine List.ext_getElem? fun i => ?_
      by_cases hi : step = i
      · subst hi
        rw [List.getElem?_set_self (List.getElem?_eq_some_iff.mp hc).1, hc']
      · rw [List.getElem?_set_ne hi]
        have hbeside := h.beside [i] (by simp [hi]) (by simp [Ne.symm hi])
        simpa [walk] using hbeside.symm
    exact replace_cons_eq_some.mpr
      ⟨members, c, c', rfl, hc, ih (h.member hc hc'), by rw [hset]⟩

end Datum

/-- Two pointers to places that have nothing in common: in other cells, or at the ends of paths of
which neither leads through the other. -/
def Pointer.Apart (p q : Pointer) : Prop :=
  q.allocation ≠ p.allocation ∨ q.index ≠ p.index ∨ ¬ p.path <+: q.path ∧ ¬ q.path <+: p.path

/-- A pointer that is not apart goes inside the place or around it. -/
theorem Pointer.apart_or (p q : Pointer) : p.Apart q ∨
    (∃ rest, q = { p with path := p.path ++ rest }) ∨
      ∃ rest, rest ≠ [] ∧ p = { q with path := q.path ++ rest } := by
  obtain ⟨n, i, path⟩ := p
  obtain ⟨m, j, away⟩ := q
  unfold Apart
  by_cases hn : m = n
  · by_cases hi : j = i
    · subst hn hi
      by_cases hin : path <+: away
      · obtain ⟨rest, rfl⟩ := hin
        exact .inr (.inl ⟨rest, rfl⟩)
      · by_cases hout : away <+: path
        · obtain ⟨rest, rfl⟩ := hout
          exact .inr (.inr ⟨rest, by rintro rfl; simp at hin, rfl⟩)
        · exact .inl (.inr (.inr ⟨hin, hout⟩))
    · exact .inl (.inr (.inl hi))
  · exact .inl (.inl hn)

namespace Memory

variable {mem : Memory} {p q : Pointer} {c d old : Datum} {target : Option Pointer}

theorem load_eq_ok : mem.load (some p) = .ok d ↔ ∃ c, mem.cell p = .ok c ∧ c.walk p.path = some d := by
  cases hc : mem.cell p with
  | error fault => simp [load, hc, bind, Except.bind]
  | ok c => cases hw : c.walk p.path <;> simp [load, hc, hw, bind, Except.bind]

theorem load_of_cell (h : mem.cell p = .ok c) :
    mem.load (some p) = match c.walk p.path with
      | some d => .ok d
      | none => .error (.outOfBounds p) := by
  rw [load, h]
  rfl

theorem cell_setCell (h : mem.cell p = .ok c) (d : Datum) (hn : q.allocation = p.allocation)
    (hi : q.index = p.index) : (mem.setCell p d).cell q = .ok d := by
  obtain ⟨row, hr, hl, h0, hc⟩ := cell_eq_ok.mp h
  refine cell_eq_ok.mpr ⟨row.set p.index.toNat d, ?_, hl, hi ▸ h0, ?_⟩
  · rw [setCell_getElem?, if_pos hn.symm, hn, hr]
    rfl
  · rw [hi, Allocation.set_cells,
      Array.getElem?_setIfInBounds_self_of_lt (Array.getElem?_eq_some_iff.mp hc).1]

theorem cell_setCell_ne (h0 : 0 ≤ p.index) (d : Datum)
    (hne : q.allocation ≠ p.allocation ∨ q.index ≠ p.index) :
    (mem.setCell p d).cell q = mem.cell q := by
  unfold cell row
  rw [setCell_getElem?]
  by_cases hn : p.allocation = q.allocation
  · have hi : q.index ≠ p.index := hne.resolve_left fun h => h hn.symm
    rw [if_pos hn]
    cases mem.allocations[q.allocation]? with
    | none => rfl
    | some row =>
      by_cases hl : row.isLive
      · by_cases hneg : q.index < 0
        · simp [hl, hneg, bind, Except.bind]
        · have hplace : p.index.toNat ≠ q.index.toNat := by omega
          simp [hl, hneg, bind, Except.bind, Array.getElem?_setIfInBounds_ne hplace]
      · simp [hl, bind, Except.bind]
  · rw [if_neg hn]

/-- What loads give after a store to `p` of `d`. -/
structure Written (before : Memory) (p : Pointer) (d : Datum) (after : Memory) : Prop where
  null : after.load none = before.load none
  apart : ∀ q, p.Apart q → after.load (some q) = before.load (some q)
  inside : ∀ rest, after.load (some { p with path := p.path ++ rest }) =
    match d.walk rest with
    | some part => .ok part
    | none => .error (.outOfBounds { p with path := p.path ++ rest })
  around : ∀ q rest, p = { q with path := q.path ++ rest } → ∃ old new,
    before.load (some q) = .ok old ∧ after.load (some q) = .ok new ∧ old.Replaced rest d new

/-- The same place reads as what was stored. -/
theorem Written.here {after : Memory} (h : mem.Written p d after) : after.load (some p) = .ok d := by
  have hinside := h.inside []
  simpa using hinside

/-- The record leaves no choice of what a load gives. -/
theorem Written.load_unique {after after' : Memory} (h : mem.Written p d after)
    (h' : mem.Written p d after') (target : Option Pointer) : after.load target = after'.load target := by
  cases target with
  | none => rw [h.null, h'.null]
  | some q =>
    obtain hq | ⟨rest, rfl⟩ | ⟨rest, -, hq⟩ := p.apart_or q
    · rw [h.apart q hq, h'.apart q hq]
    · rw [h.inside, h'.inside]
    · obtain ⟨old, new, hold, hnew, hr⟩ := h.around q rest hq
      obtain ⟨old', new', hold', hnew', hr'⟩ := h'.around q rest hq
      cases hold.symm.trans hold'
      have hsame := (Datum.replace_eq_some.mpr hr).symm.trans (Datum.replace_eq_some.mpr hr')
      rw [hnew, hnew', Option.some_inj.mp hsame]

theorem written_setCell {changed : Datum} (hc : mem.cell p = .ok c)
    (hr : Datum.replace d c p.path = some changed) : mem.Written p d (mem.setCell p changed) := by
  obtain ⟨-, -, -, h0, -⟩ := cell_eq_ok.mp hc
  have hcell (path : List Nat) : (mem.setCell p changed).cell { p with path } = .ok changed :=
    cell_setCell hc changed rfl rfl
  refine ⟨rfl, fun q hq => ?_, fun rest => ?_, fun q rest hq => ?_⟩
  · by_cases hne : q.allocation ≠ p.allocation ∨ q.index ≠ p.index
    · rw [load, load, cell_setCell_ne h0 changed hne]
    · push Not at hne
      obtain ⟨hn, hi⟩ := hne
      obtain ⟨hin, hout⟩ := (hq.resolve_left fun h => h hn).resolve_left fun h => h hi
      have hq : mem.cell q = .ok c := by
        obtain ⟨row, hrow⟩ := cell_eq_ok.mp hc
        exact cell_eq_ok.mpr ⟨row, by rwa [hn, hi]⟩
      rw [load_of_cell (cell_setCell hc changed hn hi), load_of_cell hq,
        Datum.walk_replace_apart hr hin hout]
  · rw [load_of_cell (hcell _), Datum.walk_append, Datum.walk_replace hr, Option.bind_some]
  · subst hq
    obtain ⟨old, new, hold, hnew, hwalk⟩ := Datum.replace_append hr
    have hq : mem.cell q = .ok c := by
      obtain ⟨row, hrow⟩ := cell_eq_ok.mp hc
      exact cell_eq_ok.mpr ⟨row, hrow⟩
    exact ⟨old, new, load_eq_ok.mpr ⟨c, hq, hold⟩, load_eq_ok.mpr ⟨changed, hcell q.path, hwalk⟩,
      Datum.replace_eq_some.mp hnew⟩

/-- The cell can be changed just where a load would read. -/
theorem changedCell_of_load (h : mem.load target = .ok old) (d : Datum) :
    ∃ p c changed, target = some p ∧ mem.cell p = .ok c ∧
      Datum.replace d c p.path = some changed ∧ mem.changedCell target d = .ok (p, changed) := by
  cases target with
  | none => cases h
  | some p =>
    obtain ⟨c, hc, hw⟩ := load_eq_ok.mp h
    obtain ⟨changed, hr⟩ := Datum.replace_of_walk hw d
    refine ⟨p, c, changed, rfl, hc, hr, ?_⟩
    simp only [changedCell, hc, bind, Except.bind, hr]

theorem changedCell_of_error {fault : Fault} (h : mem.load target = .error fault) (d : Datum) :
    ∃ fault', mem.changedCell target d = .error fault' := by
  cases hc : mem.changedCell target d with
  | error fault' => exact ⟨fault', rfl⟩
  | ok r =>
    obtain ⟨c, old, -, hload, -⟩ := changedCell_eq_ok hc
    rw [h] at hload
    cases hload

end Memory

/-- A store succeeds where a load would, and then every load is known: beside the place it gives what
it gave before, inside what was stored, and around the old datum with that in its place. Elsewhere
the store fails and leaves the machine as it was. -/
theorem Run.store_read (s : Machine) (target : Option Pointer) (d : Datum) :
    (∃ p old after, target = some p ∧ s.memory.load target = .ok old ∧
      (Run.store target d).run.run s = (.ok (), { s with memory := after }) ∧
        after.load target = .ok d ∧ s.memory.Written p d after) ∨
    ∃ fault fault', s.memory.load target = .error fault ∧
      (Run.store target d).run.run s = (.error fault', s) := by
  cases hload : s.memory.load target with
  | error fault =>
    obtain ⟨fault', hc⟩ := Memory.changedCell_of_error hload d
    refine .inr ⟨fault, fault', rfl, ?_⟩
    rw [store_run, hc]
  | ok old =>
    obtain ⟨p, c, changed, rfl, hc, hr, hchanged⟩ := Memory.changedCell_of_load hload d
    have hwritten := Memory.written_setCell hc hr
    refine .inl ⟨p, old, s.memory.setCell p changed, rfl, rfl, ?_, hwritten.here, hwritten⟩
    rw [store_run, hchanged]

/-- The second of two bytes is overwritten. -/
example :
    let row : Allocation := ⟨#[.aggregate [.int 8 1, .int 8 2]], 3, true, true⟩
    let s : Machine := { memory := ⟨#[row], 3, 3⟩ }
    ((Run.store (some { allocation := 0, path := [1] }) (.int 8 7)).run.run s).2.memory.load
      (some { allocation := 0 }) = .ok (.aggregate [.int 8 1, .int 8 7]) := rfl

end SsaKit
