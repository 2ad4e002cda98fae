import SsaKit.Proofs.Acceptance
import SsaKit.Proofs.Endurance
import SsaKit.Proofs.TypedRuns
import SsaKit.Proofs.Weight

/-! The memory limit: what is accounted for stays within it in every run, and what live cells hold
stays within it as long as no store puts more nodes into a place than it had. -/
namespace SsaKit

namespace Setting

open Run SsaKit.Module

variable {e : Setting} {f : FunctionId} {args : List Box} {p : Point} {v value ptr : ValueId}
  {g : Global} {s t : Machine} {d : Datum} {frame : Frame}

/-! ### Growth keeps memory modest -/

theorem Denotes.shaped {globals : Std.TreeMap ValueId Pointer} (hs : e.module.Sound)
    (hv : e.module.values.Has v) (h : e.Denotes globals v d) :
    e.module.types.Shape (e.module.typeOf v) d := by
  induction h with
  | int hk => exact wordDatum_shaped hs hv hk
  | float hk => exact floatDatum_shaped hs hv hk
  | bytes hk => exact bytes_shaped hs hv hk
  | @null v hk =>
    have hfits := (hs.values v hv).2
    rw [hk] at hfits
    exact hfits
  | @undef v hk hz =>
    have hfits := (hs.values v hv).2
    rw [hk] at hfits
    exact hs.types.shape_zero hfits
  | @global v g p hk hp =>
    have hfits := (hs.values v hv).2
    rw [hk] at hfits
    obtain ⟨he, -, -⟩ := hfits
    exact shape_pointer (by simp [TypeTable.kind, he, Ty.kind]) _
  | @aggregate v elements ds hk hn hds ih =>
    have hfits := (hs.values v hv).2
    rw [hk] at hfits
    obtain ⟨helements, hmembers⟩ := hfits
    refine TypeTable.shape_aggregate.mpr ⟨_, hmembers, ?_⟩
    rw [List.forall₂_map_left_iff]
    exact List.forall₂_iff_get.mpr ⟨hn, fun i hi hi' => ih i hi hi' (helements _ (List.get_mem _ _)).1⟩

/-- What a global starts with takes what the global's storage is accounted for. -/
theorem Pristine.nodes_eq {p : Pointer} {n : Nat} (hs : e.module.Sound)
    (h : e.Pristine s v p g d n) : d.nodes = n := by
  have hv : e.module.values.Has v := has_of_kindOf (by simp [h.kindOf])
  have hfits := (hs.values v hv).2
  rw [h.kindOf] at hfits
  obtain ⟨-, hsized, hinit⟩ := hfits
  have hzero := TypeTable.nodes_demand h.demand
  have hshape := hs.types.shape_zero hsized
  have hstarts := h.startsWith
  unfold StartsWith at hstarts
  have hd : e.module.types.Shape g.valueType d := by
    split at hstarts
    · exact hstarts ▸ hshape
    · rename_i init hi
      obtain ⟨hhas, -, htype⟩ := hinit init hi
      exact htype ▸ hstarts.shaped hs hhas
  rw [hd.nodes_eq hshape]
  omega

theorem Widens.modest (hs : e.module.Sound) (h : e.Widens s t) (hm : s.memory.Modest) :
    t.memory.Modest := by
  intro i row hi
  by_cases hold : i < s.memory.allocations.size
  · have hrow := Array.getElem?_eq_getElem hold
    obtain rfl := Option.some_inj.mp ((h.rows i _ hrow).symm.trans hi)
    exact hm i _ hrow
  · obtain ⟨type, count, isStack, n, hdemand, rfl⟩ | ⟨v, p, hn, hp, rfl⟩ :=
      h.fresh i row (by omega) hi
    · have := TypeTable.nodes_demand hdemand
      simp [Allocation.weight, Allocation.held, Datum.nodesAll_eq, this]
    · obtain ⟨-, g, d, n, hpristine⟩ := h.made v p hn hp
      obtain rfl := Option.some_inj.mp (hpristine.row.symm.trans hi)
      simp [Allocation.weight, Allocation.held, Datum.nodesAll, hpristine.nodes_eq hs]

/-! ### Stores -/

/-- What a store reads and the cell that it changes. -/
theorem store_eq_ok {callee : FunctionId → List Datum → Run Datum} {type : TypeId}
    (h : (e.evaluate callee frame type (.store value ptr)).run.run s = (.ok d, t)) :
    ∃ x s₁ target s₂ p changed, (e.operand frame value).run.run s = (.ok x, s₁) ∧
      (e.operand frame ptr).run.run s₁ = (.ok (.pointer target), s₂) ∧
      s₂.memory.changedCell target x = .ok (p, changed) ∧
      t = { s₂ with memory := s₂.memory.setCell p changed } := by
  obtain ⟨x, s₁, hx, h₁⟩ := run_bind_eq_ok h
  obtain ⟨y, s₂, hy, h₂⟩ := run_bind_eq_ok h₁
  obtain ⟨target, s₃, htarget, h₃⟩ := run_bind_eq_ok h₂
  obtain ⟨_, s₄, hstore, hvoid⟩ := run_bind_eq_ok h₃
  cases y with
  | pointer place =>
    cases htarget
    cases hvoid
    rw [store_run] at hstore
    cases hc : s₂.memory.changedCell target x with
    | error fault =>
      rw [hc] at hstore
      cases hstore
    | ok r =>
      rw [hc] at hstore
      cases hstore
      exact ⟨x, s₁, target, s₂, r.1, r.2, hx, hy, hc, rfl⟩
  | _ => cases htarget

/-- The point's store puts data into a place that had fewer nodes. -/
def Swells (e : Setting) (p : Point) : Prop :=
  ∃ v value ptr s x s₁ target s₂ old, e.Executes p v (.store value ptr) s ∧
    (e.operand p.frame value).run.run s = (.ok x, s₁) ∧
    (e.operand p.frame ptr).run.run s₁ = (.ok (.pointer target), s₂) ∧
    s₂.memory.load target = .ok old ∧ old.nodes < x.nodes

/-- Accounting endures every run. -/
theorem accounted_endures (f : FunctionId) (args : List Box) :
    e.Endures f args fun mem => mem.Accounted ∧ mem.limit = e.limits.cells where
  start := ⟨Memory.accounted_empty _, rfl⟩
  widens h hm := ⟨h.accounted hm.1, h.limit.trans hm.2⟩
  released mark hm := ⟨hm.1.releaseFrom mark, (Memory.releaseFrom_limit _ mark).trans hm.2⟩
  stores _ _ hs d t hr := by
    obtain ⟨x, s₁, target, s₂, p, changed, hx, hy, -, rfl⟩ := store_eq_ok hr
    have h₁ := (operand_widens _ _ _ _ hx).1
    have h₂ := (operand_widens _ _ _ _ hy).1
    exact ⟨(h₂.accounted (h₁.accounted hs.1)).setCell,
      h₂.limit.trans (h₁.limit.trans hs.2)⟩

/-- Modesty endures a run without stores that swell. -/
theorem modest_endures (hm : e.module.Sound) (h : ∀ p, e.Visits f args p → ¬ e.Swells p) :
    e.Endures f args Memory.Modest where
  start := Memory.modest_empty _
  widens hw := hw.modest hm
  released mark hs := hs.releaseFrom mark
  stores := by
    intro p v value ptr s hv hx hs d t hr
    obtain ⟨x, s₁, target, s₂, q, changed, hvalue, hptr, hc, rfl⟩ := store_eq_ok hr
    have h₁ := (operand_widens _ _ _ _ hvalue).1.modest hm hs
    refine ((operand_widens _ _ _ _ hptr).1.modest hm h₁).setCell hc fun old hold => ?_
    by_contra hlt
    exact h p hv ⟨v, value, ptr, s, x, s₁, target, s₂, old, hx, hvalue, hptr, hold, by omega⟩

/-- Where memory is typed, data and the places that they are stored into have the same type. -/
theorem TypedAt.not_swells {o : Order} {rows : List TypeId} (hm : e.module.Certified o)
    (hp : e.TypedAt (e.Makes f args) rows p) : ¬ e.Swells p := by
  rintro ⟨v, value, ptr, s, x, s₁, target, s₂, old, hx, hvalue, hptr, hold, hlt⟩
  have hhas := hm.sound.operands_has hx.2.1
  obtain ⟨hpointer, -⟩ := hm.sound.instructionFits hx.2.1
  obtain ⟨rows₁, hr₁, hs₁, htyped⟩ := operand_typed hm.sound (ticked hp.stores hx.2.2) hp.holds
    (hhas value (by simp [Instruction.operands])) x s₁ hvalue
  obtain ⟨rows₂, hr₂, hs₂, _, ⟨⟩, haims⟩ := pointerOperand_typed hm.sound hs₁ (hp.holds.mono hr₁)
    (hhas ptr (by simp [Instruction.operands])) hpointer _ s₂ hptr
  cases target with
  | none => cases hold
  | some q =>
    have hload := hs₂.load (haims q rfl)
    rw [hold] at hload
    have := htyped.shape.nodes_eq (TypeTable.Typed.shape hload)
    omega

end Setting

open Setting in
/-- The limit bounds what live cells hold in every run that keeps memory typed. -/
theorem Module.Assembled.memory_within {m : Module} (h : m.Assembled) (hv : m.verify = .ok ())
    (host : Host) (limits : Limits) (f : FunctionId) (args : List Box)
    (hargs : ∀ x ∈ args, x.isPointer = false)
    (hh : (⟨m, host, limits⟩ : Setting).Heeds f args) :
    let e : Setting := ⟨m, host, limits⟩
    ∀ p, e.Visits f args p → ¬ e.Swells p ∧ p.machine.memory.weight ≤ limits.cells := by
  intro e p hp
  have hm : e.module.Certified m.order := h.built.certified hv
  have hswell : ∀ q, e.Visits f args q → ¬ e.Swells q := fun q hq => by
    obtain ⟨rows, htyped⟩ := TypedAt.of_visits hm h.derived hh hargs hq
    exact htyped.not_swells hm
  obtain ⟨hacc, hlimit⟩ := (accounted_endures f args).visited hp
  have hmodest := (modest_endures hm.sound hswell).visited hp
  exact ⟨hswell p hp, hlimit ▸ hmodest.weight_le hacc⟩

open Setting in
/-- The limit bounds what memory is accounted for at every point of every run, and what its live
cells hold in every run in which no store puts more nodes into a place than it had. -/
theorem Builder.Attained.memory_limited {s : Builder} (h : s.Attained) (host : Host)
    (limits : Limits) (f : FunctionId) (args : List Box) :
    let e : Setting := ⟨s.module, host, limits⟩
    ∀ p, e.Visits f args p → p.machine.memory.Accounted ∧ p.machine.memory.limit = limits.cells ∧
      ((∀ q, e.Visits f args q → ¬ e.Swells q) → p.machine.memory.weight ≤ limits.cells) := by
  intro e p hp
  obtain ⟨hacc, hlimit⟩ := (accounted_endures f args).visited hp
  refine ⟨hacc, hlimit, fun hswell => ?_⟩
  have hmodest := (modest_endures h.sturdy.healthy.sound hswell).visited hp
  exact hlimit ▸ hmodest.weight_le hacc

theorem nesting_weight :
    ((⟨(assembly "nesting" nesting).module, .standard, { cells := 5 }⟩ : Setting).pointAfter ⟨0⟩ []
      4).map (fun p => p.machine.memory.weight) = some 5 := by
  decide +kernel

open Setting in
/-- A struct of a number and an array of two has as many nodes as the limit allows, before and behind
the store into it. -/
theorem nesting_limited :
    let e : Setting := ⟨(assembly "nesting" nesting).module, .standard, { cells := 5 }⟩
    (assembly "nesting" nesting).Attained ∧ (∀ p, e.Visits ⟨0⟩ [] p → ¬ e.Swells p) ∧
      (∃ p, e.Visits ⟨0⟩ [] p ∧ p.machine.memory.weight = 5) ∧
      ∀ p, e.Visits ⟨0⟩ [] p → p.machine.memory.Accounted ∧ p.machine.memory.weight ≤ 5 := by
  intro e
  have hattained : (assembly "nesting" nesting).Attained :=
    (Builder.Replays.reachable (by decide +kernel) (Builder.reachable_empty "nesting")).attained
  have hswell : ∀ p, e.Visits ⟨0⟩ [] p → ¬ e.Swells p := fun p hp =>
    (nesting_assembled.memory_within (by decide +kernel) .standard { cells := 5 } ⟨0⟩ [] (by simp)
      (nesting_heeds _) p hp).1
  obtain ⟨q, hq, hweight⟩ := Option.map_eq_some_iff.mp nesting_weight
  refine ⟨hattained, hswell, ⟨q, visits_pointAfter hq, hweight⟩, fun p hp => ?_⟩
  obtain ⟨hacc, -, hlimited⟩ :=
    Builder.Attained.memory_limited hattained .standard { cells := 5 } ⟨0⟩ [] p hp
  exact ⟨hacc, hlimited hswell⟩

/-- A program that writes an array through a pointer to one number. -/
def cramming : List Call :=
  [.types (.ofType (.int 32)),
    .types (.ofType (.array ⟨0⟩ 3)),
    .types (.ofType (.pointer ⟨1⟩)),
    .constant (.integer ⟨0⟩ 7),
    .constant (.array ⟨0⟩ [⟨0⟩, ⟨0⟩, ⟨0⟩]),
    .symbol (.declareFunction "main" ⟨0⟩ [] false),
    .layout (.appendBlock ⟨0⟩ "entry"),
    .setCursor (some { block := ⟨0⟩ }),
    .emission (.alloca ⟨0⟩),
    .emission (.cast .bitcast ⟨2⟩ ⟨2⟩),
    .emission (.store ⟨1⟩ ⟨3⟩),
    .emission (.load ⟨3⟩),
    .emission (.extractValue ⟨5⟩ 2),
    .emission (.ret ⟨6⟩)]

/-- The builder after those calls. -/
def crammed : Builder := assembly "cramming" cramming

theorem crammed_run :
    ((⟨crammed.module, .standard, { cells := 1 }⟩ : Setting).pointAfter ⟨0⟩ [] 3).map
      (fun p => p.machine.memory.weight) = some 4 ∧
    (⟨crammed.module, .standard, { cells := 1 }⟩ : Setting).runFunction ⟨0⟩ [] =
      .ok (.int 32 7) := by
  constructor <;> decide +kernel

open Setting in
/-- There is room for one node, and the run comes by a point where live cells hold four of them, on
its way to a result. -/
theorem crammed_exceeds :
    let e : Setting := ⟨crammed.module, .standard, { cells := 1 }⟩
    crammed.Attained ∧ crammed.module.verify = .ok () ∧
      (∃ p, e.Visits ⟨0⟩ [] p ∧ p.machine.memory.weight = 4) ∧
      e.runFunction ⟨0⟩ [] = .ok (.int 32 7) := by
  intro e
  have hreachable : crammed.Reachable :=
    Builder.Replays.reachable (by decide +kernel) (Builder.reachable_empty "cramming")
  obtain ⟨p, hp, hweight⟩ := Option.map_eq_some_iff.mp crammed_run.1
  exact ⟨hreachable.attained, by decide +kernel, ⟨p, visits_pointAfter hp, hweight⟩, crammed_run.2⟩

end SsaKit
