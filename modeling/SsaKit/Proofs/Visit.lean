import Mathlib.Logic.Relation
import SsaKit.Proofs.Run

/-! The points that a run comes by. Every step between them is a step of the run itself. -/
namespace SsaKit

/-- A point of a run inside a block, behind its phis: the instructions to come, what the current
call has computed, and how many levels of calls are left below it. -/
structure Point where
  levels : Nat
  function : FunctionId
  block : BlockId
  pending : List ValueId
  frame : Frame
  machine : Machine

/-- The types of the arguments that a function asks for. -/
def Module.paramTypes (m : Module) (f : FunctionId) : List TypeId :=
  (m.types.entry (m.function f).type).params.getD []

/-- Whether a function takes a number of arguments. -/
def Module.Takes (m : Module) (f : FunctionId) (count : Nat) : Prop :=
  count = (m.paramTypes f).length ∨
    ((m.types.entry (m.function f).type).isVariadic ∧ (m.paramTypes f).length < count)

namespace Setting

variable (e : Setting)

/-- Control comes to a block on an edge and reads its phis. -/
def Enters (levels : Nat) (f : FunctionId) (previous : Option BlockId) (b : BlockId) (frame : Frame)
    (s : Machine) (p : Point) : Prop :=
  ∃ merged rest t,
    (e.readPhis f b previous frame (e.module.instructions b)).run.run s = (.ok (merged, rest), t) ∧
      p = ⟨levels, f, b, rest, frame.insertMany merged, t⟩

/-- A call of a function with a body gets to its entry. -/
def Begins (levels : Nat) (f : FunctionId) (args : List Datum) (s : Machine) (p : Point) : Prop :=
  e.module.isRemoved f = false ∧ e.module.isDeclaration f = false ∧
    s.depth < e.limits.callDepth ∧ ∃ below entry, levels = below + 1 ∧
      e.module.entry? f = some entry ∧
      e.Enters below f none entry (.ofList ((e.module.params f).zip args))
        { s with depth := s.depth + 1 } p

/-- The instruction that a point goes on with, and the machine that has counted its step. -/
def Executes (p : Point) (v : ValueId) (i : Instruction) (s : Machine) : Prop :=
  p.pending.head? = some v ∧ e.module.instruction? v = some i ∧
    (Run.tick e.limits.steps).run.run p.machine = (.ok (), s)

/-- From one point to the next: behind an instruction, on an edge at the end of a block, or into
the body of a called function. -/
inductive Leads : Point → Point → Prop
  | next {p : Point} {v : ValueId} {i : Instruction} {d : Datum} {s t : Machine} :
    e.Executes p v i s →
    (e.evaluate (e.call p.levels) p.frame (e.module.typeOf v) i).run.run s = (.ok d, t) →
    Leads p { p with pending := p.pending.tail, frame := p.frame.insert v d, machine := t }
  | jump {p q : Point} {dest : BlockId} {frame : Frame} {s : Machine} :
    (e.runInstructions (e.call p.levels) p.function p.block p.pending p.frame).run.run p.machine =
      (.ok (.jump dest frame), s) →
    e.Enters p.levels p.function (some p.block) dest frame s q → Leads p q
  | enter {p q : Point} {v : ValueId} {callee : FunctionId} {args : List ValueId}
    {data : List Datum} {s t : Machine} : e.Executes p v (.call callee args) s →
    (args.mapM (e.operand p.frame)).run.run s = (.ok data, t) →
    e.Begins p.levels callee data t q → Leads p q

/-- The points that running a function comes by. -/
def Visits (f : FunctionId) (args : List Box) (p : Point) : Prop :=
  e.module.Takes f args.length ∧ ∃ data start,
    e.arguments f (e.module.paramTypes f) args = .ok data ∧
      e.Begins e.limits.callDepth f data e.start start ∧ Relation.ReflTransGen e.Leads start p

/-! ### Following a run -/

variable {e} {f : FunctionId} {args : List Box} {p q : Point} {v : ValueId} {i : Instruction}
  {d : Datum} {t : Machine} {n : Nat}

theorem Visits.leads (h : e.Visits f args p) (hl : e.Leads p q) : e.Visits f args q := by
  obtain ⟨htakes, data, start, hd, hbegins, hreaches⟩ := h
  exact ⟨htakes, data, start, hd, hbegins, hreaches.tail hl⟩

/-- A block that is run to its end goes on behind its phis. -/
theorem enters_of_runBlock {levels : Nat} {b : BlockId} {previous : Option BlockId} {frame : Frame}
    {s : Machine} {flow : Flow}
    (hr : (e.runBlock (e.call levels) f previous b frame).run.run s = (.ok flow, t)) :
    ∃ rest frame' s', e.Enters levels f previous b frame s ⟨levels, f, b, rest, frame', s'⟩ ∧
      (e.runInstructions (e.call levels) f b rest frame').run.run s' = (.ok flow, t) := by
  obtain ⟨⟨merged, rest⟩, s', hphis, hr⟩ := Run.run_bind_eq_ok hr
  exact ⟨rest, frame.insertMany merged, s', ⟨merged, rest, s', hphis, rfl⟩, hr⟩

instance : Decidable (e.module.Takes f n) := inferInstanceAs (Decidable (_ ∨ _))

variable (e)

/-- The point at which a run starts. -/
def first? (f : FunctionId) (args : List Box) : Option Point :=
  match e.arguments f (e.module.paramTypes f) args, e.module.entry? f, e.limits.callDepth with
  | .ok data, some entry, below + 1 =>
    if e.module.Takes f args.length ∧ e.module.isRemoved f = false ∧
        e.module.isDeclaration f = false then
      let frame : Frame := .ofList ((e.module.params f).zip data)
      match (e.readPhis f entry none frame (e.module.instructions entry)).run.run
        { e.start with depth := 1 } with
      | (.ok (merged, rest), t) => some ⟨below, f, entry, rest, frame.insertMany merged, t⟩
      | _ => none
    else none
  | _, _, _ => none

/-- What the instruction at a point comes to, and the machine behind it. -/
def outcome? (p : Point) : Option (ValueId × Instruction × Datum × Machine) := do
  let v ← p.pending.head?
  let i ← e.module.instruction? v
  match (Run.tick e.limits.steps).run.run p.machine with
  | (.ok (), s) =>
    match (e.evaluate (e.call p.levels) p.frame (e.module.typeOf v) i).run.run s with
    | (.ok d, t) => some (v, i, d, t)
    | _ => none
  | _ => none

/-- The point behind a number of instructions from the start of a run on. -/
def pointAfter (f : FunctionId) (args : List Box) : Nat → Option Point
  | 0 => e.first? f args
  | n + 1 => do
    let p ← pointAfter f args n
    let (v, _, d, t) ← e.outcome? p
    return { p with pending := p.pending.tail, frame := p.frame.insert v d, machine := t }

/-- What the instruction behind a number of others from the start of a run on comes to. -/
def resultAfter (f : FunctionId) (args : List Box) (n : Nat) :
    Option (ValueId × Instruction × Datum) := do
  let (v, i, d, _) ← e.outcome? (← e.pointAfter f args n)
  return (v, i, d)

variable {e}

theorem executes_of_outcome? (h : e.outcome? p = some (v, i, d, t)) : ∃ s, e.Executes p v i s ∧
    (e.evaluate (e.call p.levels) p.frame (e.module.typeOf v) i).run.run s = (.ok d, t) := by
  obtain ⟨w, hw, h⟩ := Option.bind_eq_some_iff.mp h
  obtain ⟨j, hj, h⟩ := Option.bind_eq_some_iff.mp h
  split at h
  · rename_i s hs
    split at h
    · rename_i x u hx
      cases h
      exact ⟨s, ⟨hw, hj, hs⟩, hx⟩
    · cases h
  · cases h

theorem visits_first? (h : e.first? f args = some p) : e.Visits f args p := by
  unfold first? at h
  split at h
  · rename_i data entry below hdata hentry hlimit
    split at h
    · rename_i hstarts
      obtain ⟨htakes, hr, hd⟩ := hstarts
      dsimp only at h
      split at h
      · rename_i merged rest t hphis
        cases h
        refine ⟨htakes, data, _, hdata, ⟨hr, hd, ?_, below, entry, hlimit, hentry, merged, rest, t,
          hphis, rfl⟩, .refl⟩
        rw [hlimit]
        exact Nat.succ_pos below
      · cases h
    · cases h
  · cases h

theorem visits_pointAfter (h : e.pointAfter f args n = some p) : e.Visits f args p := by
  induction n generalizing p with
  | zero => exact visits_first? h
  | succ n ih =>
    obtain ⟨q, hq, h⟩ := Option.bind_eq_some_iff.mp h
    obtain ⟨⟨v, i, d, t⟩, hout, h⟩ := Option.bind_eq_some_iff.mp h
    obtain ⟨s, hx, hr⟩ := executes_of_outcome? hout
    cases h
    exact (ih hq).leads (.next hx hr)

theorem visits_resultAfter (h : e.resultAfter f args n = some (v, i, d)) :
    ∃ p s t, e.Visits f args p ∧ e.Executes p v i s ∧
      (e.evaluate (e.call p.levels) p.frame (e.module.typeOf v) i).run.run s = (.ok d, t) := by
  obtain ⟨p, hp, h⟩ := Option.bind_eq_some_iff.mp h
  obtain ⟨⟨w, j, x, t⟩, hout, h⟩ := Option.bind_eq_some_iff.mp h
  cases h
  obtain ⟨s, hx, hr⟩ := executes_of_outcome? hout
  exact ⟨p, s, t, visits_pointAfter hp, hx, hr⟩

end Setting
end SsaKit
