import SsaKit.Proofs.Visit
import SsaKit.Proofs.Widening

/-! What endures a run: a property of memory that growth, the end of a call and every store at a
point of the run keep holds at all points of the run. -/
namespace SsaKit

open Run

variable {e : Setting} {f g : FunctionId} {args : List Box} {good : Memory → Prop} {p q : Point}
  {v : ValueId} {s t : Machine} {levels : Nat} {previous : Option BlockId} {b : BlockId}
  {frame : Frame} {data : List Datum} {d : Datum}

/-! ### Steps -/

section

variable {α β : Type} {step : Run α} {next : α → Run β}

/-- Where the step succeeds on good memory, it leaves good memory behind. -/
def Run.Saves (good : Memory → Prop) (s : Machine) (step : Run α) : Prop :=
  good s.memory → ∀ a t, step.run.run s = (.ok a, t) → good t.memory

theorem saves_pure (a : α) : Run.Saves good s (pure a) := by
  intro hs b t hr
  cases hr
  exact hs

theorem saves_throw (fault : Fault) : Run.Saves good s (throw fault : Run α) := by
  intro _ b t hr
  cases hr

theorem saves_bind (h : Run.Saves good s step)
    (hn : ∀ a t, step.run.run s = (.ok a, t) → Run.Saves good t (next a)) :
    Run.Saves good s (step >>= next) := by
  intro hs b t hr
  obtain ⟨a, s', hstep, hr⟩ := run_bind_eq_ok hr
  exact hn a s' hstep (h hs a s' hstep) b t hr

end

namespace Setting

/-- What keeps a property of memory through a run: it holds of empty memory, of memory that only
has more in it, of what the end of a call leaves, and behind every store of the run. -/
structure Endures (e : Setting) (f : FunctionId) (args : List Box) (good : Memory → Prop) :
    Prop where
  start : good e.start.memory
  widens : ∀ {s t}, e.Widens s t → good s.memory → good t.memory
  released : ∀ {mem} mark, good mem → good (mem.releaseFrom mark)
  stores : ∀ {p v value ptr s}, e.Visits f args p → e.Executes p v (.store value ptr) s →
    (e.evaluate (e.call p.levels) p.frame (e.module.typeOf v) (.store value ptr)).Saves good s

/-- Calls with a number of levels below them keep memory good, as parts of a run. -/
def CallsSave (e : Setting) (f : FunctionId) (args : List Box) (good : Memory → Prop)
    (levels : Nat) : Prop :=
  ∀ g data s, (∀ p, e.Begins levels g data s p → e.Visits f args p) →
    (e.call levels g data).Saves good s

section

variable (h : e.Endures f args good)
include h

theorem Widening.saves {α : Type} {step : Run α} {ok : Machine → α → Prop}
    (hstep : e.Widening s step ok) : step.Saves good s :=
  fun hs a t hr => h.widens (hstep a t hr).1 hs

theorem operands_saves (ws : List ValueId) : (ws.mapM (e.operand frame)).Saves good s := by
  have hoperands : e.Widening s (ws.mapM (e.operand frame)) fun _ _ => True :=
    (widening_mapM (P := fun _ _ _ => True) (fun _ _ _ _ _ _ => trivial)
      fun w _ s => operand_widens frame w).mono fun _ _ _ => trivial
  exact Widening.saves h hoperands

/-- The instruction at a point keeps memory good. -/
theorem executes_saves {i : Instruction} (hk : e.CallsSave f args good p.levels)
    (hv : e.Visits f args p) (hx : e.Executes p v i s) :
    (e.evaluate (e.call p.levels) p.frame (e.module.typeOf v) i).Saves good s := by
  by_cases hcall : ∃ g ws, i = .call g ws
  · obtain ⟨g, ws, rfl⟩ := hcall
    refine saves_bind (operands_saves h ws) fun data t hr => ?_
    exact hk g data t fun q hq => hv.leads (.enter hx hr hq)
  · by_cases hstore : ∃ value ptr, i = .store value ptr
    · obtain ⟨value, ptr, rfl⟩ := hstore
      exact h.stores hv hx
    · exact Widening.saves h (evaluate_adds (fun value ptr he => hstore ⟨value, ptr, he⟩)
        fun g ws he => hcall ⟨g, ws, he⟩)

/-- The rest of a block keeps memory good. -/
theorem runInstructions_saves (hk : e.CallsSave f args good p.levels) (hv : e.Visits f args p) :
    (e.runInstructions (e.call p.levels) p.function p.block p.pending p.frame).Saves good
      p.machine := by
  induction hl : p.pending generalizing p with
  | nil => exact saves_throw _
  | cons v rest ih =>
    cases hi : e.module.instruction? v with
    | none =>
      rw [runInstructions, hi]
      exact saves_bind (Widening.saves h (widening_tick _)) fun _ _ _ => saves_throw _
    | some i =>
      by_cases hend : i.isTerminator ∨ i.isPhi
      · exact Widening.saves h (ending_widens hi hend)
      · rw [not_or, Bool.not_eq_true, Bool.not_eq_true] at hend
        rw [runInstructions_other e hi hend.2 hend.1]
        refine saves_bind (Widening.saves h (widening_tick _)) fun _ s hs => ?_
        have hx : e.Executes p v i s := ⟨by simp [hl], hi, hs⟩
        refine saves_bind (executes_saves h hk hv hx) fun d t ht => ?_
        let next : Point :=
          { p with pending := p.pending.tail, frame := p.frame.insert v d, machine := t }
        exact @ih next hk (hv.leads (.next hx ht)) (by simp [next, hl])

/-! ### Blocks -/

omit h in
/-- Where control goes after a block is on the run's way, too. -/
theorem visits_behind {dest : BlockId} {frame' : Frame}
    (hv : ∀ p, e.Enters levels g previous b frame s p → e.Visits f args p)
    (hr : (e.runBlock (e.call levels) g previous b frame).run.run s = (.ok (.jump dest frame'), t)) :
    ∀ q, e.Enters levels g (some b) dest frame' t q → e.Visits f args q := by
  obtain ⟨rest, frame₁, s₁, henters, hrun⟩ := enters_of_runBlock hr
  exact fun q hq => (hv _ henters).leads (.jump hrun hq)

theorem Enters.saves (he : e.Enters levels g previous b frame s p) (hs : good s.memory) :
    good p.machine.memory := by
  obtain ⟨merged, rest, t, hr, rfl⟩ := he
  exact Widening.saves h (readPhis_widens _) hs _ _ hr

theorem runBlock_saves (hk : e.CallsSave f args good levels)
    (hv : ∀ p, e.Enters levels g previous b frame s p → e.Visits f args p) :
    (e.runBlock (e.call levels) g previous b frame).Saves good s := by
  intro hs flow t hr
  obtain ⟨rest, frame', s', henters, hrun⟩ := enters_of_runBlock hr
  exact runInstructions_saves h hk (hv _ henters) (Enters.saves h henters hs) flow t hrun

/-- From an entered block on the body of a function keeps memory good. -/
theorem runBlocks_saves {fuel : Nat} (hk : e.CallsSave f args good levels)
    (hv : ∀ p, e.Enters levels g previous b frame s p → e.Visits f args p) :
    (e.runBlocks (e.call levels) g fuel previous b frame).Saves good s := by
  induction fuel generalizing previous b frame s with
  | zero =>
    rw [runBlocks_eq]
    refine saves_bind (runBlock_saves h hk hv) fun flow t hr => ?_
    cases flow with
    | done result => exact saves_pure _
    | jump dest frame' => exact saves_throw _
  | succ fuel ih =>
    rw [runBlocks_eq]
    refine saves_bind (runBlock_saves h hk hv) fun flow t hr => ?_
    cases flow with
    | done result => exact saves_pure _
    | jump dest frame' => exact ih (visits_behind hv hr)

/-! ### Calls -/

theorem call_saves (hk : ∀ below, levels = below + 1 → e.CallsSave f args good below)
    (hv : ∀ p, e.Begins levels g data s p → e.Visits f args p) :
    (e.call levels g data).Saves good s := by
  intro hs d t hr
  obtain ⟨hr', ⟨-, -, rfl⟩ | ⟨hdeclared, hdepth, below, rfl, hrun⟩⟩ := call_eq_ok hr
  · exact hs
  · rw [nested_run] at hrun
    obtain ⟨hok, rfl⟩ := Prod.mk.inj hrun
    have hbody : (e.execute (e.call below) g data).Saves good { s with depth := s.depth + 1 } := by
      unfold execute
      cases hentry : e.module.entry? g with
      | none => exact saves_throw _
      | some entry =>
        exact runBlocks_saves h (hk below rfl) fun p hp =>
          hv p ⟨hr', hdeclared, hdepth, below, entry, rfl, hentry, hp⟩
    exact h.released _ (hbody hs d _ (Prod.ext hok rfl))

/-- Every call in a run keeps memory good. -/
theorem calls_save (levels : Nat) : e.CallsSave f args good levels := by
  induction levels with
  | zero => exact fun g data s hv => call_saves h (fun below hb => by omega) hv
  | succ levels ih =>
    refine fun g data s hv => call_saves h (fun below hb => ?_) hv
    obtain rfl : levels = below := by omega
    exact ih

/-! ### All points of a run -/

theorem Begins.saves (hb : e.Begins levels g data s p) (hs : good s.memory) :
    good p.machine.memory := by
  obtain ⟨-, -, -, below, entry, -, -, henters⟩ := hb
  exact Enters.saves h henters hs

/-- Every step of a run leads from good memory to good memory. -/
theorem Leads.saves (hl : e.Leads p q) (hv : e.Visits f args p) (hp : good p.machine.memory) :
    good q.machine.memory := by
  have hk := calls_save h p.levels
  have ticked {v : ValueId} {i : Instruction} {s : Machine} (hx : e.Executes p v i s) :
      good s.memory := Widening.saves h (widening_tick _) hp _ _ hx.2.2
  cases hl with
  | next hx hr => exact executes_saves h hk hv hx (ticked hx) _ _ hr
  | jump hr henters => exact Enters.saves h henters (runInstructions_saves h hk hv hp _ _ hr)
  | enter hx hr hbegins => exact Begins.saves h hbegins (operands_saves h _ (ticked hx) _ _ hr)

/-- What endures a run holds at all its points. -/
theorem Endures.visited (hp : e.Visits f args p) : good p.machine.memory := by
  obtain ⟨htakes, data, start, hdata, hbegins, hreaches⟩ := hp
  have hreached : ∀ q, Relation.ReflTransGen e.Leads start q → e.Visits f args q :=
    fun q hq => ⟨htakes, data, start, hdata, hbegins, hq⟩
  induction hreaches with
  | refl => exact Begins.saves h hbegins h.start
  | tail hpq hl ih => exact Leads.saves h hl (hreached _ hpq) ih

end

end Setting
end SsaKit
