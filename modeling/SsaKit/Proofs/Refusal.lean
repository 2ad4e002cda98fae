import SsaKit.Proofs.GlobalNames
import SsaKit.Proofs.Oversights
import SsaKit.Proofs.Visit

/-! Where a global is refused: in a run exactly when it is off the list, by verification also when it
is on the list without a name. -/
namespace SsaKit

open SsaKit.Module Relation

/-! ### Storage -/

/-- Only listed globals have storage. -/
def Module.Houses (m : Module) (s : Machine) : Prop := ∀ v p, s.globals[v]? = some p → m.isListed v

namespace Run

variable {m : Module} {s : Machine} {α β : Type}

/-- A step that gives storage to listed globals only. -/
def Shelters (m : Module) (α : Type) (step _ : Run α) : Prop :=
  ∀ s, m.Houses s → m.Houses (step.run.run s).2

theorem Shelters.houses {step step' : Run α} {r : Except Fault α} {t : Machine}
    (h : Shelters m α step step') (hr : step.run.run s = (r, t)) (hs : m.Houses s) : m.Houses t := by
  have ht := h s hs
  rwa [hr] at ht

theorem houses_insert {v : ValueId} {p : Pointer} (hs : m.Houses s) (hl : m.isListed v) :
    m.Houses { s with globals := s.globals.insert v p } := by
  intro w q hw
  simp only [getElem?_insert] at hw
  split at hw
  · rename_i he
    exact he ▸ hl
  · exact hs w q hw

theorem shelters_bind {step step' : Run β} {next next' : β → Run α}
    (h : Shelters m β step step') (hn : ∀ b, Shelters m α (next b) (next' b)) :
    Shelters m α (step >>= next) (step' >>= next') :=
  along_bind (fun s t => m.Houses s → m.Houses t) (fun _ _ _ h h' hs => h' (h hs)) h hn

theorem shelters_bounded (e : Setting) : Bounded e e.limits (Shelters e.module) where
  ofExcept _ _ _ hs := hs
  bind := shelters_bind
  zero _ _ hs := hs
  known v _ _ h s hs := h s.globals[v]? s hs
  record _ _ hl _ hs := houses_insert hs hl
  allocate type count isStack s hs := by
    rw [allocate_run]
    cases s.memory.newRow e.host e.module.types type count isStack <;> exact hs
  load _ _ hs := hs
  store target d s hs := by
    rw [store_run]
    cases s.memory.changedCell target d <;> exact hs
  stepLimit _ _ hs := hs
  callDepth _ _ _ hs := hs
  tick s hs := by
    rw [tick_run]
    exact hs
  deeper name _ _ h s hs := by
    rw [deeper_run]
    split
    · exact hs
    · exact h s hs
  nested h s hs := h { s with depth := s.depth + 1 } hs

end Run

namespace Setting

open Run

variable {e : Setting} {levels : Nat} {f : FunctionId} {args : List Box} {data : List Datum}
  {previous : Option BlockId} {b : BlockId} {frame : Frame} {s t : Machine} {p q : Point}
  {v : ValueId} {i : Instruction}

/-- All that the code of a module does gives storage to listed globals only. -/
theorem sheltered (e : Setting) : Bounded e e.limits (Shelters e.module) := shelters_bounded e

theorem call_shelters (levels : Nat) (f : FunctionId) (data : List Datum) :
    Shelters e.module Datum (e.call levels f data) (e.call levels f data) :=
  call_parallel e.sheltered rfl rfl (Nat.le_refl _) (Nat.le_refl _) f data

theorem operands_shelter (vs : List ValueId) :
    Shelters e.module (List Datum) (vs.mapM (e.operand frame)) (vs.mapM (e.operand frame)) :=
  e.sheltered.toParallel.mapM fun v _ => operand_parallel e.sheltered.toParallel rfl rfl frame v

theorem Enters.houses (h : e.Enters levels f previous b frame s p) (hs : e.module.Houses s) :
    e.module.Houses p.machine := by
  obtain ⟨merged, rest, t, hr, rfl⟩ := h
  exact Shelters.houses (readPhis_parallel e.sheltered.toParallel rfl rfl) hr hs

theorem Begins.houses (h : e.Begins levels f data s p) (hs : e.module.Houses s) :
    e.module.Houses p.machine := by
  obtain ⟨-, -, -, below, entry, -, -, henters⟩ := h
  exact henters.houses hs

theorem Executes.houses (h : e.Executes p v i s) (hp : e.module.Houses p.machine) :
    e.module.Houses s :=
  e.sheltered.tick.houses h.2.2 hp

theorem Leads.houses (h : e.Leads p q) (hp : e.module.Houses p.machine) :
    e.module.Houses q.machine := by
  have hcalls := fun f data => call_shelters (e := e) p.levels f data
  cases h with
  | next hx hr =>
    exact Shelters.houses (evaluate_parallel e.sheltered.toParallel rfl rfl fun f _ _ => hcalls f) hr
      (hx.houses hp)
  | jump hr henters =>
    exact henters.houses (Shelters.houses (runInstructions_parallel e.sheltered rfl rfl hcalls) hr hp)
  | enter hx hr hbegins =>
    exact hbegins.houses ((operands_shelter _).houses hr (hx.houses hp))

/-- In every run only listed globals get storage. -/
theorem Visits.houses (h : e.Visits f args p) : e.module.Houses p.machine := by
  obtain ⟨-, data, start, -, hbegins, hreaches⟩ := h
  have hstart : e.module.Houses e.start := fun v p hv => by simp [Setting.start] at hv
  induction hreaches with
  | refl => exact hbegins.houses hstart
  | tail _ hl ih => exact hl.houses ih

/-! ### Reading a global -/

/-- A frame and a machine in which a run reads an operand, the first one or one behind others: that of
an instruction, or that of a phi on an edge that was just taken. -/
def ReadsIn (e : Setting) (f : FunctionId) (args : List Box) (frame : Frame) (t : Machine) : Prop :=
  ∃ (p : Point) (s : Machine) (vs : List ValueId) (ds : List Datum), e.Visits f args p ∧
    ((∃ v i, e.Executes p v i s ∧ frame = p.frame) ∨
      ∃ dest, (e.runInstructions (e.call p.levels) p.function p.block p.pending p.frame).run.run
        p.machine = (.ok (.jump dest frame), s)) ∧
    (vs.mapM (e.operand frame)).run.run s = (.ok ds, t)

theorem ReadsIn.houses (h : e.ReadsIn f args frame t) : e.module.Houses t := by
  obtain ⟨p, s, vs, ds, hp, hs, hr⟩ := h
  refine (operands_shelter vs).houses hr ?_
  rcases hs with ⟨v, i, hx, -⟩ | ⟨dest, hjump⟩
  · exact hx.houses hp.houses
  · have hcalls := fun f data => call_shelters (e := e) p.levels f data
    exact Shelters.houses (runInstructions_parallel e.sheltered rfl rfl hcalls) hjump hp.houses

/-- A global off the list is refused wherever it is read, and no other one is. -/
theorem operand_refused_iff {g : Global} (hk : e.module.kindOf v = .global g)
    (ht : e.module.Houses t) :
    (∃ u, (e.operand frame v).run.run t = (.error (.removedGlobal v.index), u)) ↔
      v ∉ e.module.globals := by
  constructor
  · rintro ⟨u, hu⟩ hlisted
    have hends : Ends (e.operand frame v) (fun _ => True) (· ≠ .removedGlobal v.index) := by
      refine operand_walk (by rintro _ hf rfl; cases hf) fun x _ _ hx hsame => ?_
      obtain rfl : x = v := Handle.index_inj.mp (by simpa using hsame)
      exact hx hlisted
    have hu' := hends t
    rw [hu] at hu'
    exact hu' rfl
  · intro hn
    have hl : e.module.isListed v = false := by simpa [isListed] using hn
    have hnone : t.globals[v]? = none := by
      cases hv : t.globals[v]? with
      | none => rfl
      | some p => simp [ht v p hv] at hl
    obtain ⟨depth, hdepth⟩ : ∃ n, e.constantDepth = n + 1 :=
      Nat.exists_eq_succ_of_ne_zero (by simp [constantDepth])
    have hkind : (e.module.value v).kind = .global g := hk
    have hstorage : (e.storage (e.constant depth) v g).run.run t =
        (.error (.removedGlobal v.index), t) := by
      rw [storage_run, hnone]
      simp [hl]
    refine ⟨t, ?_⟩
    unfold operand
    rw [hk, hdepth, constant, hkind]
    dsimp only
    rw [run_bind, hstorage]

end Setting

/-! ### Verification and runs -/

namespace Builder

variable {s : Builder} {v : ValueId}

theorem Heeded.operandFault_global {g : Global} (h : s.Heeded)
    (hk : s.module.kindOf v = .global g) (f : FunctionId) :
    s.module.operandFault f v =
      if v ∈ s.module.globals ∧ (s.module.value v).name.isSome then none
      else some s!"operand {v.index} refers to a removed global" := by
  have hnamed := h.namesListed.contains_values (v := v)
  simp only [operandFault, hk, ← hnamed]

example : (Builder.replay { module := { name := "single" } } [.types (.ofType (.int 32)),
    .symbol (.addGlobal ⟨0⟩ "g")]).module.operandFault ⟨0⟩ ⟨0⟩ = none := by decide +kernel

/-- Where globals off the list are left alone, two ways to refuse a global. Verification refuses one as
an operand that is off the list or on it without a name. A run refuses one wherever it reads it, if
it is off the list, and no other one, so that the two differ on listed globals without a name only. -/
theorem Heeded.global_refused {g : Global} (h : s.Heeded) (hk : s.module.kindOf v = .global g) :
    (∀ f, s.module.operandFault f v =
      if v ∈ s.module.globals ∧ (s.module.value v).name.isSome then none
      else some s!"operand {v.index} refers to a removed global") ∧
    ∀ (host : Host) (limits : Limits) (f : FunctionId) (args : List Box) (frame : Frame)
      (t : Machine), (⟨s.module, host, limits⟩ : Setting).ReadsIn f args frame t →
        ((∃ u, ((⟨s.module, host, limits⟩ : Setting).operand frame v).run.run t =
          (.error (.removedGlobal v.index), u)) ↔ v ∉ s.module.globals) :=
  ⟨h.operandFault_global hk, fun _ _ _ _ _ _ ht => Setting.operand_refused_iff hk ht.houses⟩

/-- Two functions that read a global each. The first global loses its name, the second one is taken
off the list. -/
def clearing : List Call :=
  [.types (.ofType (.int 32)),
    .symbol (.declareFunction "main" ⟨0⟩ [] false),
    .symbol (.declareFunction "late" ⟨0⟩ [] false),
    .symbol (.addGlobal ⟨0⟩ "g"),
    .symbol (.addGlobal ⟨0⟩ "h"),
    .layout (.appendBlock ⟨0⟩ "entry"),
    .setCursor (some { block := ⟨0⟩ }),
    .emission (.load ⟨0⟩),
    .emission (.ret ⟨2⟩),
    .layout (.appendBlock ⟨1⟩ "entry"),
    .setCursor (some { block := ⟨1⟩ }),
    .emission (.load ⟨1⟩),
    .emission (.ret ⟨4⟩),
    .symbol (.setName ⟨0⟩ ""),
    .symbol (.removeGlobal ⟨1⟩)]

/-- The builder after those calls. -/
def cleared : Builder := Builder.replay { module := { name := "clearing" } } clearing

theorem heeded_cleared : cleared.Heeded :=
  Builder.Heeding.heeded (by decide +kernel) (by decide +kernel) (Builder.heeded_empty "clearing")

/-- A run of the second function starts with reading its global. -/
theorem cleared_reads : ∃ frame t,
    (⟨cleared.module, .standard, {}⟩ : Setting).ReadsIn ⟨1⟩ [] frame t := by
  have hfirst : ((⟨cleared.module, .standard, {}⟩ : Setting).first? ⟨1⟩ []).map
      (fun p => (p.pending, p.machine.steps)) = some ([⟨4⟩, ⟨5⟩], 0) := by decide +kernel
  obtain ⟨p, hp, hpending⟩ := Option.map_eq_some_iff.mp hfirst
  obtain ⟨hpending, hsteps⟩ := Prod.mk.inj hpending
  have hload : cleared.module.instruction? ⟨4⟩ = some (.load ⟨1⟩) := by decide +kernel
  have hx : (⟨cleared.module, .standard, {}⟩ : Setting).Executes p ⟨4⟩ (.load ⟨1⟩)
      { p.machine with steps := 1 } := by
    refine ⟨by rw [hpending, List.head?_cons], ?_, ?_⟩
    · dsimp only
      exact hload
    · rw [Run.tick_run, hsteps]
      rfl
  exact ⟨p.frame, _, p, _, [], [], Setting.visits_first? hp, .inl ⟨⟨4⟩, _, hx, rfl⟩, rfl⟩

/-- The second global is refused by both. -/
theorem cleared_refused : cleared.Heeded ∧ (∃ g, cleared.module.kindOf ⟨1⟩ = .global g) ∧
    cleared.module.operandFault ⟨1⟩ ⟨1⟩ = some "operand 1 refers to a removed global" ∧
    ∃ frame t, (⟨cleared.module, .standard, {}⟩ : Setting).ReadsIn ⟨1⟩ [] frame t ∧
      ∃ u, ((⟨cleared.module, .standard, {}⟩ : Setting).operand frame ⟨1⟩).run.run t =
        (.error (.removedGlobal 1), u) := by
  have hk : cleared.module.kindOf ⟨1⟩ = .global { valueType := ⟨0⟩ } := by decide +kernel
  obtain ⟨hverify, hrun⟩ := heeded_cleared.global_refused hk
  obtain ⟨frame, t, hreads⟩ := cleared_reads
  have hoff : (⟨1⟩ : ValueId) ∉ cleared.module.globals := by decide +kernel
  refine ⟨heeded_cleared, ⟨_, hk⟩, ?_, frame, t, hreads,
    (hrun .standard {} ⟨1⟩ [] frame t hreads).mpr hoff⟩
  rw [hverify ⟨1⟩, if_neg fun hlisted => hoff hlisted.1]
  rfl

/-- The first global is on the list, and the first function reads it; verification refuses it as
removed. -/
theorem cleared_kept : cleared.Heeded ∧ ⟨0⟩ ∈ cleared.module.globals ∧
    cleared.module.operandFault ⟨0⟩ ⟨0⟩ = some "operand 0 refers to a removed global" ∧
    cleared.module.verifyFunction ⟨0⟩ =
      .error (.verification "main" "in block entry: operand 0 refers to a removed global") ∧
    (⟨cleared.module, .standard, {}⟩ : Setting).runFunction ⟨0⟩ [] = .ok (.int 32 0) :=
  ⟨heeded_cleared, by decide +kernel, by decide +kernel, by decide +kernel, by decide +kernel⟩

end Builder

end SsaKit
