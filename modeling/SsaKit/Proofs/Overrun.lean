import SsaKit.Proofs.Parallel
import SsaKit.Proofs.TypeSoundness
import SsaKit.Proofs.Widening

/-! Limits only cut runs short: a run that no limit stopped is the same run under roomier limits. -/
namespace SsaKit

/-- A run was stopped because it reached a limit that it was given. -/
def Fault.isOverrun : Fault → Bool
  | callDepth _ _ | stepLimit _ | memoryLimit _ _ _ => true
  | _ => false

/-- Limits that are at most others, one by one. -/
instance : LE Limits where
  le l l' := l.callDepth ≤ l'.callDepth ∧ l.steps ≤ l'.steps ∧ l.cells ≤ l'.cells

instance (l l' : Limits) : Decidable (l ≤ l') :=
  inferInstanceAs (Decidable (l.callDepth ≤ l'.callDepth ∧ l.steps ≤ l'.steps ∧ l.cells ≤ l'.cells))

/-- The same rows in a memory of another size. -/
def Memory.resized (mem : Memory) (k : Nat) : Memory := { mem with limit := k }

/-- The same machine with a memory of another size. -/
def Machine.resized (s : Machine) (k : Nat) : Machine := { s with memory := s.memory.resized k }

namespace Memory

variable {mem : Memory} {k : Nat}

/-- A larger memory has the same room, unless the smaller one is full. -/
theorem room_resized (t : TypeTable) (type : TypeId) (count : Nat) (hk : mem.limit ≤ k) :
    (∃ fault, mem.room t type count = .error fault ∧ fault.isOverrun) ∨
      (mem.resized k).room t type count = mem.room t type count := by
  rcases h : mem.room t type count with fault | n
  · rw [room_eq_error h]
    exact .inl ⟨_, rfl, rfl⟩
  · rw [room_eq_ok] at h
    refine .inr (room_eq_ok.mpr ⟨h.1, ?_⟩)
    have hle : n ≤ mem.limit - mem.used := h.2
    change n ≤ k - mem.used
    omega

theorem zero_resized (host : Host) (t : TypeTable) (type : TypeId) (hk : mem.limit ≤ k) :
    (∃ fault, mem.zero host t type = .error fault ∧ fault.isOverrun) ∨
      (mem.resized k).zero host t type = mem.zero host t type := by
  unfold zero
  rcases room_resized t type 1 hk with ⟨fault, h, hf⟩ | h
  · exact .inl ⟨fault, by rw [h]; rfl, hf⟩
  · exact .inr (by rw [h])

theorem newRow_resized (host : Host) (t : TypeTable) (type : TypeId) (count : Nat) (isStack : Bool)
    (hk : mem.limit ≤ k) :
    (∃ fault, mem.newRow host t type count isStack = .error fault ∧ fault.isOverrun) ∨
      (mem.resized k).newRow host t type count isStack = mem.newRow host t type count isStack := by
  unfold newRow
  rcases room_resized t type count hk with ⟨fault, h, hf⟩ | h
  · exact .inl ⟨fault, by rw [h]; rfl, hf⟩
  · exact .inr (by rw [h])

theorem free_resized (n : Nat) : (mem.resized k).free n = (mem.free n).resized k := by
  cases h : mem.allocations[n]? with
  | none =>
    have hresized : (mem.resized k).allocations[n]? = none := h
    rw [free_of_none h, free_of_none hresized]
  | some row =>
    have hresized : (mem.resized k).allocations[n]? = some row := h
    rw [free_eq h, free_eq hresized]
    rfl

theorem releaseFrom_resized (number : Nat) :
    (mem.resized k).releaseFrom number = (mem.releaseFrom number).resized k := by
  have hfold (n : Nat) : n.fold (fun i _ mem => free mem (number + i)) (mem.resized k) =
      (n.fold (fun i _ mem => free mem (number + i)) mem).resized k := by
    induction n with
    | zero => rfl
    | succ n ih => rw [Nat.fold_succ, ih, free_resized, Nat.fold_succ]
  exact hfold _

end Memory

namespace Run

variable {k : Nat} {α β : Type}

/-- The first outcome is that of a limit, or the second one is the same where memory holds `k`
nodes. -/
structure Continues (k : Nat) (r r' : Except Fault α × Machine) : Prop where
  limit : r.2.memory.limit ≤ k
  same : (∃ fault, r.1 = .error fault ∧ fault.isOverrun) ∨ r' = (r.1, r.2.resized k)

/-- From a machine with no more memory than `k` nodes, the second step continues the first one. -/
def Outlasts (k : Nat) (α : Type) (step step' : Run α) : Prop :=
  ∀ s : Machine, s.memory.limit ≤ k → Continues k (step.run.run s) (step'.run.run (s.resized k))

theorem outlasts_bind {step step' : Run β} {next next' : β → Run α}
    (h : Outlasts k β step step') (hn : ∀ b, Outlasts k α (next b) (next' b)) :
    Outlasts k α (step >>= next) (step' >>= next') := by
  intro s hs
  obtain ⟨hlimit, hr⟩ := h s hs
  rw [run_bind, run_bind]
  rcases he : step.run.run s with ⟨fault | b, s'⟩
  · rw [he] at hr hlimit
    refine ⟨hlimit, ?_⟩
    rcases hr with ⟨fault, hover, ho⟩ | hr
    · cases hover
      exact .inl ⟨_, rfl, ho⟩
    · rw [hr]
      exact .inr rfl
  · rw [he] at hr hlimit
    rcases hr with ⟨fault, hover, _⟩ | hr
    · cases hover
    · rw [hr]
      exact hn b s' hlimit

/-- A step that fails at a limit is outlasted by every step. -/
theorem outlasts_overrun {fault : Fault} (h : fault.isOverrun) (step : Run α) :
    Outlasts k α (throw fault) step :=
  fun _ hs => ⟨hs, .inl ⟨fault, rfl, h⟩⟩

theorem outlasts_ofExcept (r : Except Fault α) : Outlasts k α (ofExcept r) (ofExcept r) :=
  fun _ hs => ⟨hs, .inr rfl⟩

theorem outlasts_zero (host : Host) (t : TypeTable) (type : TypeId) :
    Outlasts k Datum (zero host t type) (zero host t type) := by
  intro s hs
  refine ⟨hs, ?_⟩
  rcases Memory.zero_resized host t type hs with hover | hr
  · exact .inl hover
  · exact .inr (congrArg (·, s.resized k) hr)

theorem outlasts_allocate (host : Host) (t : TypeTable) (type : TypeId) (count : Nat)
    (isStack : Bool) :
    Outlasts k Pointer (allocate host t type count isStack) (allocate host t type count isStack) := by
  intro s hs
  have hnew := Memory.newRow_resized host t type count isStack hs
  rw [allocate_run, allocate_run]
  rcases he : s.memory.newRow host t type count isStack with fault | row
  · refine ⟨hs, ?_⟩
    rcases hnew with ⟨fault, hover, ho⟩ | hr
    · rw [he] at hover
      cases hover
      exact .inl ⟨_, rfl, ho⟩
    · rw [he] at hr
      exact .inr (by rw [Machine.resized, hr])
  · refine ⟨hs, .inr ?_⟩
    rcases hnew with ⟨fault, hover, _⟩ | hr
    · rw [he] at hover
      cases hover
    · rw [he] at hr
      rw [Machine.resized, hr]
      rfl

theorem outlasts_load (target : Option Pointer) : Outlasts k Datum (load target) (load target) :=
  fun _ hs => ⟨hs, .inr rfl⟩

theorem outlasts_store (target : Option Pointer) (d : Datum) :
    Outlasts k Unit (store target d) (store target d) := by
  intro s hs
  have hresized : (s.resized k).memory.changedCell target d = s.memory.changedCell target d := rfl
  rw [store_run, store_run, hresized]
  cases s.memory.changedCell target d with
  | error fault => exact ⟨hs, .inr rfl⟩
  | ok r => exact ⟨hs, .inr rfl⟩

theorem outlasts_parallel (e : Setting) (k : Nat) : Parallel e (Outlasts k) where
  ofExcept r _ := outlasts_ofExcept r
  bind := outlasts_bind
  zero _ := outlasts_zero _ _ _
  known v _ _ h s hs := h s.globals[v]? s hs
  record _ _ _ _ hs := ⟨hs, .inr rfl⟩
  allocate _ _ _ := outlasts_allocate _ _ _ _ _
  load := outlasts_load
  store := outlasts_store

theorem outlasts_tick {l l' : Nat} (h : l ≤ l') : Outlasts k Unit (tick l) (tick l') := by
  intro s hs
  rw [tick_run, tick_run]
  refine ⟨hs, ?_⟩
  by_cases hl : l < s.steps + 1
  · exact .inl ⟨_, if_pos hl, rfl⟩
  · have hl' : ¬ l' < (s.resized k).steps + 1 := by
      change ¬ l' < s.steps + 1
      omega
    rw [if_neg hl, if_neg hl']
    exact .inr rfl

theorem outlasts_deeper {l l' : Nat} (h : l ≤ l') (name : String) {step step' : Run α}
    (hstep : Outlasts k α step step') :
    Outlasts k α (deeper l name step) (deeper l' name step') := by
  intro s hs
  rw [deeper_run, deeper_run]
  have hdepth : (s.resized k).depth = s.depth := rfl
  by_cases hl : l ≤ s.depth
  · rw [if_pos hl]
    exact ⟨hs, .inl ⟨_, rfl, rfl⟩⟩
  · rw [if_neg hl, if_neg (by omega)]
    exact hstep s hs

theorem outlasts_nested {step step' : Run α} (h : Outlasts k α step step') :
    Outlasts k α (nested step) (nested step') := by
  intro s hs
  obtain ⟨hlimit, hr⟩ := h { s with depth := s.depth + 1 } hs
  rw [nested_run, nested_run]
  refine ⟨?_, ?_⟩
  · rw [Memory.releaseFrom_limit]
    exact hlimit
  · rcases hr with hover | hr
    · exact .inl hover
    · refine .inr ?_
      change (step'.run.run { s.resized k with depth := (s.resized k).depth + 1 }) = _ at hr
      rw [hr]
      exact congrArg (Prod.mk _) (congrArg (fun mem => Machine.mk mem _ _ _)
        (Memory.releaseFrom_resized _))

theorem outlasts_bounded {e : Setting} {l' : Limits} (h : e.limits ≤ l') :
    Bounded e l' (Outlasts k) where
  toParallel := outlasts_parallel e k
  stepLimit := outlasts_overrun rfl
  callDepth _ := outlasts_overrun rfl
  tick := outlasts_tick h.2.1
  deeper := outlasts_deeper h.1
  nested := outlasts_nested

end Run

namespace Setting

variable {m : Module} {host : Host} {l l' : Limits} {f : FunctionId}

/-- A call that reaches none of its limits does the same under larger ones. -/
theorem call_roomier (m : Module) (host : Host) (f : FunctionId) (data : List Datum) (h : l ≤ l') :
    let e : Setting := ⟨m, host, l⟩
    let e' : Setting := ⟨m, host, l'⟩
    let r := ((e.call l.callDepth f data).run.run e.start).1
    (∃ fault, r = .error fault ∧ fault.isOverrun) ∨
      ((e'.call l'.callDepth f data).run.run e'.start).1 = r := by
  intro e e' r
  have hcall : Run.Outlasts l'.cells Datum (e.call l.callDepth f data)
      (e'.call l'.callDepth f data) := by
    have hmodule : e'.module = e.module := rfl
    have hhost : e'.host = e.host := rfl
    exact call_parallel (Run.outlasts_bounded h) hmodule hhost h.2.1 h.1 f data
  rcases (hcall e.start h.2.2).same with hover | hr
  · exact .inl hover
  · have hstart : e.start.resized l'.cells = e'.start := rfl
    rw [hstart] at hr
    exact .inr (by rw [hr])

/-- A run that reaches none of its limits gives the same result under larger ones. -/
theorem runFunction_roomier (h : l ≤ l') {args : List Box} {r : Except Fault Box}
    (hr : runFunction ⟨m, host, l⟩ f args = r)
    (hover : ∀ fault, r = .error fault → fault.isOverrun = false) :
    runFunction ⟨m, host, l'⟩ f args = r := by
  rw [runFunction_admitted] at hr ⊢
  have hadmitted : admitted ⟨m, host, l'⟩ f args = admitted ⟨m, host, l⟩ f args := rfl
  rw [hadmitted]
  cases hdata : admitted ⟨m, host, l⟩ f args with
  | error fault =>
    rw [hdata] at hr
    exact hr
  | ok data =>
    rw [hdata] at hr
    rcases call_roomier m host f data h with ⟨fault, hcall, hf⟩ | hcall
    · have hrun : r = .error fault := by
        rw [← hr]
        change (((call ⟨m, host, l⟩ l.callDepth f data).run.run (start ⟨m, host, l⟩)).1 >>= box) = _
        rw [hcall]
        rfl
      rw [hover fault hrun] at hf
      cases hf
    · rw [← hr]
      change (((call ⟨m, host, l'⟩ l'.callDepth f data).run.run (start ⟨m, host, l'⟩)).1 >>= box) =
        ((call ⟨m, host, l⟩ l.callDepth f data).run.run (start ⟨m, host, l⟩)).1 >>= box
      rw [hcall]

/-- Limits that just suffice for a function that only returns a constant. -/
def tight : Limits := { callDepth := 1, steps := 1, cells := 0 }

theorem strayed_runs_tightly :
    runFunction ⟨strayed.module, .standard, tight⟩ ⟨0⟩ [] = .ok (.double ⟨0x3ff0000000000000⟩) := by
  decide +kernel

/-- Returning a constant needs one call, one step and no memory, and gives the same with more of
each; so does the comparison that fails in a jump between bodies. -/
theorem strayed_roomier : strayed.module.Reachable ∧ tight ≤ {} ∧
    runFunction ⟨strayed.module, .standard, {}⟩ ⟨0⟩ [] = .ok (.double ⟨0x3ff0000000000000⟩) ∧
    runFunction ⟨strayed.module, .standard, { steps := 2 ^ 63 }⟩ ⟨2⟩ [] =
      .error (.cannotCompare (.double ⟨0x3ff0000000000000⟩) (.double ⟨0x3ff0000000000000⟩)) := by
  have hreachable : strayed.Reachable :=
    Builder.Replays.reachable (by decide +kernel) (Builder.reachable_empty "straying")
  have hle : tight ≤ {} := by decide
  have hle' : ({} : Limits) ≤ { steps := 2 ^ 63 } := by decide
  refine ⟨hreachable.module, hle, ?_, ?_⟩
  · exact runFunction_roomier hle strayed_runs_tightly fun fault h => by cases h
  · exact runFunction_roomier hle' strayed_runs fun fault h => by cases h; rfl

end Setting

end SsaKit
