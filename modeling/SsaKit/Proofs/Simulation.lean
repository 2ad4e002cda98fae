import SsaKit.Proofs.Run

/-! Runs that follow other runs: where the first one succeeds, so does the second one, with a result
that goes with the first and on a machine that goes with the first. -/
namespace SsaKit

namespace Run

variable {α β γ δ : Type} {R : Machine → Machine → Prop} {P : α → β → Prop} {Q : γ → δ → Prop}

/-- Wherever the first step succeeds, the second one does on every machine that goes along. -/
def Simulates (R : Machine → Machine → Prop) (step : Run α) (step' : Run β)
    (Q : α → β → Prop) : Prop :=
  ∀ s t, R s t → ∀ a s', step.run.run s = (.ok a, s') →
    ∃ b t', step'.run.run t = (.ok b, t') ∧ Q a b ∧ R s' t'

theorem simulates_pure {a : α} {b : β} (h : P a b) : Simulates R (pure a) (pure b) P := by
  intro s t hr a' s' he
  cases he
  exact ⟨b, t, rfl, h, hr⟩

theorem simulates_throw (e : Fault) (step : Run β) :
    Simulates R (throw e : Run α) step P := by
  intro s t _ a s' he
  cases he

theorem simulates_bind {step : Run α} {step' : Run β} {next : α → Run γ} {next' : β → Run δ}
    (h : Simulates R step step' P) (hn : ∀ a b, P a b → Simulates R (next a) (next' b) Q) :
    Simulates R (step >>= next) (step' >>= next') Q := by
  intro s t hr c s' he
  obtain ⟨a, s1, hs, he⟩ := run_bind_eq_ok he
  obtain ⟨b, t1, ht, hp, hr1⟩ := h s t hr a s1 hs
  obtain ⟨d, t', ht', hq, hr'⟩ := hn a b hp s1 t1 hr1 c s' he
  exact ⟨d, t', by rw [run_bind, ht]; exact ht', hq, hr'⟩

/-- A run that is stopped needs no counterpart. -/
theorem simulates_throw_bind (e : Fault) (next : α → Run γ) (step : Run δ) :
    Simulates R ((throw e : Run α) >>= next) step Q := by
  intro s t _ a s' he
  rw [run_bind] at he
  cases he

theorem simulates_of_ends {step : Run α} {failed : Fault → Prop}
    (h : Ends step (fun _ => False) failed) (step' : Run β) : Simulates R step step' P := by
  intro s t _ a s' he
  have hs := h s
  rw [he] at hs
  exact hs.elim

/-- Both steps hand the same result to what comes next. -/
theorem simulates_bind_eq {step step' : Run α} {next : α → Run γ} {next' : α → Run δ}
    (h : Simulates R step step' (· = ·)) (hn : ∀ a, Simulates R (next a) (next' a) Q) :
    Simulates R (step >>= next) (step' >>= next') Q :=
  simulates_bind h fun a _ he => he ▸ hn a

theorem simulates_ofExcept (r : Except Fault α) :
    Simulates R (ofExcept r) (ofExcept r) (· = ·) := by
  intro s t hr a s' he
  cases r with
  | error e => cases he
  | ok a => exact ⟨a, t, rfl, by cases he; rfl, by cases he; exact hr⟩

theorem simulates_get : Simulates R (get : Run Machine) (get : Run Machine) R := by
  intro s t hr a s' he
  cases he
  exact ⟨t, t, rfl, hr, hr⟩

theorem simulates_modify {f g : Machine → Machine} (h : ∀ s t, R s t → R (f s) (g t)) :
    Simulates R (modify f : Run PUnit) (modify g : Run PUnit) (· = ·) := by
  intro s t hr a s' he
  cases he
  exact ⟨(), g t, rfl, rfl, h s t hr⟩

theorem simulates_mapM {f : γ → Run α} {g : γ → Run α} {xs : List γ}
    (h : ∀ x ∈ xs, Simulates R (f x) (g x) (· = ·)) :
    Simulates R (xs.mapM f) (xs.mapM g) (· = ·) := by
  induction xs with
  | nil => exact simulates_pure rfl
  | cons x xs ih =>
    rw [List.mapM_cons, List.mapM_cons]
    refine simulates_bind_eq (h x (by simp)) fun a => ?_
    refine simulates_bind_eq (ih fun y hy => h y (by simp [hy])) fun as => ?_
    exact simulates_pure rfl

theorem simulates_foldlM {f g : α → γ → Run α} {xs : List γ}
    (h : ∀ a, ∀ x ∈ xs, Simulates R (f a x) (g a x) (· = ·)) (a : α) :
    Simulates R (xs.foldlM f a) (xs.foldlM g a) (· = ·) := by
  induction xs generalizing a with
  | nil => exact simulates_pure rfl
  | cons x xs ih =>
    rw [List.foldlM_cons, List.foldlM_cons]
    exact simulates_bind_eq (h a x (by simp)) fun b => ih (fun c y hy => h c y (by simp [hy])) b

end Run

/-- The second machine is the first one, after no more steps. -/
structure Machine.Spares (s t : Machine) : Prop where
  memory : t.memory = s.memory
  globals : t.globals = s.globals
  depth : t.depth = s.depth
  steps : t.steps ≤ s.steps

namespace Run

open Machine

variable {α β : Type} {P : α → β → Prop}

theorem tick_run (limit : Nat) (s : Machine) :
    (tick limit).run.run s =
      (if limit < s.steps + 1 then .error (.stepLimit limit) else .ok (),
        { s with steps := s.steps + 1 }) := by
  unfold tick
  rw [run_bind]
  change (do
    let s ← get
    if limit < s.steps then throw (.stepLimit limit) else pure () : Run Unit).run.run _ = _
  rw [run_bind]
  change (if limit < s.steps + 1 then throw (.stepLimit limit) else pure () : Run Unit).run.run
    { s with steps := s.steps + 1 } = _
  split <;> rfl

/-- A step that only the first run takes. -/
theorem simulates_tick_left {limit : Nat} {next : Unit → Run α} {step : Run β}
    (h : Simulates Spares (next ()) step P) :
    Simulates Spares (tick limit >>= next) step P := by
  intro s t hr a s' he
  rw [run_bind, tick_run] at he
  by_cases hl : limit < s.steps + 1
  · rw [if_pos hl] at he
    cases he
  · rw [if_neg hl] at he
    have hsteps : t.steps ≤ s.steps + 1 := Nat.le_succ_of_le hr.steps
    exact h { s with steps := s.steps + 1 } t ⟨hr.memory, hr.globals, hr.depth, hsteps⟩ a s' he

theorem simulates_tick (limit : Nat) :
    Simulates Spares (tick limit) (tick limit) (· = ·) := by
  intro s t hr a s' he
  rw [tick_run] at he
  by_cases hl : limit < s.steps + 1
  · rw [if_pos hl] at he
    cases he
  · rw [if_neg hl] at he
    cases he
    have hsteps := hr.steps
    have hl' : ¬ limit < t.steps + 1 := by omega
    refine ⟨(), { t with steps := t.steps + 1 }, ?_, rfl, hr.memory, hr.globals, hr.depth, ?_⟩
    · rw [tick_run, if_neg hl']
    · exact Nat.succ_le_succ hsteps

theorem simulates_allocate (host : Host) (t : TypeTable) (type : TypeId) (count : Nat)
    (isStack : Bool) :
    Simulates Spares (allocate host t type count isStack) (allocate host t type count isStack)
      (· = ·) := by
  unfold allocate
  refine simulates_bind simulates_get fun s s' hs => ?_
  rw [hs.memory]
  refine simulates_bind_eq (simulates_ofExcept _) fun row => ?_
  intro s t hr p s1 he
  cases he
  refine ⟨_, _, rfl, ?_, ?_, hr.globals, hr.depth, hr.steps⟩
  · rw [hr.memory]
  · rw [hr.memory]

theorem simulates_load (target : Option Pointer) :
    Simulates Spares (load target) (load target) (· = ·) := by
  unfold load
  refine simulates_bind simulates_get fun s s' hs => ?_
  rw [hs.memory]
  exact simulates_ofExcept _

theorem simulates_store (target : Option Pointer) (d : Datum) :
    Simulates Spares (store target d) (store target d) (· = ·) := by
  unfold store
  refine simulates_bind simulates_get fun s s' hs => ?_
  rw [hs.memory]
  refine simulates_bind_eq (simulates_ofExcept _) fun r => ?_
  exact simulates_modify fun s t hr => ⟨by rw [hr.memory], hr.globals, hr.depth, hr.steps⟩

theorem nested_run (step : Run α) (s : Machine) :
    (nested step).run.run s =
      ((step.run.run { s with depth := s.depth + 1 }).1,
        { (step.run.run { s with depth := s.depth + 1 }).2 with
          memory := (step.run.run { s with depth := s.depth + 1 }).2.memory.releaseFrom
            s.memory.mark
          depth := (step.run.run { s with depth := s.depth + 1 }).2.depth - 1 }) := rfl

/-- A nested step frees the same stack on both machines. -/
theorem simulates_nested {step : Run α} {step' : Run β} (h : Simulates Spares step step' P) :
    Simulates Spares (nested step) (nested step') P := by
  intro s t hr a s' he
  rw [nested_run] at he
  rcases hs : step.run.run { s with depth := s.depth + 1 } with ⟨e | r, s1⟩
  · rw [hs] at he
    cases he
  · rw [hs] at he
    cases he
    have hdeep : Spares { s with depth := s.depth + 1 } { t with depth := t.depth + 1 } :=
      ⟨hr.memory, hr.globals, congrArg (· + 1) hr.depth, hr.steps⟩
    obtain ⟨b, t1, ht, hp, hr1⟩ := h _ _ hdeep a s1 hs
    let t' : Machine :=
      { t1 with memory := t1.memory.releaseFrom t.memory.mark, depth := t1.depth - 1 }
    have hmemory : t'.memory = s1.memory.releaseFrom s.memory.mark := by
      rw [← hr1.memory, ← hr.memory]
    have hdepth : t'.depth = s1.depth - 1 := by rw [← hr1.depth]
    exact ⟨b, t', by rw [nested_run, ht], hp, hmemory, hr1.globals, hdepth, hr1.steps⟩

end Run

end SsaKit
