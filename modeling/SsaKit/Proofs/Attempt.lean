import SsaKit.Attempt

/-! Where steps that may fail end: one condition for success and one for what a failure leaves. -/
namespace SsaKit.Attempt

variable {σ τ α β : Type} {s : σ} {ok ok' : α → σ → Prop} {failed failed' : σ → Prop}

theorem outcome_eq_of_fst {step : Attempt σ α} {r : Except Error α} (h : (step.outcome s).1 = r) :
    step.outcome s = (r, (step.outcome s).2) := Prod.ext h rfl

/-- A successful step ends in `ok` with its result, a failed one in `failed`. -/
def Ends (step : Attempt σ α) (s : σ) (ok : α → σ → Prop) (failed : σ → Prop) : Prop :=
  match step.outcome s with
  | (.ok a, t) => ok a t
  | (.error _, t) => failed t

theorem Ends.mono {step : Attempt σ α} (h : Ends step s ok failed)
    (hok : ∀ a t, ok a t → ok' a t) (hfailed : ∀ t, failed t → failed' t) :
    Ends step s ok' failed' := by
  unfold Ends at h ⊢
  split <;> simp_all

theorem Ends.of_ok {step : Attempt σ α} {a : α} {t : σ} (h : Ends step s ok failed)
    (ho : step.outcome s = (.ok a, t)) : ok a t := by
  simpa [Ends, ho] using h

theorem Ends.of_error {step : Attempt σ α} {e : Error} {t : σ} (h : Ends step s ok failed)
    (ho : step.outcome s = (.error e, t)) : failed t := by
  simpa [Ends, ho] using h

theorem Ends.of_forall {step : Attempt σ α} (hok : ∀ a t, ok a t) (hfailed : ∀ t, failed t) :
    Ends step s ok failed := by
  unfold Ends
  split
  · exact hok _ _
  · exact hfailed _

theorem Ends.and {step : Attempt σ α} (h : Ends step s ok failed) (h' : Ends step s ok' failed') :
    Ends step s (fun a t => ok a t ∧ ok' a t) fun t => failed t ∧ failed' t := by
  unfold Ends at h h' ⊢
  split <;> simp_all

/-- A step that cannot fail succeeds. -/
theorem Ends.exists_ok {step : Attempt σ α} (h : Ends step s ok fun _ => False) :
    ∃ a t, step.outcome s = (.ok a, t) ∧ ok a t := by
  unfold Ends at h
  split at h
  · rename_i a t ho
    exact ⟨a, t, ho, h⟩
  · exact h.elim

/-- A condition that holds either way holds of the state left behind. -/
theorem Ends.state {step : Attempt σ α} {P : σ → Prop} (h : Ends step s (fun _ => P) P) :
    P (step.outcome s).2 := by
  unfold Ends at h
  split at h <;> simp_all

@[simp] theorem ends_pure (a : α) : Ends (pure a : Attempt σ α) s ok failed ↔ ok a s := .rfl

@[simp] theorem ends_throw (e : Error) :
    Ends (throw e : Attempt σ α) s ok failed ↔ failed s := .rfl

theorem outcome_bind (step : Attempt σ β) (next : β → Attempt σ α) :
    (step >>= next).outcome s = match step.outcome s with
      | (.ok b, t) => (next b).outcome t
      | (.error e, t) => (.error e, t) := by
  have : (step >>= next).run.run s = match step.run.run s with
      | (.ok b, t) => (next b).run.run t
      | (.error e, t) => (.error e, t) := by
    simp only [bind, ExceptT.bind, ExceptT.mk, ExceptT.run, StateT.run, StateT.bind]
    obtain ⟨_ | _, t⟩ := step s <;> rfl
  unfold outcome
  rw [this]
  obtain ⟨_ | _, t⟩ := step.run.run s <;> rfl

@[simp] theorem ends_bind (step : Attempt σ β) (next : β → Attempt σ α) :
    Ends (step >>= next) s ok failed ↔
      Ends step s (fun b t => Ends (next b) t ok failed) failed := by
  unfold Ends
  rw [outcome_bind]
  obtain ⟨_ | _, t⟩ := step.outcome s <;> rfl

@[simp] theorem ends_map (f : β → α) (step : Attempt σ β) :
    Ends (f <$> step) s ok failed ↔ Ends step s (fun b => ok (f b)) failed := by
  rw [map_eq_pure_bind, ends_bind]
  rfl

@[simp] theorem ends_discard (step : Attempt σ α) {ok : Unit → σ → Prop} :
    Ends (discard step) s ok failed ↔ Ends step s (fun _ => ok ()) failed :=
  ends_map _ step

@[simp] theorem ends_get {ok : σ → σ → Prop} :
    Ends (get : Attempt σ σ) s ok failed ↔ ok s s := .rfl

@[simp] theorem ends_set (t : σ) {ok : PUnit → σ → Prop} :
    Ends (set t : Attempt σ PUnit) s ok failed ↔ ok () t := .rfl

@[simp] theorem ends_modify (f : σ → σ) {ok : PUnit → σ → Prop} :
    Ends (modify f : Attempt σ PUnit) s ok failed ↔ ok () (f s) := .rfl

@[simp] theorem ends_modifyGet (f : σ → α × σ) :
    Ends (modifyGet f : Attempt σ α) s ok failed ↔ ok (f s).1 (f s).2 := .rfl

@[simp] theorem ends_onPart (get : σ → τ) (put : σ → τ → σ) (step : Attempt τ α) :
    Ends (onPart get put step) s ok failed ↔
      Ends step (get s) (fun a t => ok a (put s t)) (fun t => failed (put s t)) := by
  have : (onPart get put step).outcome s =
      ((step.outcome (get s)).1, put s (step.outcome (get s)).2) := rfl
  unfold Ends
  rw [this]
  generalize step.outcome (get s) = r
  obtain ⟨_ | _, t⟩ := r <;> rfl

@[simp] theorem ends_ofExcept (r : Except Error α) :
    Ends (ofExcept r : Attempt σ α) s ok failed ↔ match r with
      | .ok a => ok a s
      | .error _ => failed s := by
  cases r <;> rfl

/-- A step that cannot fail is never rescued. -/
theorem Ends.unrescued {step : Attempt σ α} {rescue : Error → Attempt σ α}
    (h : Ends step s ok fun _ => False) : Ends (tryCatch step rescue) s ok failed := by
  obtain ⟨a, t, ho, hok⟩ := h.exists_ok
  have hstep : step s = ((Except.ok a, t) : Except Error α × σ) := ho
  have hsame : (tryCatch step rescue).outcome s = (.ok a, t) := by
    simp only [outcome, tryCatch, tryCatchThe, MonadExceptOf.tryCatch, ExceptT.tryCatch,
      ExceptT.mk, ExceptT.run, StateT.run, bind, StateT.bind, hstep]
    rfl
  simpa [Ends, hsame] using hok

/-- A loop keeps what every round keeps. -/
theorem ends_forM {γ : Type} {P : σ → Prop} {f : γ → Attempt σ PUnit} {xs : List γ}
    (h : ∀ x ∈ xs, ∀ t, P t → Ends (f x) t (fun _ => P) failed) (hs : P s) :
    Ends (xs.forM f) s (fun _ => P) failed := by
  induction xs generalizing s with
  | nil => exact hs
  | cons x xs ih =>
    change Ends (f x >>= fun _ => xs.forM f) s _ _
    rw [ends_bind]
    exact (h x (by simp) s hs).mono (fun _ t ht => ih (fun y hy => h y (by simp [hy])) ht)
      fun _ ht => ht

/-- A loop of checks that leave the state alone and refuse what breaks `P`. -/
theorem ends_forM_check {γ : Type} {P : γ → Prop} {f : γ → Attempt σ PUnit} {xs : List γ}
    {ok : PUnit → σ → Prop} (h : ∀ x ∈ xs, Ends (f x) s (fun _ t => t = s ∧ P x) (· = s))
    (hok : (∀ x ∈ xs, P x) → ok () s) (hfailed : failed s) : Ends (xs.forM f) s ok failed := by
  induction xs generalizing ok with
  | nil => exact hok (by simp)
  | cons x xs ih =>
    change Ends (f x >>= fun _ => xs.forM f) s _ _
    rw [ends_bind]
    refine (h x (by simp)).mono (fun _ t ht => ?_) fun t ht => ht ▸ hfailed
    obtain ⟨rfl, hx⟩ := ht
    exact ih (fun y hy => h y (by simp [hy])) fun hxs => hok (by simpa [hx] using hxs)

/-- A loop whose rounds each know which ones came before. -/
theorem ends_forM_stages {γ : Type} {P : List γ → σ → Prop} {f : γ → Attempt σ PUnit} {xs : List γ}
    (h : ∀ done x rest, xs = done ++ x :: rest → ∀ t, P done t →
      Ends (f x) t (fun _ => P (done ++ [x])) failed)
    (hs : P [] s) : Ends (xs.forM f) s (fun _ => P xs) failed := by
  have suffix : ∀ rest done t, xs = done ++ rest → P done t →
      Ends (rest.forM f) t (fun _ => P xs) failed := by
    intro rest
    induction rest with
    | nil =>
      intro done t he ht
      rw [List.append_nil] at he
      exact he ▸ ht
    | cons x rest ih =>
      intro done t he ht
      change Ends (f x >>= fun _ => rest.forM f) t _ _
      rw [ends_bind]
      refine (h done x rest he t ht).mono (fun _ u hu => ?_) fun _ hu => hu
      exact ih (done ++ [x]) u (by simp [he]) hu
  exact suffix xs [] s rfl hs

theorem ends_mapM_stages {γ : Type} {P : List γ → σ → Prop} {f : γ → Attempt σ α} {xs : List γ}
    (h : ∀ done x rest, xs = done ++ x :: rest → ∀ t, P done t →
      Ends (f x) t (fun _ => P (done ++ [x])) failed)
    (hs : P [] s) : Ends (xs.mapM f) s (fun _ => P xs) failed := by
  have suffix : ∀ rest done t, xs = done ++ rest → P done t →
      Ends (rest.mapM f) t (fun _ => P xs) failed := by
    intro rest
    induction rest with
    | nil =>
      intro done t he ht
      rw [List.append_nil] at he
      exact he ▸ ht
    | cons x rest ih =>
      intro done t he ht
      rw [List.mapM_cons]
      simp only [ends_bind, ends_pure]
      refine (h done x rest he t ht).mono (fun _ u hu => ?_) fun _ hu => hu
      exact ih (done ++ [x]) u (by simp [he]) hu
  exact suffix xs [] s rfl hs

end SsaKit.Attempt
