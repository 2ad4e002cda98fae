import SsaKit.Proofs.Arrival

/-! Steps of two runs where the second machine has its allocations from the first one: they come to
the same data, up to the numbers of allocations. -/
namespace SsaKit

/-- Frames that hold related data, but for what the second run does without. -/
def Frame.Mirrors (dead : ValueId → Prop) (places : List Nat) (frame frame' : Frame) : Prop :=
  ∀ (v : ValueId) d, ¬ dead v → frame[v]? = some d →
    ∃ d', frame'[v]? = some d' ∧ d.Mirrors places d'

theorem Frame.Mirrors.mono {dead : ValueId → Prop} {places places' : List Nat} {frame frame' : Frame}
    (h : frame.Mirrors dead places frame') (hp : places <+: places') :
    frame.Mirrors dead places' frame' := fun v d hv hd => by
  obtain ⟨d', hd', hm⟩ := h v d hv hd
  exact ⟨d', hd', hm.mono hp⟩

namespace Setting

open Run SsaKit.Module

variable {α β γ δ : Type} {e : Setting} {σ τ : Numbering} {s s' t t' : Machine} {v : ValueId}
  {d d' : Datum} {fuel : Nat}

/-- Where the first step succeeds, the second one comes to a result that goes with the first, on a
machine that has its allocations from the first one; or it starves. -/
def Tracks (e : Setting) (σ : Numbering) (s t : Machine) (step : Run α) (step' : Run β)
    (P : Numbering → α → β → Prop) : Prop :=
  ∀ a s', step.run.run s = (.ok a, s') → e.Arrives [] σ s' t step' fun τ => P τ a

section

variable {P : Numbering → α → β → Prop} {Q : Numbering → γ → δ → Prop} {step : Run α}
  {step' : Run β} {next : α → Run γ} {next' : β → Run δ}

theorem tracks_pure {a : α} {b : β} (hm : e.Mirrors [] σ s t) (h : P σ a b) :
    e.Tracks σ s t (pure a) (pure b) P := by
  intro a' s' hr
  cases hr
  exact arrives_pure hm h

theorem tracks_throw (fault : Fault) : e.Tracks σ s t (throw fault : Run α) step' P := by
  intro a s' hr
  cases hr

theorem tracks_throw_bind (fault : Fault) (next : α → Run γ) (last : Run δ) :
    e.Tracks σ s t ((throw fault : Run α) >>= next) last Q := by
  intro a s' hr
  rw [run_bind] at hr
  cases hr

theorem tracks_bind (h : e.Tracks σ s t step step' P)
    (hn : ∀ τ a b s' t', σ.Extends τ → e.Mirrors [] τ s' t' → step.run.run s = (.ok a, s') →
      step'.run.run t = (.ok b, t') → P τ a b → e.Tracks τ s' t' (next a) (next' b) Q) :
    e.Tracks σ s t (step >>= next) (step' >>= next') Q := by
  intro c s'' hr
  obtain ⟨a, s', hs, hr⟩ := run_bind_eq_ok hr
  have harrives := h a s' hs
  unfold Arrives at harrives ⊢
  rw [run_bind]
  rcases ht : step'.run.run t with ⟨fault | b, t'⟩
  · rw [ht] at harrives
    exact harrives
  · rw [ht] at harrives
    obtain ⟨τ, hx, hm, hp⟩ := harrives
    exact ((hn τ a b s' t' hx hm hs ht hp) c s'' hr).of_extends hx

/-- A step that only the first run takes. -/
theorem tracks_left {ok : Machine → α → Prop} {last : Run δ} (hm : e.Mirrors [] σ s t)
    (h : e.Widening s step ok)
    (hn : ∀ a s', e.Mirrors [] σ s' t → step.run.run s = (.ok a, s') → ok s' a →
      e.Tracks σ s' t (next a) last Q) : e.Tracks σ s t (step >>= next) last Q := by
  intro c s'' hr
  obtain ⟨a, s', hs, hr⟩ := run_bind_eq_ok hr
  obtain ⟨hw, ha⟩ := h a s' hs
  exact hn a s' (hm.widen hw) hs ha c s'' hr

theorem tracks_ofExcept {r : Except Fault α} {r' : Except Fault β} (hm : e.Mirrors [] σ s t)
    (h : Fault.Entails r r' (P σ)) :
    e.Tracks σ s t (Run.ofExcept r) (Run.ofExcept r') P := by
  intro a s' hr
  cases r with
  | error fault => cases hr
  | ok a =>
    cases hr
    obtain ⟨b, rfl, hp⟩ := h a rfl
    exact ⟨σ, .refl σ, hm, hp⟩

/-- Lists of steps that add nothing but new allocations to the second machine. -/
theorem tracks_mapM {f : γ → Run α} {g : γ → Run β} {xs : List γ} (hm : e.Mirrors [] σ s t)
    (hmono : ∀ τ υ a b, τ.Extends υ → P τ a b → P υ a b)
    (hw : ∀ x t, e.Widening t (g x) fun _ _ => True)
    (h : ∀ x ∈ xs, ∀ τ s' t', σ.Extends τ → e.Mirrors [] τ s' t' → e.Widens t t' →
      e.Tracks τ s' t' (f x) (g x) P) :
    e.Tracks σ s t (xs.mapM f) (xs.mapM g) fun τ => List.Forall₂ (P τ) := by
  induction xs generalizing σ s t with
  | nil => exact tracks_pure hm .nil
  | cons x xs ih =>
    rw [List.mapM_cons, List.mapM_cons]
    refine tracks_bind (h x (by simp) σ s t (.refl σ) hm (.refl e t))
      fun τ a b s' t' hx hm' _ ht hab => ?_
    have hwide := (hw x t b t' ht).1
    refine tracks_bind (ih hm' fun y hy υ s'' t'' hx' hm'' hw' =>
      h y (by simp [hy]) υ s'' t'' (hx.trans hx') hm'' (hwide.trans hw'))
      fun υ as bs s'' t'' hx' hm'' _ _ habs => ?_
    exact tracks_pure hm'' (.cons (hmono τ υ a b hx' hab) habs)

theorem tracks_foldlM {f : α → γ → Run α} {g : β → γ → Run β} {xs : List γ} {a : α} {b : β}
    (hm : e.Mirrors [] σ s t) (hab : P σ a b)
    (h : ∀ x ∈ xs, ∀ τ a b s' t', σ.Extends τ → e.Mirrors [] τ s' t' → P τ a b →
      e.Tracks τ s' t' (f a x) (g b x) P) :
    e.Tracks σ s t (xs.foldlM f a) (xs.foldlM g b) P := by
  induction xs generalizing σ s t a b with
  | nil => exact tracks_pure hm hab
  | cons x xs ih =>
    rw [List.foldlM_cons, List.foldlM_cons]
    refine tracks_bind (h x (by simp) σ a b s t (.refl σ) hm hab)
      fun τ a' b' s' t' hx hm' _ _ hab' => ?_
    exact ih hm' hab' fun y hy υ c c' s'' t'' hx' => h y (by simp [hy]) υ c c' s'' t'' (hx.trans hx')

end

/-! ### Memory -/

section

variable {target target' : Option Pointer} {row : Allocation}

theorem tracks_load (hm : e.Mirrors [] σ s t)
    (hp : Option.Rel (Pointer.Mirrors σ.places) target target') :
    e.Tracks σ s t (Run.load target) (Run.load target') fun τ => Datum.Mirrors τ.places := by
  intro d s' hr
  rw [load_run] at hr
  obtain ⟨hd, rfl⟩ := Prod.mk.inj hr
  obtain ⟨d', hd', hmirrors⟩ := hm.load hp d hd
  unfold Arrives
  rw [load_run, hd']
  exact ⟨σ, .refl σ, hm, hmirrors⟩

theorem tracks_store (hm : e.Mirrors [] σ s t)
    (hp : Option.Rel (Pointer.Mirrors σ.places) target target') (hd : d.Mirrors σ.places d') :
    e.Tracks σ s t (Run.store target d) (Run.store target' d') fun _ _ _ => True := by
  intro _ s' hr
  rw [store_run] at hr
  cases hc : s.memory.changedCell target d with
  | error fault =>
    rw [hc] at hr
    cases hr
  | ok x =>
    obtain ⟨p, changed⟩ := x
    obtain ⟨⟨q, changed'⟩, hc', hp', hchanged⟩ := hm.changedCell hp hd _ hc
    rw [hc] at hr
    cases hr
    unfold Arrives
    rw [store_run, hc']
    exact ⟨σ, .refl σ, hm.store hp' hchanged, trivial⟩

theorem tracks_allocate {type : TypeId} {count : Nat} {isStack : Bool} (hm : e.Mirrors [] σ s t) :
    e.Tracks σ s t (Run.allocate e.host e.module.types type count isStack)
      (Run.allocate e.host e.module.types type count isStack) fun τ => Pointer.Mirrors τ.places := by
  intro p s' hr
  rw [allocate_run] at hr
  cases hrow : s.memory.newRow e.host e.module.types type count isStack with
  | error fault =>
    rw [hrow] at hr
    cases hr
  | ok row =>
    rw [hrow] at hr
    cases hr
    unfold Arrives
    rw [allocate_run, hm.newRow hrow]
    exact ⟨⟨σ.places ++ [s.memory.allocations.size], σ.marks⟩, ⟨List.prefix_append _ _, rfl⟩,
      hm.allocate hrow, hm.mirrors_new _⟩

theorem tracks_tick (hm : e.Mirrors [] σ s t) (limit : Nat) :
    e.Tracks σ s t (tick limit) (tick limit) fun _ _ _ => True := by
  intro _ s' hr
  rw [tick_run] at hr
  split at hr
  · cases hr
  · rename_i hle
    cases hr
    have hsteps := hm.steps
    unfold Arrives
    rw [tick_run, if_neg (by omega)]
    exact ⟨σ, .refl σ, hm.tick, trivial⟩

/-- What a call leaves behind is related by the same numbers as what it found. -/
theorem tracks_nested {P : List Nat → α → β → Prop} {step : Run α} {step' : Run β}
    (hm : e.Mirrors [] σ s t)
    (h : ∀ τ s' t', τ.places = σ.places → e.Mirrors [] τ s' t' →
      s' = { s with depth := s.depth + 1 } → e.Tracks τ s' t' step step' fun υ => P υ.places) :
    e.Tracks σ s t (nested step) (nested step') fun τ => P τ.places := by
  intro a s' hr
  rw [nested_run] at hr
  rcases hs : step.run.run { s with depth := s.depth + 1 } with ⟨fault | b, s1⟩
  · rw [hs] at hr
    cases hr
  · rw [hs] at hr
    cases hr
    have harrives := h ⟨σ.places, (s.memory.mark, t.memory.mark) :: σ.marks⟩ _ _ rfl hm.entered
      rfl _ s1 hs
    unfold Arrives at harrives ⊢
    rw [nested_run]
    rcases ht : step'.run.run { t with depth := t.depth + 1 } with ⟨fault | b', t1⟩
    · rw [ht] at harrives
      exact harrives
    · rw [ht] at harrives
      obtain ⟨τ, hx, hm', hp⟩ := harrives
      exact ⟨⟨τ.places, σ.marks⟩, ⟨hx.places, rfl⟩, hm'.left hx.marks, hp⟩

end

/-! ### Constants -/

theorem constant_tracks (hs : e.module.Sound) (hg : e.module.Grounded)
    (hm : e.Mirrors [] σ s t)
    (hfuel : (e.module.values.size + 1) * e.module.missing t + v.index + 1 ≤ fuel) :
    e.Tracks σ s t (e.constant fuel v) (e.constant fuel v) fun τ => Datum.Mirrors τ.places := by
  induction fuel generalizing σ s t v with
  | zero => omega
  | succ fuel ih =>
    unfold constant
    dsimp only
    cases hk : (e.module.value v).kind with
    | int word => exact tracks_pure hm (.int _ _)
    | float number => exact tracks_pure hm (floatDatum_mirrors _ _)
    | null => exact tracks_pure hm .null
    | undef =>
      change e.Tracks σ s t
        (Run.ofExcept (s.memory.zero e.host e.module.types (e.module.typeOf v)))
        (Run.ofExcept (t.memory.zero e.host e.module.types (e.module.typeOf v))) _
      refine tracks_ofExcept hm fun d hd => ?_
      obtain ⟨n, hroom, hz, rfl⟩ := Memory.zero_eq_ok.mp hd
      exact ⟨_, Memory.zero_eq_ok.mpr ⟨n, hm.room hroom, hz, rfl⟩, Datum.mirrors_zero _ _⟩
    | aggregate elements =>
      refine tracks_bind (tracks_mapM hm (fun _ _ _ _ hx h => h.mono hx.places)
        (fun x t => (e.constant_widens fuel x t).mono fun _ _ _ => trivial)
        fun x hx τ s' t' _ hm' hw => ih hm' ?_) fun τ ds ds' s' t' _ hm' _ _ hds => ?_
      · have hless := Nat.mul_le_mul_left (e.module.values.size + 1) (missing_le hw)
        have hindex := hg v elements hk x hx
        omega
      · exact tracks_pure hm' (.aggregate hds)
    | bytes data =>
      refine tracks_pure hm (Datum.Mirrors.refl ?_)
      simp [Datum.hasPointer, Datum.anyPointer_eq_false, byteDatum]
    | global g =>
      have hv : e.module.values.Has v := has_of_kindOf (by simp [kindOf, hk])
      have hfits := (hs.values v hv).2
      rw [kindOf, hk] at hfits
      -- The first run may have the global already, so only the second one can be followed.
      have hstorage : e.Tracks σ s t (e.storage (e.constant fuel) v g)
          (e.storage (e.constant fuel) v g) fun τ => Pointer.Mirrors τ.places := by
        intro p s' hr
        obtain ⟨hw, hp⟩ := storage_widens hk (fun init _ s => e.constant_widens fuel init s) p s' hr
        refine storage_arrives (hm.widen hw) hp hk
          fun hn row init hi busy τ d _ hm' hd hin' => ?_
        refine constant_arrives hs hg hm' hd hin' ?_
        have hless := Nat.mul_le_mul_left (e.module.values.size + 1)
          (Nat.succ_le_of_lt (missing_opened row hv hn))
        have hindex : init.index < e.module.values.size := (hfits.2.2 init hi).1
        rw [Nat.mul_succ] at hless
        omega
      exact tracks_bind hstorage fun τ p q s' t' _ hm' _ _ hp => tracks_pure hm' (.pointer hp)
    | argument f n => exact tracks_throw _
    | instruction i => exact tracks_throw _

/-! ### Operands -/

section

variable {dead : ValueId → Prop} {frame frame' : Frame}

theorem operand_tracks (hs : e.module.Sound) (hg : e.module.Grounded) (hm : e.Mirrors [] σ s t)
    (hf : frame.Mirrors dead σ.places frame') (hv : e.module.values.Has v) (hn : ¬ dead v) :
    e.Tracks σ s t (e.operand frame v) (e.operand frame' v) fun τ => Datum.Mirrors τ.places := by
  have found : e.Tracks σ s t (framed frame v) (framed frame' v)
      fun τ => Datum.Mirrors τ.places := by
    unfold framed
    cases hd : frame[v]? with
    | none => exact tracks_throw _
    | some d =>
      obtain ⟨d', hd', hmirrors⟩ := hf v d hn hd
      rw [hd']
      exact tracks_pure hm hmirrors
  have hfuel : (e.module.values.size + 1) * e.module.missing t + v.index + 1 ≤
      e.constantDepth := by
    have hless := Nat.mul_le_mul_left (e.module.values.size + 1) (missing_le_size e.module t)
    have hindex : v.index < e.module.values.size := hv
    rw [constantDepth, Nat.mul_succ]
    omega
  unfold operand
  cases e.module.kindOf v with
  | argument f n => exact found
  | instruction i => exact found
  | _ => exact constant_tracks hs hg hm hfuel

/-- Values that both runs read alike, now and later. -/
def Follows (e : Setting) (σ : Numbering) (frame frame' : Frame) (v : ValueId) : Prop :=
  ∀ τ s t, σ.Extends τ → e.Mirrors [] τ s t →
    e.Tracks τ s t (e.operand frame v) (e.operand frame' v) fun υ => Datum.Mirrors υ.places

theorem follows_of_frames (hs : e.module.Sound) (hg : e.module.Grounded)
    (hf : frame.Mirrors dead σ.places frame') (hv : e.module.values.Has v) (hn : ¬ dead v) :
    e.Follows σ frame frame' v := fun _ _ _ hx hm =>
  operand_tracks hs hg hm (hf.mono hx.places) hv hn

namespace Follows

theorem mono (h : e.Follows σ frame frame' v) (hx : σ.Extends τ) : e.Follows τ frame frame' v :=
  fun υ s t hx' => h υ s t (hx.trans hx')

theorem operand (h : e.Follows σ frame frame' v) (hm : e.Mirrors [] σ s t) :
    e.Tracks σ s t (e.operand frame v) (e.operand frame' v) fun τ => Datum.Mirrors τ.places :=
  h σ s t (.refl σ) hm

/-- What is read off the datum of an operand. -/
theorem read {f g : Datum → Except Fault α} {P : Numbering → α → α → Prop}
    (h : e.Follows σ frame frame' v) (hm : e.Mirrors [] σ s t)
    (hr : ∀ τ d d', σ.Extends τ → d.Mirrors τ.places d' → Fault.Entails (f d) (g d') (P τ)) :
    e.Tracks σ s t (e.operand frame v >>= fun d => Run.ofExcept (f d))
      (e.operand frame' v >>= fun d => Run.ofExcept (g d)) P :=
  tracks_bind (h.operand hm) fun τ d d' _ _ hx hm' _ _ hd => tracks_ofExcept hm' (hr τ d d' hx hd)

theorem word (h : e.Follows σ frame frame' v) (hm : e.Mirrors [] σ s t) :
    e.Tracks σ s t (e.wordOperand frame v) (e.wordOperand frame' v) fun _ => (· = ·) :=
  h.read hm fun _ _ _ _ hd => hd.asWord

theorem signed (h : e.Follows σ frame frame' v) (hm : e.Mirrors [] σ s t) :
    e.Tracks σ s t (e.signedOperand frame v) (e.signedOperand frame' v) fun _ => (· = ·) :=
  h.read hm fun _ _ _ _ hd => hd.asSigned

theorem members (h : e.Follows σ frame frame' v) (hm : e.Mirrors [] σ s t) :
    e.Tracks σ s t (e.members frame v) (e.members frame' v)
      fun τ => List.Forall₂ (Datum.Mirrors τ.places) :=
  h.read hm fun _ _ _ _ hd => hd.asMembers

end Follows

theorem asPointer_tracks (hm : e.Mirrors [] σ s t) (hd : d.Mirrors σ.places d') :
    e.Tracks σ s t (Run.ofExcept d.asPointer) (Run.ofExcept d'.asPointer)
      fun τ => Option.Rel (Pointer.Mirrors τ.places) :=
  tracks_ofExcept hm hd.asPointer

theorem operands_track {vs : List ValueId} (h : ∀ v ∈ vs, e.Follows σ frame frame' v)
    (hm : e.Mirrors [] σ s t) :
    e.Tracks σ s t (vs.mapM (e.operand frame)) (vs.mapM (e.operand frame'))
      fun τ => List.Forall₂ (Datum.Mirrors τ.places) :=
  tracks_mapM hm (fun _ _ _ _ hx hd => hd.mono hx.places) (fun _ _ => operand_widens frame' _)
    fun v hv τ s t hx hm' _ => h v hv τ s t hx hm'

theorem derive_tracks {base : ValueId} {indices : List ValueId}
    (hb : e.Follows σ frame frame' base) (hi : ∀ v ∈ indices, e.Follows σ frame frame' v)
    (hm : e.Mirrors [] σ s t) :
    e.Tracks σ s t (e.derive frame base indices) (e.derive frame' base indices)
      fun τ => Datum.Mirrors τ.places := by
  unfold derive
  refine tracks_bind (hb.operand hm) fun τ d d' s t hx hm _ _ hd => ?_
  refine tracks_bind (asPointer_tracks hm hd) fun υ target target' s t hx' hm _ _ hp => ?_
  cases hp with
  | none => exact tracks_throw _
  | @some p q hp =>
    cases indices with
    | nil => exact tracks_pure hm (.pointer hp)
    | cons first rest =>
      have hfirst := (hi first (by simp)).mono (hx.trans hx')
      refine tracks_bind (hfirst.signed hm) fun φ offset _ s t hy hm _ _ he => ?_
      subst he
      refine tracks_bind (P := fun υ => Pointer.Mirrors υ.places)
        (tracks_ofExcept hm (advance_mirrors e.host (hp.mono hy.places) offset))
        fun ψ p q s t hz hm _ _ hp => ?_
      -- The places that the steps into members pass by stay with the numbers of the first operand.
      refine tracks_bind (P := fun υ p q => σ.Extends υ ∧ Pointer.Mirrors υ.places p q)
        (tracks_foldlM hm ⟨((hx.trans hx').trans hy).trans hz, hp⟩ fun v hv υ p q s t _ hm hp => ?_)
        fun υ p q s t _ hm _ _ hp => tracks_pure hm (.pointer hp.2)
      have hindex := (hi v (by simp [hv])).mono hp.1
      refine tracks_bind (hindex.signed hm) fun φ n _ s t hx hm _ _ he => ?_
      subst he
      refine tracks_ofExcept hm fun r hr => ?_
      obtain ⟨r', hr', hm'⟩ := enter_mirrors (hp.2.mono hx.places) n r hr
      exact ⟨r', hr', hp.1.trans hx, hm'⟩

theorem slotCount_tracks {count : Option ValueId} (hc : ∀ v ∈ count, e.Follows σ frame frame' v)
    (hm : e.Mirrors [] σ s t) :
    e.Tracks σ s t (e.slotCount frame count) (e.slotCount frame' count) fun _ => (· = ·) := by
  unfold slotCount
  cases count with
  | none => exact tracks_pure hm rfl
  | some v =>
    refine tracks_bind ((hc v rfl).signed hm) fun τ n _ s t _ hm _ _ he => ?_
    subst he
    split
    · exact tracks_throw_bind _ _ _
    · exact tracks_pure hm rfl

theorem switchTarget_tracks {word : UInt64} {default : BlockId} {cases : List (ValueId × BlockId)}
    (hc : ∀ c ∈ cases, e.Follows σ frame frame' c.1) (hm : e.Mirrors [] σ s t) :
    e.Tracks σ s t (e.switchTarget frame word default cases)
      (e.switchTarget frame' word default cases) fun _ => (· = ·) := by
  induction cases generalizing σ s t with
  | nil => exact tracks_pure hm rfl
  | cons c cases ih =>
    obtain ⟨key, dest⟩ := c
    unfold switchTarget
    refine tracks_bind ((hc (key, dest) (by simp)).word hm) fun τ w _ s t hx hm _ _ he => ?_
    subst he
    split
    · exact tracks_pure hm rfl
    · exact ih (fun c hc' => (hc c (by simp [hc'])).mono hx) hm

/-! ### Instructions -/

/-- An instruction comes to related results, provided that it does not compare the order of places
and that the call it may be does. -/
theorem evaluate_tracks {callee callee' : FunctionId → List Datum → Run Datum} {type : TypeId}
    {i : Instruction} (hi : ∀ v ∈ i.operands, e.Follows σ frame frame' v)
    (hm : e.Mirrors [] σ s t)
    (hcompare : ∀ pred lhs rhs, i = .icmp pred lhs rhs → ∀ d s',
      (e.operand frame lhs).run.run s = (.ok d, s') →
        pred.isEquality ∨ d.hasPointer = false)
    (hcall : ∀ f args, i = .call f args → ∀ data s',
      (args.mapM (e.operand frame)).run.run s = (.ok data, s') → ∀ τ t' data',
        σ.Extends τ → e.Mirrors [] τ s' t' → List.Forall₂ (Datum.Mirrors τ.places) data data' →
        e.Tracks τ s' t' (callee f data) (callee' f data') fun υ => Datum.Mirrors υ.places) :
    e.Tracks σ s t (e.evaluate callee frame type i) (e.evaluate callee' frame' type i)
      fun τ => Datum.Mirrors τ.places := by
  unfold evaluate
  cases i with
  | binary op lhs rhs =>
    refine tracks_bind ((hi lhs (by simp [Instruction.operands])).operand hm)
      fun τ a a' s t hx hm _ _ ha => ?_
    exact ((hi rhs (by simp [Instruction.operands])).mono hx).read hm fun υ b b' hy hb =>
      Datum.binary_mirrors e.host op (ha.mono hy.places) hb
  | icmp pred lhs rhs =>
    refine tracks_bind ((hi lhs (by simp [Instruction.operands])).operand hm)
      fun τ a a' s t hx hm hr _ ha => ?_
    have hequality := hcompare pred lhs rhs rfl a s hr
    refine tracks_bind (((hi rhs (by simp [Instruction.operands])).mono hx).operand hm)
      fun υ b b' s t hy hm _ _ hb => ?_
    exact tracks_ofExcept hm (Datum.icmp_mirrors hm.nodup hequality (ha.mono hy.places) hb)
  | fcmp pred lhs rhs =>
    refine tracks_bind ((hi lhs (by simp [Instruction.operands])).operand hm)
      fun τ a a' s t hx hm _ _ ha => ?_
    exact ((hi rhs (by simp [Instruction.operands])).mono hx).read hm fun υ b b' hy hb =>
      Datum.fcmp_mirrors pred (ha.mono hy.places) hb
  | alloca allocated count =>
    refine tracks_bind (slotCount_tracks (fun v hv => hi v ?_) hm) fun τ n _ s t _ hm _ _ he => ?_
    · simpa [Instruction.operands] using hv
    · subst he
      exact tracks_bind (tracks_allocate hm) fun υ p q s t _ hm _ _ hp =>
        tracks_pure hm (.pointer hp)
  | load ptr =>
    refine tracks_bind ((hi ptr (by simp [Instruction.operands])).operand hm)
      fun τ d d' s t _ hm _ _ hd => ?_
    exact tracks_bind (asPointer_tracks hm hd) fun υ p q s t _ hm _ _ hp =>
      tracks_load hm hp
  | store value ptr =>
    refine tracks_bind ((hi value (by simp [Instruction.operands])).operand hm)
      fun τ d d' s t hx hm _ _ hd => ?_
    refine tracks_bind (((hi ptr (by simp [Instruction.operands])).mono hx).operand hm)
      fun υ p p' s t hy hm _ _ hp => ?_
    refine tracks_bind (asPointer_tracks hm hp)
      fun φ target target' s t hz hm _ _ ht => ?_
    exact tracks_bind (tracks_store hm ht ((hd.mono hy.places).mono hz.places))
      fun _ _ _ s t _ hm _ _ _ => tracks_pure hm .void
  | elementPtr base indices =>
    exact derive_tracks (hi base (by simp [Instruction.operands]))
      (fun v hv => hi v (by simp [Instruction.operands, hv])) hm
  | call f args =>
    refine tracks_bind (operands_track hi hm) fun τ data data' s' t' hx hm' hr _ hd => ?_
    exact hcall f args rfl data s' hr τ t' data' hx hm' hd
  | cast op value =>
    exact (hi value (by simp [Instruction.operands])).read hm fun _ _ _ _ hd =>
      Datum.cast_mirrors hd
  | extractValue aggregate index =>
    refine tracks_bind ((hi aggregate (by simp [Instruction.operands])).members hm)
      fun τ ds ds' s t _ hm _ _ hds => ?_
    exact tracks_ofExcept hm (Datum.pick_mirrors hds index)
  | insertValue aggregate element index =>
    refine tracks_bind ((hi aggregate (by simp [Instruction.operands])).members hm)
      fun τ ds ds' s t hx hm _ _ hds => ?_
    refine ((hi element (by simp [Instruction.operands])).mono hx).read hm fun υ d d' hy hd => ?_
    exact Datum.put_mirrors (hds.imp fun _ _ h => h.mono hy.places) index hd
  | extractElement vector index =>
    refine tracks_bind ((hi vector (by simp [Instruction.operands])).members hm)
      fun τ ds ds' s t hx hm _ _ hds => ?_
    refine tracks_bind (((hi index (by simp [Instruction.operands])).mono hx).word hm)
      fun υ w _ s t hy hm _ _ he => ?_
    subst he
    exact tracks_ofExcept hm (Datum.pick_mirrors (hds.imp fun _ _ h => h.mono hy.places) _)
  | insertElement vector element index =>
    refine tracks_bind ((hi vector (by simp [Instruction.operands])).members hm)
      fun τ ds ds' s t hx hm _ _ hds => ?_
    refine tracks_bind (((hi element (by simp [Instruction.operands])).mono hx).operand hm)
      fun υ d d' s t hy hm _ _ hd => ?_
    refine tracks_bind (((hi index (by simp [Instruction.operands])).mono (hx.trans hy)).word hm)
      fun φ w _ s t hz hm _ _ he => ?_
    subst he
    have hplaces := hy.places.trans hz.places
    exact tracks_ofExcept hm (Datum.put_mirrors (hds.imp fun _ _ h => h.mono hplaces) _
      (hd.mono hz.places))
  | shuffle lhs rhs mask =>
    refine tracks_bind ((hi lhs (by simp [Instruction.operands])).members hm)
      fun τ ds ds' s t hx hm _ _ hds => ?_
    refine tracks_bind (((hi rhs (by simp [Instruction.operands])).mono hx).members hm)
      fun υ es es' s t hy hm _ _ hes => ?_
    refine tracks_bind (((hi mask (by simp [Instruction.operands])).mono (hx.trans hy)).members hm)
      fun φ ms ms' s t hz hm _ _ hms => ?_
    have hplaces := hy.places.trans hz.places
    exact tracks_ofExcept hm (Datum.shuffle_mirrors (hds.imp fun _ _ h => h.mono hplaces)
      (hes.imp fun _ _ h => h.mono hz.places) hms)
  | select cond thenValue elseValue =>
    refine tracks_bind ((hi cond (by simp [Instruction.operands])).operand hm)
      fun τ c c' s t hx hm _ _ hc => ?_
    refine tracks_bind (((hi thenValue (by simp [Instruction.operands])).mono hx).operand hm)
      fun υ a a' s t hy hm _ _ ha => ?_
    refine ((hi elseValue (by simp [Instruction.operands])).mono (hx.trans hy)).read hm
      fun φ b b' hz hb => ?_
    exact Datum.select_mirrors (hc.mono (hy.places.trans hz.places)) (ha.mono hz.places) hb
  | branch _ | condBranch _ _ _ | switch _ _ _ | phi _ | ret _ | unreachable =>
    exact tracks_throw _

end

end Setting
end SsaKit
