import Mathlib.Data.Finset.Card
import SsaKit.Proofs.Mirroring
import SsaKit.Proofs.Origin

/-! The second run reads a constant where the first one has stored all globals that it leads to: it
makes those that it does not have yet. -/
namespace SsaKit

/-- What a constant consists of: itself, and what the elements of aggregates consist of. -/
inductive Module.Comprises (m : Module) : ValueId → ValueId → Prop
  | self (v : ValueId) : Comprises m v v
  | element {v w x : ValueId} {elements : List ValueId} : m.kindOf v = .aggregate elements →
    x ∈ elements → Comprises m x w → Comprises m v w

theorem Module.Comprises.trans {m : Module} {u v w : ValueId} (h : m.Comprises u v)
    (h' : m.Comprises v w) : m.Comprises u w := by
  induction h with
  | self _ => exact h'
  | element hk hx _ ih => exact .element hk hx (ih h')

/-- A value is in what some global on the list starts with. -/
def Module.IsContent (m : Module) (u : ValueId) : Prop :=
  ∃ v g init, m.isListed v ∧ m.kindOf v = .global g ∧ g.initializer = some init ∧
    m.Comprises init u

theorem Module.IsContent.element {m : Module} {v x : ValueId} {elements : List ValueId}
    (h : m.IsContent v) (hk : m.kindOf v = .aggregate elements) (hx : x ∈ elements) :
    m.IsContent x := by
  obtain ⟨w, g, init, hl, hg, hi, hc⟩ := h
  exact ⟨w, g, init, hl, hg, hi, hc.trans (.element hk hx (.self x))⟩

/-- The globals that have no storage yet. -/
def Module.missing (m : Module) (s : Machine) : Nat :=
  ((Finset.range m.values.size).filter fun i => s.globals[(⟨i⟩ : ValueId)]? = none).card

namespace Setting

open Run SsaKit.Module

variable {α β : Type} {e : Setting} {busy : List Nat} {σ τ : Numbering} {s t t' : Machine}
  {v : ValueId} {g : Global} {row : Allocation} {d : Datum} {fuel : Nat}

theorem missing_le (h : e.Widens t t') : e.module.missing t' ≤ e.module.missing t := by
  refine Finset.card_le_card fun i hi => ?_
  simp only [Finset.mem_filter] at hi ⊢
  refine ⟨hi.1, ?_⟩
  cases hv : t.globals[(⟨i⟩ : ValueId)]? with
  | none => rfl
  | some p =>
    have := h.globals _ p hv
    rw [hi.2] at this
    cases this

theorem missing_le_size (m : Module) (t : Machine) : m.missing t ≤ m.values.size :=
  (Finset.card_filter_le _ _).trans_eq (Finset.card_range _)

theorem missing_opened (row : Allocation) (hv : e.module.values.Has v)
    (hn : t.globals[v]? = none) :
    e.module.missing (opened t v row) < e.module.missing t := by
  refine Finset.card_lt_card ((Finset.ssubset_iff_of_subset fun i hi => ?_).mpr
    ⟨v.index, ?_, fun hin => ?_⟩)
  · simp only [Finset.mem_filter, opened, getElem?_insert] at hi ⊢
    refine ⟨hi.1, ?_⟩
    have hi := hi.2
    split at hi
    · cases hi
    · exact hi
  · exact Finset.mem_filter.mpr ⟨Finset.mem_range.mpr hv, hn⟩
  · simp [opened] at hin

/-- No room is left for an undefined value in what a global starts with, as the global is made. -/
def Starves (e : Setting) (fault : Fault) : Prop :=
  ∃ u, e.module.IsContent u ∧ e.module.kindOf u = .undef ∧
    fault = .memoryLimit 1 (e.module.types.text (e.module.typeOf u)) e.limits.cells

/-- The second machine takes a step and still has what it has from the first one, which waits; or it
starves. -/
def Arrives (e : Setting) (busy : List Nat) (σ : Numbering) (s t : Machine) (step : Run β)
    (P : Numbering → β → Prop) : Prop :=
  match step.run.run t with
  | (.ok b, t') => ∃ τ, σ.Extends τ ∧ e.Mirrors busy τ s t' ∧ P τ b
  | (.error fault, _) => e.Starves fault

section

variable {P : Numbering → β → Prop} {Q : Numbering → α → Prop}

theorem arrives_pure {b : β} (h : e.Mirrors busy σ s t) (hp : P σ b) :
    e.Arrives busy σ s t (pure b) P := ⟨σ, .refl σ, h, hp⟩

theorem Arrives.of_extends {step : Run β} (h : e.Arrives busy τ s t step P)
    (hx : σ.Extends τ) : e.Arrives busy σ s t step P := by
  unfold Arrives at h ⊢
  rcases hs : step.run.run t with ⟨fault | b, t'⟩
  · rw [hs] at h
    exact h
  · rw [hs] at h
    obtain ⟨υ, hx', h⟩ := h
    exact ⟨υ, hx.trans hx', h⟩

theorem arrives_bind {busy' : List Nat} {step : Run β} {next : β → Run α}
    (h : e.Arrives busy' σ s t step P)
    (hn : ∀ τ b t', σ.Extends τ → e.Mirrors busy' τ s t' → step.run.run t = (.ok b, t') → P τ b →
      e.Arrives busy τ s t' (next b) Q) : e.Arrives busy σ s t (step >>= next) Q := by
  unfold Arrives at h ⊢
  rw [run_bind]
  rcases hs : step.run.run t with ⟨fault | b, t'⟩
  · rw [hs] at h
    exact h
  · rw [hs] at h
    obtain ⟨τ, hx, hm, hp⟩ := h
    have hnext := hn τ b t' hx hm hs hp
    unfold Arrives at hnext
    dsimp only
    rcases hs' : (next b).run.run t' with ⟨fault | a, t''⟩
    · rw [hs'] at hnext
      exact hnext
    · rw [hs'] at hnext
      obtain ⟨υ, hx', hm', hq⟩ := hnext
      exact ⟨υ, hx.trans hx', hm', hq⟩

/-- Data for a list of constants, one after the other. -/
theorem arrives_mapM {f : α → Run Datum} {xs : List α} {ds : List Datum}
    (hf : ∀ x t, e.Widening t (f x) fun _ _ => True)
    (h : List.Forall₂ (fun x d => ∀ τ t', e.Mirrors busy τ s t' → e.Widens t t' →
      e.Arrives busy τ s t' (f x) fun υ => d.Mirrors υ.places) xs ds)
    (hm : e.Mirrors busy σ s t') (hw : e.Widens t t') :
    e.Arrives busy σ s t' (xs.mapM f) fun υ => List.Forall₂ (Datum.Mirrors υ.places) ds := by
  induction h generalizing σ t' with
  | nil => exact arrives_pure hm .nil
  | cons hx _ ih =>
    rw [List.mapM_cons]
    refine arrives_bind (hx σ t' hm hw) fun τ d' t'' _ hm' hrun hd => ?_
    refine arrives_bind (ih hm' (hw.trans (hf _ t' d' t'' hrun).1)) fun υ ds' _ hx' hm'' _ hds => ?_
    exact arrives_pure hm'' (.cons (hd.mono hx'.places) hds)

end

/-- A global that the first machine has is there in the second one, or is made and filled. -/
theorem storage_arrives {constant : ValueId → Run Datum} {p : Pointer}
    (hm : e.Mirrors busy σ s t) (hp : s.globals[v]? = some p) (hk : e.module.kindOf v = .global g)
    (hc : t.globals[v]? = none → ∀ row, ∀ init ∈ g.initializer, ∀ busy τ d, σ.Extends τ →
      e.Mirrors busy τ s (opened t v row) → e.Denotes s.globals init d →
      e.module.IsContent init →
      e.Arrives busy τ s (opened t v row) (constant init) fun υ => d.Mirrors υ.places) :
    e.Arrives busy σ s t (e.storage constant v g) fun τ => p.Mirrors τ.places := by
  cases hn : t.globals[v]? with
  | some q =>
    obtain ⟨p', hp', hq⟩ := hm.globals v q hn
    obtain rfl := Option.some_inj.mp (hp.symm.trans hp')
    unfold Arrives
    rw [storage_known hn]
    exact ⟨σ, .refl σ, hm, hq⟩
  | none =>
    obtain ⟨hout, g', d, n, hpristine⟩ := hm.fresh v p hp hn
    obtain rfl : g = g' := by simpa [hk] using hpristine.kindOf
    obtain ⟨row, hrow, hopened⟩ := hm.opened hp hn hpristine
    have hplaces : σ.Extends ⟨σ.places ++ [p.allocation], σ.marks⟩ :=
      ⟨List.prefix_append _ _, rfl⟩
    have hplace := hm.mirrors_new p.allocation
    rw [← hpristine.place] at hplace
    have hcontent : e.Arrives (t.memory.allocations.size :: busy)
        ⟨σ.places ++ [p.allocation], σ.marks⟩ s (opened t v row) (e.content constant g)
        fun υ => d.Mirrors υ.places := by
      have hstarts := hpristine.startsWith
      unfold StartsWith at hstarts
      unfold content
      cases hi : g.initializer with
      | none =>
        rw [hi] at hstarts
        subst hstarts
        exact arrives_pure hopened (Datum.mirrors_zero _ _)
      | some init =>
        rw [hi] at hstarts
        exact hc hn row init hi _ _ d hplaces hopened hstarts
          ⟨v, g, init, hpristine.isListed, hk, hi, .self init⟩
    have hfilled : e.Arrives busy ⟨σ.places ++ [p.allocation], σ.marks⟩ s (opened t v row) (do
        let d ← e.content constant g
        Run.store (some { allocation := t.memory.allocations.size }) d
        return { allocation := t.memory.allocations.size } : Run Pointer)
        fun υ => p.Mirrors υ.places := by
      refine arrives_bind hcontent fun υ d' t' hx hm' _ hd => ?_
      have hplace' := hplace.mono hx.places
      have hnumber := hplace'.allocation
      obtain ⟨row₀, row', hr, hr', halike⟩ := hm'.row_of_place hnumber
      obtain rfl := Option.some_inj.mp (hpristine.row.symm.trans hr)
      have hfirst : 0 < row'.cells.size := by simp [halike.size]
      have hcell : row'.cells[0]? = some row'.cells[0] := Array.getElem?_eq_getElem hfirst
      unfold Arrives
      rw [run_bind, store_first hr' halike.isLive hcell]
      exact ⟨υ, .refl υ, hm'.fill hnumber hpristine.row hd, hplace'⟩
    have harrives := hfilled.of_extends hplaces
    unfold Arrives at harrives ⊢
    rwa [storage_new hn hpristine.isListed hrow]

theorem floatDatum_mirrors {places : List Nat} (type : TypeId) (number : Double) :
    (e.floatDatum type number).Mirrors places (e.floatDatum type number) := by
  unfold floatDatum
  split
  · exact .single _
  · exact .double _

/-- Fuel for one constant: what is left to make, times the room between two of them. Below a global
each aggregate stands behind its elements. -/
theorem constant_arrives (hs : e.module.Sound) (hg : e.module.Grounded)
    (hm : e.Mirrors busy σ s t) (hd : e.Denotes s.globals v d) (hin : e.module.IsContent v)
    (hfuel : (e.module.values.size + 1) * e.module.missing t + v.index + 1 ≤ fuel) :
    e.Arrives busy σ s t (e.constant fuel v) fun τ => d.Mirrors τ.places := by
  induction fuel generalizing busy σ t v d with
  | zero => omega
  | succ fuel ih =>
    unfold constant
    dsimp only
    cases hd with
    | int hk =>
      rw [kindOf] at hk
      rw [hk]
      exact arrives_pure hm (.int _ _)
    | float hk =>
      rw [kindOf] at hk
      rw [hk]
      exact arrives_pure hm (floatDatum_mirrors _ _)
    | null hk =>
      rw [kindOf] at hk
      rw [hk]
      exact arrives_pure hm .null
    | undef hk hz =>
      have hkind := hk
      rw [kindOf] at hkind
      rw [hkind]
      change e.Arrives busy σ s t
        (Run.ofExcept (t.memory.zero e.host e.module.types (e.module.typeOf v))) _
      unfold Memory.zero Memory.build
      rw [hz]
      cases hroom : t.memory.room e.module.types (e.module.typeOf v) 1 with
      | ok n => exact arrives_pure hm (Datum.mirrors_zero _ _)
      | error fault =>
        refine ⟨v, hin, hk, ?_⟩
        rw [← hm.limit']
        exact Memory.room_eq_error hroom
    | aggregate hk hn hds =>
      rename_i elements ds
      have hkind := hk
      rw [kindOf] at hkind
      rw [hkind]
      have helements : List.Forall₂ (e.Denotes s.globals) elements ds :=
        List.forall₂_iff_get.mpr ⟨hn, hds⟩
      refine arrives_bind (arrives_mapM (fun x t => (e.constant_widens fuel x t).mono
        fun _ _ _ => trivial) (forall₂_imp_left helements fun x hx d hd τ t' hm' hw => ?_) hm
        (.refl e t)) fun τ ds' t' _ hm' _ hds' => arrives_pure hm' (.aggregate hds')
      refine ih hm' hd (hin.element hk hx) ?_
      have hless := Nat.mul_le_mul_left (e.module.values.size + 1) (missing_le hw)
      have hindex := hg v elements hk x hx
      omega
    | bytes hk =>
      rw [kindOf] at hk
      rw [hk]
      refine arrives_pure hm (Datum.Mirrors.refl ?_)
      simp [Datum.hasPointer, Datum.anyPointer_eq_false, byteDatum]
    | global hk hp =>
      rename_i g p
      have hkind := hk
      rw [kindOf] at hkind
      rw [hkind]
      have hv : e.module.values.Has v := has_of_kindOf (by simp [hk])
      have hfits := (hs.values v hv).2
      rw [hk] at hfits
      refine arrives_bind (storage_arrives hm hp hk fun hn row init hi busy τ d _ hm' hd hin' => ?_)
        fun τ q t' _ hm' _ hq => arrives_pure hm' (.pointer hq)
      refine ih hm' hd hin' ?_
      have hless := Nat.mul_le_mul_left (e.module.values.size + 1)
        (Nat.succ_le_of_lt (missing_opened row hv hn))
      have hindex : init.index < e.module.values.size := (hfits.2.2 init hi).1
      rw [Nat.mul_succ] at hless
      omega

end Setting
end SsaKit
