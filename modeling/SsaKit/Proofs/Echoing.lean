import SsaKit.Proofs.Overrun
import SsaKit.Proofs.Tracking

/-! Steps of two runs where the second machine has its allocations from the first one: a step that
fails in the first run fails in the second one too, unless a limit or an excuse stopped the first. -/
namespace SsaKit

/-! ### The numbering read backwards -/

/-- The second list finds every number of the first one where that list has it. -/
structure Flips (places back : List Nat) : Prop where
  nodup : back.Nodup
  places : ∀ i a : Nat, places[i]? = some a → back[a]? = some i

/-- Numbers that the list does not have are filled in behind it. -/
theorem exists_flips {places : List Nat} (hn : places.Nodup) : ∃ back, Flips places back := by
  obtain ⟨bound, hbound⟩ := places.toFinset.exists_nat_subset_range
  have hlt (a : Nat) (ha : a ∈ places) : a < bound :=
    Finset.mem_range.mp (hbound (List.mem_toFinset.mpr ha))
  let number (a : Nat) : Nat := if a ∈ places then places.idxOf a else places.length + a
  refine ⟨(List.range bound).map number, ?_, fun i a ha => ?_⟩
  · refine (List.nodup_map_iff_inj_on List.nodup_range).mpr fun a _ b _ he => ?_
    by_cases ha : a ∈ places
    · have hless := List.idxOf_lt_length_of_mem ha
      by_cases hb : b ∈ places
      · simp only [number, ha, hb, if_true] at he
        exact (List.idxOf_inj ha).mp he
      · simp only [number, ha, hb, if_true, if_false] at he
        omega
    · by_cases hb : b ∈ places
      · have hless := List.idxOf_lt_length_of_mem hb
        simp only [number, ha, hb, if_true, if_false] at he
        omega
      · simp only [number, ha, hb, if_false] at he
        omega
  · obtain ⟨hi, rfl⟩ := List.getElem?_eq_some_iff.mp ha
    have hmem : places[i] ∈ places := List.getElem_mem hi
    rw [List.getElem?_map, List.getElem?_range (hlt _ hmem), Option.map_some]
    simp only [number, hmem, if_true]
    rw [hn.idxOf_getElem i hi]

section

variable {places back : List Nat} {p q : Pointer} {d d' : Datum} {ds ds' : List Datum}

theorem Pointer.Mirrors.flip (h : p.Mirrors places q) (hf : Flips places back) :
    q.Mirrors back p :=
  ⟨hf.places _ _ h.allocation, h.index.symm, h.path.symm⟩

theorem Datum.Mirrors.flip (h : d.Mirrors places d') (hf : Flips places back) :
    d'.Mirrors back d := by
  induction d using memberwise generalizing d' with
  | scalar d hs =>
    cases h with
    | pointer h => exact .pointer (h.flip hf)
    | aggregate _ => exact (hs _ rfl).elim
    | _ => constructor
  | members ds ih =>
    cases h with
    | aggregate h =>
      exact .aggregate (forall₂_imp_left h fun d hd d' h => ih d hd h).flip

theorem mirrors_flip (h : List.Forall₂ (Datum.Mirrors places) ds ds') (hf : Flips places back) :
    List.Forall₂ (Datum.Mirrors back) ds' ds :=
  (h.imp fun _ _ hd => hd.flip hf).flip

end

/-- What the first frame lacks, the second one lacks too. -/
def Frame.Covers (frame frame' : Frame) : Prop :=
  ∀ v : ValueId, frame[v]? = none → frame'[v]? = none

namespace Setting

open Fault

namespace Mirrors

variable {e : Setting} {busy : List Nat} {σ : Numbering} {s t : Machine} {p q : Pointer}
  {d d' : Datum} {row : Allocation} {v : ValueId}

theorem cell_back (h : e.Mirrors [] σ s t) (hp : p.Mirrors σ.places q) :
    Entails (t.memory.cell q) (s.memory.cell p) fun c' c => c.Mirrors σ.places c' := by
  intro c' hc'
  obtain ⟨row', hr', hl, hi, hc'⟩ := Memory.cell_eq_ok.mp hc'
  obtain ⟨row, row₀, hr, hr₀, halike⟩ := h.row_of_place hp.allocation
  obtain rfl := Option.some_inj.mp (hr'.symm.trans hr₀)
  have hlt := halike.size ▸ (Array.getElem?_eq_some_iff.mp hc').1
  rw [hp.index] at hi hc' hlt
  have hc := Array.getElem?_eq_getElem hlt
  refine ⟨_, Memory.cell_eq_ok.mpr ⟨row, hr, halike.isLive ▸ hl, hi, hc⟩, ?_⟩
  exact h.cells _ _ row row' (by simp) hp.allocation hr hr' _ _ c' hc hc'

theorem load_back (h : e.Mirrors [] σ s t) {target target' : Option Pointer}
    (hp : Option.Rel (Pointer.Mirrors σ.places) target target') :
    Entails (t.memory.load target') (s.memory.load target) fun _ _ => True := by
  cases hp with
  | none => exact entails_error _ _
  | @some p q hp =>
    obtain ⟨back, hback⟩ := exists_flips h.nodup
    refine entails_bind (h.cell_back hp) fun c' c hc => ?_
    rw [hp.path]
    cases hw : c'.walk p.path with
    | none => exact entails_error _ _
    | some d' =>
      obtain ⟨d, hd, -⟩ := (hc.flip hback).walk hw
      rw [hd]
      exact entails_ok trivial

theorem changedCell_back (h : e.Mirrors [] σ s t) {target target' : Option Pointer}
    (hp : Option.Rel (Pointer.Mirrors σ.places) target target') (hd : d.Mirrors σ.places d') :
    Entails (t.memory.changedCell target' d') (s.memory.changedCell target d)
      fun _ _ => True := by
  cases hp with
  | none => exact entails_error _ _
  | @some p q hp =>
    obtain ⟨back, hback⟩ := exists_flips h.nodup
    refine entails_bind (h.cell_back hp) fun c' c hc => ?_
    rw [hp.path]
    cases hr : Datum.replace d' c' p.path with
    | none => exact entails_error _ _
    | some changed' =>
      obtain ⟨changed, hc', -⟩ := (hc.flip hback).replace (hd.flip hback) hr
      rw [hc']
      exact entails_ok trivial

/-- A global that neither machine has gets the same place in both. -/
theorem register (h : e.Mirrors busy σ s t) (hn : s.globals[v]? = none)
    (hp : p.Mirrors σ.places q) :
    e.Mirrors busy σ { s with globals := s.globals.insert v p }
      { t with globals := t.globals.insert v q } := by
  have other {w : ValueId} {p' : Pointer} (hp' : (s.globals.insert v p)[w]? = some p')
      (hn' : (t.globals.insert v q)[w]? = none) :
      s.globals[w]? = some p' ∧ t.globals[w]? = none := by
    rw [getElem?_insert] at hp' hn'
    split at hn'
    · cases hn'
    · rename_i hne
      exact ⟨by rwa [if_neg hne] at hp', hn'⟩
  exact { h with
    globals := fun w q' hq' => by
      rw [getElem?_insert] at hq' ⊢
      split at hq'
      · rename_i he
        obtain rfl := Option.some_inj.mp hq'
        exact ⟨p, if_pos he, hp⟩
      · rename_i hne
        obtain ⟨p', hp', hm⟩ := h.globals w q' hq'
        exact ⟨p', by rw [if_neg hne, hp'], hm⟩
    fresh := fun w p' hp' hn' => by
      obtain ⟨hold, hnone⟩ := other hp' hn'
      obtain ⟨hout, g, d, n, hpristine⟩ := h.fresh w p' hold hnone
      refine ⟨hout, g, d, n, { hpristine with startsWith := ?_ }⟩
      refine hpristine.startsWith.mono fun u r hr => ?_
      rw [getElem?_insert]
      split
      · rename_i he
        obtain rfl := he
        rw [hn] at hr
        cases hr
      · exact hr
    apart := fun u w p' q' hp' hq' hu hw => by
      obtain ⟨hp', hu⟩ := other hp' hu
      obtain ⟨hq', hw⟩ := other hq' hw
      exact h.apart u w p' q' hp' hq' hu hw }

/-- Both machines open the storage of a global that neither of them has. -/
theorem opened_both (h : e.Mirrors busy σ s t) (hn : s.globals[v]? = none) {type : TypeId}
    (hr : s.memory.newRow e.host e.module.types type 1 false = .ok row) :
    e.Mirrors busy ⟨σ.places ++ [s.memory.allocations.size], σ.marks⟩
      (Setting.opened s v row) (Setting.opened t v row) :=
  (h.allocate hr).register hn (h.mirrors_new _)

end Mirrors

/-! ### Steps that fail together -/

open Run SsaKit.Module

variable {α β γ δ : Type} {e : Setting} {excused : Fault → Prop} {σ τ : Numbering}
  {s s' t t' : Machine} {v : ValueId} {d d' : Datum} {fuel : Nat}

/-- Where the first step fails, so does the second one, unless a limit or an excuse stopped the
first. Where both succeed, their results go together. -/
def Echoes (excused : Fault → Prop) (s t : Machine) (step : Run α) (step' : Run β)
    (P : α → β → Prop) : Prop :=
  match (step.run.run s).1, (step'.run.run t).1 with
  | .ok a, .ok b => P a b
  | .error fault, .ok _ => fault.isOverrun ∨ excused fault
  | _, .error _ => True

/-- Steps that only fail together. -/
abbrev Echo (excused : Fault → Prop) (s t : Machine) (step : Run α) (step' : Run β) : Prop :=
  Echoes excused s t step step' fun _ _ => True

section

variable {P : Numbering → α → β → Prop} {R : α → β → Prop} {Q : γ → δ → Prop} {step : Run α}
  {step' : Run β} {next : α → Run γ} {next' : β → Run δ}

theorem echoes_pure {a : α} {b : β} (h : R a b) : Echoes excused s t (pure a) (pure b) R := h

theorem echoes_failed {fault : Fault} (h : (step'.run.run t).1 = .error fault) :
    Echoes excused s t step step' R := by
  unfold Echoes
  rw [h]
  split <;> trivial

theorem echoes_throw (fault : Fault) : Echoes excused s t step (throw fault : Run β) R :=
  echoes_failed rfl

theorem echoes_stopped {fault : Fault} (h : (step.run.run s).1 = .error fault)
    (hf : fault.isOverrun ∨ excused fault) : Echoes excused s t step step' R := by
  unfold Echoes
  rw [h]
  split
  · trivial
  · rename_i he _
    exact Except.error.inj he ▸ hf
  · trivial

theorem echo_succeeded {a : α} (h : (step.run.run s).1 = .ok a) : Echo excused s t step step' := by
  unfold Echo Echoes
  rw [h]
  cases (step'.run.run t).1 <;> trivial

theorem Echoes.congr {step₁ : Run α} {step₁' : Run β} {s₁ t₁ : Machine}
    (h : Echoes excused s t step step' R) (hs : (step₁.run.run s₁).1 = (step.run.run s).1)
    (ht : (step₁'.run.run t₁).1 = (step'.run.run t).1) : Echoes excused s₁ t₁ step₁ step₁' R := by
  unfold Echoes at h ⊢
  rwa [hs, ht]

theorem echoes_bind (h : e.Tracks σ s t step step' P) (hf : Echoes excused s t step step' R)
    (hn : ∀ τ a b s' t', σ.Extends τ → e.Mirrors [] τ s' t' → step.run.run s = (.ok a, s') →
      step'.run.run t = (.ok b, t') → P τ a b → R a b →
      Echoes excused s' t' (next a) (next' b) Q) :
    Echoes excused s t (step >>= next) (step' >>= next') Q := by
  rcases ht : step'.run.run t with ⟨fault | b, t'⟩
  · exact echoes_failed (by rw [run_bind, ht])
  · unfold Echoes at hf
    rw [ht] at hf
    rcases hs : step.run.run s with ⟨fault | a, s'⟩
    · rw [hs] at hf
      exact echoes_stopped (by rw [run_bind, hs]) hf
    · rw [hs] at hf
      have harrives := h a s' hs
      unfold Arrives at harrives
      rw [ht] at harrives
      obtain ⟨τ, hx, hm, hp⟩ := harrives
      exact (hn τ a b s' t' hx hm hs ht hp hf).congr (by rw [run_bind, hs]) (by rw [run_bind, ht])

theorem Echo.map (h : Echo excused s t step step') (f : α → γ) (g : β → δ) :
    Echo excused s t (step >>= fun a => pure (f a)) (step' >>= fun b => pure (g b)) := by
  unfold Echo Echoes at h ⊢
  rw [run_bind, run_bind]
  rcases hs : step.run.run s with ⟨fault | a, s'⟩ <;>
    rcases ht : step'.run.run t with ⟨fault' | b, t'⟩ <;> rw [hs, ht] at h <;> exact h

theorem Echo.map_left (h : Echo excused s t step step') (f : α → γ) :
    Echo excused s t (step >>= fun a => pure (f a)) step' := by
  have hmap := h.map f id
  rwa [show (step' >>= fun b => pure (id b)) = step' from bind_pure step'] at hmap

/-- A step that only the first run takes, and that only an excuse or a limit stops. -/
theorem echoes_left {ok : Machine → α → Prop} {last : Run δ} (hm : e.Mirrors [] σ s t)
    (h : e.Widening s step ok)
    (hf : ∀ fault s', step.run.run s = (.error fault, s') → fault.isOverrun ∨ excused fault)
    (hn : ∀ a s', e.Mirrors [] σ s' t → step.run.run s = (.ok a, s') → ok s' a →
      Echoes excused s' t (next a) last Q) : Echoes excused s t (step >>= next) last Q := by
  rcases hs : step.run.run s with ⟨fault | a, s'⟩
  · exact echoes_stopped (by rw [run_bind, hs]) (hf fault s' hs)
  · obtain ⟨hw, ha⟩ := h a s' hs
    exact (hn a s' (hm.widen hw) hs ha).congr (by rw [run_bind, hs]) rfl

/-- A computation on related data fails where the one on the data that they come from does. -/
theorem echo_ofExcept {r : Except Fault α} {r' : Except Fault β} {S : List Nat → β → α → Prop}
    (hm : e.Mirrors [] σ s t) (h : ∀ back, Flips σ.places back → Entails r' r (S back)) :
    Echo excused s t (Run.ofExcept r) (Run.ofExcept r') := by
  cases r' with
  | error fault => exact echoes_failed rfl
  | ok b =>
    obtain ⟨back, hback⟩ := exists_flips hm.nodup
    obtain ⟨a, rfl, -⟩ := h back hback b rfl
    exact echoes_pure trivial

theorem echo_mapM {f : γ → Run α} {g : γ → Run β} {xs : List γ} (hm : e.Mirrors [] σ s t)
    (hmono : ∀ τ υ a b, τ.Extends υ → P τ a b → P υ a b)
    (hw : ∀ x t, e.Widening t (g x) fun _ _ => True)
    (h : ∀ x ∈ xs, ∀ τ s' t', σ.Extends τ → e.Mirrors [] τ s' t' → e.Widens t t' →
      e.Tracks τ s' t' (f x) (g x) P ∧ Echo excused s' t' (f x) (g x)) :
    Echo excused s t (xs.mapM f) (xs.mapM g) := by
  induction xs generalizing σ s t with
  | nil => exact echoes_pure trivial
  | cons x xs ih =>
    rw [List.mapM_cons, List.mapM_cons]
    obtain ⟨htracks, hecho⟩ := h x (by simp) σ s t (.refl σ) hm (.refl e t)
    refine echoes_bind htracks hecho fun τ a b s' t' hx hm' _ ht _ _ => ?_
    have hwide := (hw x t b t' ht).1
    have hrest : ∀ y ∈ xs, ∀ υ s'' t'', τ.Extends υ → e.Mirrors [] υ s'' t'' → e.Widens t' t'' →
        e.Tracks υ s'' t'' (f y) (g y) P ∧ Echo excused s'' t'' (f y) (g y) :=
      fun y hy υ s'' t'' hx' hm'' hw' =>
        h y (by simp [hy]) υ s'' t'' (hx.trans hx') hm'' (hwide.trans hw')
    exact echoes_bind (tracks_mapM hm' hmono hw fun y hy υ s'' t'' hx' hm'' hw' =>
        (hrest y hy υ s'' t'' hx' hm'' hw').1) (ih hm' hrest) fun _ _ _ _ _ _ _ _ _ _ _ =>
      echoes_pure trivial

theorem echo_foldlM {f : α → γ → Run α} {g : β → γ → Run β} {xs : List γ} {a : α} {b : β}
    (hm : e.Mirrors [] σ s t) (hab : P σ a b)
    (h : ∀ x ∈ xs, ∀ τ a b s' t', σ.Extends τ → e.Mirrors [] τ s' t' → P τ a b →
      e.Tracks τ s' t' (f a x) (g b x) P ∧ Echo excused s' t' (f a x) (g b x)) :
    Echo excused s t (xs.foldlM f a) (xs.foldlM g b) := by
  induction xs generalizing σ s t a b with
  | nil => exact echoes_pure trivial
  | cons x xs ih =>
    rw [List.foldlM_cons, List.foldlM_cons]
    obtain ⟨htracks, hecho⟩ := h x (by simp) σ a b s t (.refl σ) hm hab
    refine echoes_bind htracks hecho fun τ a' b' s' t' hx hm' _ _ hab' _ => ?_
    exact ih hm' hab' fun y hy υ c c' s'' t'' hx' => h y (by simp [hy]) υ c c' s'' t'' (hx.trans hx')

end

/-! ### Memory -/

section

variable {target target' : Option Pointer}

theorem load_echoes (hm : e.Mirrors [] σ s t)
    (hp : Option.Rel (Pointer.Mirrors σ.places) target target') :
    Echo excused s t (Run.load target) (Run.load target') :=
  (echo_ofExcept hm fun _ _ => hm.load_back hp).congr (by rw [load_run]; rfl) (by rw [load_run]; rfl)

theorem store_echoes (hm : e.Mirrors [] σ s t)
    (hp : Option.Rel (Pointer.Mirrors σ.places) target target') (hd : d.Mirrors σ.places d') :
    Echo excused s t (Run.store target d) (Run.store target' d') := by
  cases ht : t.memory.changedCell target' d' with
  | error fault => exact echoes_failed (by rw [store_run, ht])
  | ok y =>
    obtain ⟨x, hs, -⟩ := hm.changedCell_back hp hd y ht
    unfold Echo Echoes
    rw [store_run, store_run, hs, ht]
    trivial

/-- The second machine is refused a row where the first one is, for want of room in the first or by
the host in both. -/
theorem newRow_refused {types : TypeTable} {type : TypeId} {count : Nat} {isStack : Bool}
    {fault : Fault} (h : s.memory.newRow e.host types type count isStack = .error fault) :
    fault.isOverrun ∨ ∃ fault', t.memory.newRow e.host types type count isStack = .error fault' := by
  cases ht : t.memory.newRow e.host types type count isStack with
  | error fault' => exact .inr ⟨fault', rfl⟩
  | ok row =>
    obtain ⟨-, -, hprovides, -⟩ := Memory.newRow_eq_ok.mp ht
    cases hroom : s.memory.room types type count with
    | error refusal =>
      obtain rfl := Memory.room_eq_error hroom
      simp only [Memory.newRow, hroom, bind, Except.bind, Except.error.injEq] at h
      exact .inl (h ▸ rfl)
    | ok n =>
      rw [Memory.newRow_eq_ok.mpr ⟨n, hroom, hprovides, rfl⟩] at h
      cases h

theorem allocate_echoes {type : TypeId} {count : Nat} {isStack : Bool} (hm : e.Mirrors [] σ s t) :
    Echo excused s t (Run.allocate e.host e.module.types type count isStack)
      (Run.allocate e.host e.module.types type count isStack) := by
  cases hs : s.memory.newRow e.host e.module.types type count isStack with
  | ok row =>
    unfold Echo Echoes
    rw [allocate_run, allocate_run, hs, hm.newRow hs]
    trivial
  | error fault =>
    obtain hf | ⟨fault', ht⟩ := newRow_refused hs
    · exact echoes_stopped (by rw [allocate_run, hs]) (.inl hf)
    · exact echoes_failed (by rw [allocate_run, ht])

theorem tick_echoes (limit : Nat) : Echo excused s t (tick limit) (tick limit) := by
  unfold Echo Echoes
  rw [tick_run, tick_run]
  by_cases hl : limit < s.steps + 1
  · rw [if_pos hl]
    by_cases hl' : limit < t.steps + 1
    · rw [if_pos hl']
      trivial
    · rw [if_neg hl']
      exact .inl rfl
  · rw [if_neg hl]
    split <;> trivial

theorem nested_echoes {step : Run α} {step' : Run β} {R : α → β → Prop}
    (h : Echoes excused { s with depth := s.depth + 1 } { t with depth := t.depth + 1 } step step' R) :
    Echoes excused s t (nested step) (nested step') R :=
  h.congr (by rw [nested_run]) (by rw [nested_run])

end

/-! ### Constants -/

theorem content_widens {constant : ValueId → Run Datum} {g : Global}
    (hw : ∀ init ∈ g.initializer, ∀ s, e.Widening s (constant init) fun _ _ => True) :
    e.Widening s (e.content constant g) fun _ _ => True := by
  unfold content
  cases hi : g.initializer with
  | none => exact widening_pure trivial
  | some init => exact hw init hi s

/-- The storage of a global that is not made in the first run is not made in the second one. -/
theorem storage_echoes {constant : ValueId → Run Datum} {g : Global} (hm : e.Mirrors [] σ s t)
    (hw : ∀ init ∈ g.initializer, ∀ s, e.Widening s (constant init) fun _ _ => True)
    (hc : s.globals[v]? = none → t.globals[v]? = none → ∀ row, ∀ init ∈ g.initializer, ∀ τ,
      e.Mirrors [] τ (opened s v row) (opened t v row) →
      Echo excused (opened s v row) (opened t v row) (constant init) (constant init)) :
    Echo excused s t (e.storage constant v g) (e.storage constant v g) := by
  cases hn : s.globals[v]? with
  | some p => exact echo_succeeded (by rw [storage_known hn])
  | none =>
    have hn' : t.globals[v]? = none := by
      by_contra hsome
      obtain ⟨q, hq⟩ := Option.ne_none_iff_exists'.mp hsome
      obtain ⟨p, hp, -⟩ := hm.globals v q hq
      rw [hn] at hp
      cases hp
    by_cases hl : e.module.isListed v
    · cases hrow : s.memory.newRow e.host e.module.types g.valueType 1 false with
      | error fault =>
        have hfails {s : Machine} {fault : Fault} (hn : s.globals[v]? = none)
            (hrow : s.memory.newRow e.host e.module.types g.valueType 1 false = .error fault) :
            ((e.storage constant v g).run.run s).1 = .error fault := by
          rw [storage_run, hn]
          simp only [hl, if_true]
          unfold newStorage
          rw [run_bind, allocate_run, hrow]
        obtain hf | ⟨fault', hrow'⟩ := newRow_refused hrow
        · exact echoes_stopped (hfails hn hrow) (.inl hf)
        · exact echoes_failed (hfails hn' hrow')
      | ok row =>
        have hopened := hm.opened_both hn hrow
        have hcontent : Echo excused (opened s v row) (opened t v row) (e.content constant g)
            (e.content constant g) := by
          unfold content
          cases hi : g.initializer with
          | none => exact echoes_pure trivial
          | some init => exact hc hn hn' row init hi _ hopened
        -- The content decides: its place is there to be filled.
        refine Echoes.congr ?_ (congrArg (·.1) (storage_new hn hl hrow))
          (congrArg (·.1) (storage_new hn' hl (hm.newRow hrow)))
        unfold Echo Echoes at hcontent
        rcases ht : (e.content constant g).run.run (opened t v row) with ⟨fault | d', t'⟩
        · exact echoes_failed (by rw [run_bind, ht])
        · rw [ht] at hcontent
          rcases hs : (e.content constant g).run.run (opened s v row) with ⟨fault | d, s'⟩
          · rw [hs] at hcontent
            exact echoes_stopped (by rw [run_bind, hs]) hcontent
          · have hwide : e.Widens (opened s v row) s' := (content_widens hw d s' hs).1
            obtain ⟨n, -, -, hcells⟩ := Memory.newRow_eq_ok.mp hrow
            have hstore := store_first (d := d) (hwide.rows _ _ (opened_row s v row)) (by rw [hcells])
              (c := e.module.types.zero g.valueType) (by rw [hcells]; rfl)
            refine echo_succeeded (a := { allocation := s.memory.allocations.size }) ?_
            rw [run_bind, hs]
            dsimp only
            rw [run_bind, hstore]
            rfl
    · have hfails : ((e.storage constant v g).run.run t).1 = .error (.removedGlobal v.index) := by
        rw [storage_run, hn']
        simp only [hl, Bool.false_eq_true, if_false]
      exact echoes_failed hfails

theorem constant_echoes (hs : e.module.Sound) (hg : e.module.Grounded)
    (hm : e.Mirrors [] σ s t)
    (hfuel : (e.module.values.size + 1) * e.module.missing t + v.index + 1 ≤ fuel) :
    Echo excused s t (e.constant fuel v) (e.constant fuel v) := by
  induction fuel generalizing σ s t v with
  | zero => omega
  | succ fuel ih =>
    unfold constant
    dsimp only
    cases hk : (e.module.value v).kind with
    | int word => exact echoes_pure trivial
    | float number => exact echoes_pure trivial
    | null => exact echoes_pure trivial
    | bytes data => exact echoes_pure trivial
    | argument f n => exact echoes_throw _
    | instruction i => exact echoes_throw _
    | undef =>
      change Echo excused s t (Run.zero e.host e.module.types (e.module.typeOf v))
        (Run.zero e.host e.module.types (e.module.typeOf v))
      cases ht : t.memory.zero e.host e.module.types (e.module.typeOf v) with
      | error fault => exact echoes_failed ht
      | ok d =>
        obtain ⟨-, -, hz, -⟩ := Memory.zero_eq_ok.mp ht
        cases hroom : s.memory.room e.module.types (e.module.typeOf v) 1 with
        | ok n => exact echo_succeeded (Memory.zero_eq_ok.mpr ⟨n, hroom, hz, rfl⟩)
        | error fault =>
          obtain rfl := Memory.room_eq_error hroom
          have hs : s.memory.zero e.host e.module.types (e.module.typeOf v) =
              .error (.memoryLimit 1 (e.module.types.text (e.module.typeOf v)) s.memory.limit) := by
            rw [Memory.zero, hroom]
            rfl
          exact echoes_stopped hs (.inl rfl)
    | aggregate elements =>
      have hfuel' : ∀ x ∈ elements, ∀ t', e.Widens t t' →
          (e.module.values.size + 1) * e.module.missing t' + x.index + 1 ≤ fuel := fun x hx t' hw => by
        have hless := Nat.mul_le_mul_left (e.module.values.size + 1) (missing_le hw)
        have hindex := hg v elements hk x hx
        omega
      have hwiden (x : ValueId) (t : Machine) : e.Widening t (e.constant fuel x) fun _ _ => True :=
        (e.constant_widens fuel x t).mono fun _ _ _ => trivial
      have hmono (τ υ : Numbering) (d d' : Datum) (hx : τ.Extends υ) (h : d.Mirrors τ.places d') :
        d.Mirrors υ.places d' := h.mono hx.places
      refine (echo_mapM hm hmono hwiden fun x hx τ s' t' _ hm' hw => ⟨?_, ?_⟩).map _ _
      · exact constant_tracks hs hg hm' (hfuel' x hx t' hw)
      · exact ih hm' (hfuel' x hx t' hw)
    | global g =>
      have hv : e.module.values.Has v := has_of_kindOf (by simp [kindOf, hk])
      have hfits := (hs.values v hv).2
      rw [kindOf, hk] at hfits
      refine (storage_echoes hm (fun init _ s => (e.constant_widens fuel init s).mono
        fun _ _ _ => trivial) fun hn hn' row init hi τ hm' => ih hm' ?_).map _ _
      have hless := Nat.mul_le_mul_left (e.module.values.size + 1)
        (Nat.succ_le_of_lt (missing_opened row hv hn'))
      have hindex : init.index < e.module.values.size := (hfits.2.2 init hi).1
      rw [Nat.mul_succ] at hless
      omega

/-! ### Operands -/

section

variable {dead : ValueId → Prop} {frame frame' : Frame}

/-- Values that both runs read alike, now and later, or both fail to read. -/
structure Shares (e : Setting) (excused : Fault → Prop) (σ : Numbering) (frame frame' : Frame)
    (v : ValueId) : Prop where
  follows : e.Follows σ frame frame' v
  echoes : ∀ τ s t, σ.Extends τ → e.Mirrors [] τ s t →
    Echo excused s t (e.operand frame v) (e.operand frame' v)

theorem operand_echoes (hs : e.module.Sound) (hg : e.module.Grounded) (hm : e.Mirrors [] σ s t)
    (hc : frame.Covers frame') (hv : e.module.values.Has v) :
    Echo excused s t (e.operand frame v) (e.operand frame' v) := by
  have found : Echo excused s t (framed frame v) (framed frame' v) := by
    unfold framed
    cases hd : frame[v]? with
    | some d => exact echo_succeeded rfl
    | none =>
      rw [hc v hd]
      exact echoes_throw _
  have hfuel : (e.module.values.size + 1) * e.module.missing t + v.index + 1 ≤
      e.constantDepth := by
    have hless := Nat.mul_le_mul_left (e.module.values.size + 1) (missing_le_size e.module t)
    have hindex : v.index < e.module.values.size := hv
    rw [constantDepth, Nat.mul_succ]
    omega
  unfold operand
  cases e.module.kindOf v with
  | argument f n => exact found
  | instruction i => exact found
  | _ => exact constant_echoes hs hg hm hfuel

theorem shares_of_frames (hs : e.module.Sound) (hg : e.module.Grounded)
    (hf : frame.Mirrors dead σ.places frame') (hc : frame.Covers frame')
    (hv : e.module.values.Has v) (hn : ¬ dead v) : e.Shares excused σ frame frame' v where
  follows := follows_of_frames hs hg hf hv hn
  echoes _ _ _ _ hm := operand_echoes hs hg hm hc hv

namespace Shares

theorem mono (h : e.Shares excused σ frame frame' v) (hx : σ.Extends τ) :
    e.Shares excused τ frame frame' v :=
  ⟨h.follows.mono hx, fun υ s t hx' => h.echoes υ s t (hx.trans hx')⟩

theorem operand (h : e.Shares excused σ frame frame' v) (hm : e.Mirrors [] σ s t) :
    Echo excused s t (e.operand frame v) (e.operand frame' v) :=
  h.echoes σ s t (.refl σ) hm

section

variable {Q : α → β → Prop}

/-- What comes after an operand is read. -/
theorem bind {next : Datum → Run α} {next' : Datum → Run β}
    (h : e.Shares excused σ frame frame' v) (hm : e.Mirrors [] σ s t)
    (hn : ∀ τ d d' s' t', σ.Extends τ → e.Mirrors [] τ s' t' →
      (e.operand frame v).run.run s = (.ok d, s') → d.Mirrors τ.places d' →
      Echoes excused s' t' (next d) (next' d') Q) :
    Echoes excused s t (e.operand frame v >>= next) (e.operand frame' v >>= next') Q :=
  echoes_bind (h.follows.operand hm) (h.operand hm) fun τ d d' s' t' hx hm' hr _ hd _ =>
    hn τ d d' s' t' hx hm' hr hd

/-- What is read off the datum of an operand. -/
theorem read {f : Datum → Except Fault α} {g : Datum → Except Fault β}
    {S : List Nat → β → α → Prop} (h : e.Shares excused σ frame frame' v)
    (hm : e.Mirrors [] σ s t)
    (hr : ∀ τ back d d', σ.Extends τ → Flips τ.places back → d.Mirrors τ.places d' →
      Entails (g d') (f d) (S back)) :
    Echo excused s t (e.operand frame v >>= fun d => Run.ofExcept (f d))
      (e.operand frame' v >>= fun d => Run.ofExcept (g d)) :=
  h.bind hm fun τ d d' _ _ hx hm' _ hd => echo_ofExcept hm' fun back hb =>
    hr τ back d d' hx hb hd

theorem word {next : UInt64 → Run α} {next' : UInt64 → Run β}
    (h : e.Shares excused σ frame frame' v) (hm : e.Mirrors [] σ s t)
    (hn : ∀ τ w s' t', σ.Extends τ → e.Mirrors [] τ s' t' →
      Echoes excused s' t' (next w) (next' w) Q) :
    Echoes excused s t (e.wordOperand frame v >>= next) (e.wordOperand frame' v >>= next') Q :=
  echoes_bind (h.follows.word hm) (h.read hm fun _ _ _ _ _ hb hd => (hd.flip hb).asWord)
    fun τ w _ s' t' hx hm' _ _ he _ => he ▸ hn τ w s' t' hx hm'

theorem signed {next : Int → Run α} {next' : Int → Run β}
    (h : e.Shares excused σ frame frame' v) (hm : e.Mirrors [] σ s t)
    (hn : ∀ τ n s' t', σ.Extends τ → e.Mirrors [] τ s' t' →
      Echoes excused s' t' (next n) (next' n) Q) :
    Echoes excused s t (e.signedOperand frame v >>= next) (e.signedOperand frame' v >>= next') Q :=
  echoes_bind (h.follows.signed hm) (h.read hm fun _ _ _ _ _ hb hd => (hd.flip hb).asSigned)
    fun τ w _ s' t' hx hm' _ _ he _ => he ▸ hn τ w s' t' hx hm'

theorem members {next : List Datum → Run α} {next' : List Datum → Run β}
    (h : e.Shares excused σ frame frame' v) (hm : e.Mirrors [] σ s t)
    (hn : ∀ τ ds ds' s' t', σ.Extends τ → e.Mirrors [] τ s' t' →
      List.Forall₂ (Datum.Mirrors τ.places) ds ds' →
      Echoes excused s' t' (next ds) (next' ds') Q) :
    Echoes excused s t (e.members frame v >>= next) (e.members frame' v >>= next') Q :=
  echoes_bind (h.follows.members hm) (h.read hm fun _ _ _ _ _ hb hd => (hd.flip hb).asMembers)
    fun τ ds ds' s' t' hx hm' _ _ hds _ => hn τ ds ds' s' t' hx hm' hds

/-- Where an operand points to. -/
theorem pointer {next : Option Pointer → Run α} {next' : Option Pointer → Run β}
    (h : e.Shares excused σ frame frame' v) (hm : e.Mirrors [] σ s t)
    (hn : ∀ τ p p' s' t', σ.Extends τ → e.Mirrors [] τ s' t' →
      Option.Rel (Pointer.Mirrors τ.places) p p' → Echoes excused s' t' (next p) (next' p') Q) :
    Echoes excused s t (e.operand frame v >>= fun d => Run.ofExcept d.asPointer >>= next)
      (e.operand frame' v >>= fun d => Run.ofExcept d.asPointer >>= next') Q :=
  h.bind hm fun _ _ _ _ _ hx hm' _ hd =>
    echoes_bind (asPointer_tracks hm' hd) (echo_ofExcept hm' fun _ hb => (hd.flip hb).asPointer)
      fun υ p p' s'' t'' hx' hm'' _ _ hp _ => hn υ p p' s'' t'' (hx.trans hx') hm'' hp

end

end Shares

theorem operands_echo {vs : List ValueId} (h : ∀ v ∈ vs, e.Shares excused σ frame frame' v)
    (hm : e.Mirrors [] σ s t) :
    Echo excused s t (vs.mapM (e.operand frame)) (vs.mapM (e.operand frame')) :=
  echo_mapM hm (fun _ _ _ _ hx hd => hd.mono hx.places) (fun _ _ => operand_widens frame' _)
    fun v hv τ s t hx hm' _ => ⟨(h v hv).follows τ s t hx hm', (h v hv).echoes τ s t hx hm'⟩

theorem derive_echoes {base : ValueId} {indices : List ValueId}
    (hb : e.Shares excused σ frame frame' base)
    (hi : ∀ v ∈ indices, e.Shares excused σ frame frame' v) (hm : e.Mirrors [] σ s t) :
    Echo excused s t (e.derive frame base indices) (e.derive frame' base indices) := by
  unfold derive
  refine hb.pointer hm fun τ target target' s t hx hm hp => ?_
  cases hp with
  | none => exact echoes_throw _
  | @some p q hp =>
    cases indices with
    | nil => exact echoes_pure trivial
    | cons first rest =>
      refine ((hi first (by simp)).mono hx).signed hm fun υ offset s t hy hm => ?_
      refine echoes_bind (P := fun υ => Pointer.Mirrors υ.places)
        (tracks_ofExcept hm (advance_mirrors e.host (hp.mono hy.places) offset))
        (echo_ofExcept hm fun _ hb => advance_mirrors e.host ((hp.mono hy.places).flip hb) offset)
        fun φ p q s t hz hm _ _ hp _ => ?_
      refine (echo_foldlM (P := fun υ p q => σ.Extends υ ∧ Pointer.Mirrors υ.places p q) hm
        ⟨(hx.trans hy).trans hz, hp⟩ fun v hv υ p q s t _ hm hp => ⟨?_, ?_⟩).map _ _
      · refine tracks_bind (((hi v (by simp [hv])).mono hp.1).follows.signed hm)
          fun φ n _ s t hx hm _ _ he => ?_
        subst he
        refine tracks_ofExcept hm fun r hr => ?_
        obtain ⟨r', hr', hm'⟩ := enter_mirrors (hp.2.mono hx.places) n r hr
        exact ⟨r', hr', hp.1.trans hx, hm'⟩
      · refine ((hi v (by simp [hv])).mono hp.1).signed hm fun φ n s t hx hm => ?_
        exact echo_ofExcept hm fun _ hb => enter_mirrors ((hp.2.mono hx.places).flip hb) n

theorem slotCount_echoes {count : Option ValueId}
    (hc : ∀ v ∈ count, e.Shares excused σ frame frame' v) (hm : e.Mirrors [] σ s t) :
    Echo excused s t (e.slotCount frame count) (e.slotCount frame' count) := by
  unfold slotCount
  cases count with
  | none => exact echoes_pure trivial
  | some v =>
    refine (hc v rfl).signed hm fun τ n s t _ hm => ?_
    split
    · exact echoes_failed rfl
    · exact echoes_pure trivial

theorem switchTarget_echoes {word : UInt64} {default : BlockId} {cases : List (ValueId × BlockId)}
    (hc : ∀ c ∈ cases, e.Shares excused σ frame frame' c.1) (hm : e.Mirrors [] σ s t) :
    Echo excused s t (e.switchTarget frame word default cases)
      (e.switchTarget frame' word default cases) := by
  induction cases generalizing σ s t with
  | nil => exact echoes_pure trivial
  | cons c cases ih =>
    obtain ⟨key, dest⟩ := c
    unfold switchTarget
    refine (hc (key, dest) (by simp)).word hm fun τ w s t hx hm => ?_
    split
    · exact echoes_pure trivial
    · exact ih (fun c hc' => (hc c (by simp [hc'])).mono hx) hm

/-! ### Instructions -/

/-- An instruction fails in both runs, provided that it does not compare the order of places and that
the call it may be fails in both. -/
theorem evaluate_echoes {callee callee' : FunctionId → List Datum → Run Datum} {type : TypeId}
    {i : Instruction} (hi : ∀ v ∈ i.operands, e.Shares excused σ frame frame' v)
    (hm : e.Mirrors [] σ s t)
    (hcompare : ∀ pred lhs rhs, i = .icmp pred lhs rhs → ∀ d s',
      (e.operand frame lhs).run.run s = (.ok d, s') →
        pred.isEquality ∨ d.hasPointer = false)
    (hcall : ∀ f args, i = .call f args → ∀ data s',
      (args.mapM (e.operand frame)).run.run s = (.ok data, s') → ∀ τ t' data',
        σ.Extends τ → e.Mirrors [] τ s' t' → List.Forall₂ (Datum.Mirrors τ.places) data data' →
        Echo excused s' t' (callee f data) (callee' f data')) :
    Echo excused s t (e.evaluate callee frame type i) (e.evaluate callee' frame' type i) := by
  unfold evaluate
  cases i with
  | binary op lhs rhs =>
    refine (hi lhs (by simp [Instruction.operands])).bind hm fun τ a a' s t hx hm _ ha => ?_
    exact ((hi rhs (by simp [Instruction.operands])).mono hx).read hm fun _ _ _ _ hy hback hb =>
      Datum.binary_mirrors e.host op ((ha.mono hy.places).flip hback) (hb.flip hback)
  | icmp pred lhs rhs =>
    refine (hi lhs (by simp [Instruction.operands])).bind hm fun τ a a' s t hx hm hr ha => ?_
    have hequality : pred.isEquality ∨ a'.hasPointer = false :=
      (hcompare pred lhs rhs rfl a s hr).imp_right fun hn => ha.eq_of_no_pointer hn ▸ hn
    exact ((hi rhs (by simp [Instruction.operands])).mono hx).read hm fun _ _ _ _ hy hback hb =>
      Datum.icmp_mirrors hback.nodup hequality ((ha.mono hy.places).flip hback) (hb.flip hback)
  | fcmp pred lhs rhs =>
    refine (hi lhs (by simp [Instruction.operands])).bind hm fun τ a a' s t hx hm _ ha => ?_
    exact ((hi rhs (by simp [Instruction.operands])).mono hx).read hm fun _ _ _ _ hy hback hb =>
      Datum.fcmp_mirrors pred ((ha.mono hy.places).flip hback) (hb.flip hback)
  | alloca allocated count =>
    have hcount : ∀ v ∈ count, e.Shares excused σ frame frame' v := fun v hv =>
      hi v (by simpa [Instruction.operands] using hv)
    refine echoes_bind (slotCount_tracks (fun v hv => (hcount v hv).follows) hm)
      (slotCount_echoes hcount hm) fun τ n _ s t _ hm _ _ he _ => ?_
    subst he
    exact (allocate_echoes hm).map _ _
  | load ptr =>
    refine (hi ptr (by simp [Instruction.operands])).pointer hm fun τ p q s t _ hm hp => ?_
    exact load_echoes hm hp
  | store value ptr =>
    refine (hi value (by simp [Instruction.operands])).bind hm fun τ d d' s t hx hm _ hd => ?_
    refine ((hi ptr (by simp [Instruction.operands])).mono hx).pointer hm
      fun υ p q s t hy hm hp => ?_
    exact (store_echoes hm hp (hd.mono hy.places)).map _ _
  | elementPtr base indices =>
    exact derive_echoes (hi base (by simp [Instruction.operands]))
      (fun v hv => hi v (by simp [Instruction.operands, hv])) hm
  | call f args =>
    refine echoes_bind (operands_track (fun v hv => (hi v hv).follows) hm) (operands_echo hi hm)
      fun τ data data' s' t' hx hm' hr _ hd _ => ?_
    exact hcall f args rfl data s' hr τ t' data' hx hm' hd
  | cast op value =>
    exact (hi value (by simp [Instruction.operands])).read hm fun _ _ _ _ _ hback hd =>
      Datum.cast_mirrors (hd.flip hback)
  | extractValue aggregate index =>
    refine (hi aggregate (by simp [Instruction.operands])).members hm
      fun τ ds ds' s t _ hm hds => ?_
    exact echo_ofExcept hm fun _ hback => Datum.pick_mirrors (mirrors_flip hds hback) index
  | insertValue aggregate element index =>
    refine (hi aggregate (by simp [Instruction.operands])).members hm
      fun τ ds ds' s t hx hm hds => ?_
    exact ((hi element (by simp [Instruction.operands])).mono hx).read hm fun _ _ _ _ hy hback hd =>
      Datum.put_mirrors (mirrors_flip (hds.imp fun _ _ h => h.mono hy.places) hback) index
        (hd.flip hback)
  | extractElement vector index =>
    refine (hi vector (by simp [Instruction.operands])).members hm
      fun τ ds ds' s t hx hm hds => ?_
    refine ((hi index (by simp [Instruction.operands])).mono hx).word hm fun υ w s t hy hm => ?_
    have hds := hds.imp fun _ _ h => Datum.Mirrors.mono hy.places h
    exact echo_ofExcept hm fun _ hback => Datum.pick_mirrors (mirrors_flip hds hback) _
  | insertElement vector element index =>
    refine (hi vector (by simp [Instruction.operands])).members hm
      fun τ ds ds' s t hx hm hds => ?_
    refine ((hi element (by simp [Instruction.operands])).mono hx).bind hm
      fun υ d d' s t hy hm _ hd => ?_
    refine ((hi index (by simp [Instruction.operands])).mono (hx.trans hy)).word hm
      fun φ w s t hz hm => ?_
    have hds := hds.imp fun _ _ h => Datum.Mirrors.mono (hy.places.trans hz.places) h
    exact echo_ofExcept hm fun _ hback => Datum.put_mirrors (mirrors_flip hds hback) _
      ((hd.mono hz.places).flip hback)
  | shuffle lhs rhs mask =>
    refine (hi lhs (by simp [Instruction.operands])).members hm fun τ ds ds' s t hx hm hds => ?_
    refine ((hi rhs (by simp [Instruction.operands])).mono hx).members hm
      fun υ es es' s t hy hm hes => ?_
    refine ((hi mask (by simp [Instruction.operands])).mono (hx.trans hy)).members hm
      fun φ ms ms' s t hz hm hms => ?_
    have hds := hds.imp fun _ _ h => Datum.Mirrors.mono (hy.places.trans hz.places) h
    have hes := hes.imp fun _ _ h => Datum.Mirrors.mono hz.places h
    exact echo_ofExcept hm fun _ hback => Datum.shuffle_mirrors (mirrors_flip hds hback)
      (mirrors_flip hes hback) (mirrors_flip hms hback)
  | select cond thenValue elseValue =>
    refine (hi cond (by simp [Instruction.operands])).bind hm fun τ c c' s t hx hm _ hc => ?_
    refine ((hi thenValue (by simp [Instruction.operands])).mono hx).bind hm
      fun υ a a' s t hy hm _ ha => ?_
    exact ((hi elseValue (by simp [Instruction.operands])).mono (hx.trans hy)).read hm
      fun _ _ _ _ hz hback hb => Datum.select_mirrors
        ((hc.mono (hy.places.trans hz.places)).flip hback) ((ha.mono hz.places).flip hback)
        (hb.flip hback)
  | branch _ | condBranch _ _ _ | switch _ _ _ | phi _ | ret _ | unreachable =>
    exact echoes_throw _

end

end Setting
end SsaKit
