import SsaKit.Proofs.Acceptance

/-! Each structural type and each name of a struct has one handle, which asking again gives back. -/
namespace SsaKit

namespace TypeTable

open Attempt

variable {t u : TypeTable} {id : TypeId} {ty : Ty} {name : String}

/-- No structural type and no name of a struct stands in two entries. -/
structure Unrepeated (t : TypeTable) : Prop where
  structural : ∀ i j, t.contains i → t.contains j → (t.entry i).structName = none →
    t.entry i = t.entry j → i = j
  named : ∀ i j name, t.contains i → t.contains j → (t.entry i).structName = some name →
    (t.entry j).structName = some name → i = j
  complete : ∀ i, t.contains i → (t.entry i).structName = none → (t.entry i).isOpaque = false

theorem unrepeated_empty : Unrepeated {} where
  structural i _ hi := by simp [contains_iff] at hi
  named i _ _ hi := by simp [contains_iff] at hi
  complete i hi := by simp [contains_iff] at hi

/-- A new entry repeats nothing if it is not found among the old ones. -/
theorem Unrepeated.push (h : t.Unrepeated) (hi : t.Indexed) (hu : u.entries = t.entries.push ty)
    (hty : ty.structName = none → t.find? ty = none)
    (hname : ∀ name, ty.structName = some name → t.findStruct? name = none)
    (ho : ty.structName = none → ty.isOpaque = false) : u.Unrepeated := by
  have hold {k : TypeId} (hk : u.contains k) :
      t.contains k ∧ u.entry k = t.entry k ∨ k = ⟨t.size⟩ ∧ u.entry k = ty := by
    obtain hc | rfl := (contains_push hu).mp hk
    · exact .inl ⟨hc, entry_push hu hc⟩
    · exact .inr ⟨rfl, entry_push_size hu⟩
  have hfresh {k : TypeId} (hk : t.contains k) (hn : ty.structName = none) : t.entry k ≠ ty := by
    rintro rfl
    obtain ⟨j, hj⟩ := hi.agrees.finds k hk hn
    rw [hty hn] at hj
    cases hj
  have hunnamed {k : TypeId} {name : String} (hk : t.contains k)
      (hn : ty.structName = some name) : (t.entry k).structName ≠ some name := by
    intro he
    obtain ⟨j, hj⟩ := hi.agrees.names k name hk he
    rw [hname name hn] at hj
    cases hj
  refine ⟨fun i j hi hj hn he => ?_, fun i j name hi hj hn he => ?_, fun i hi hn => ?_⟩
  · obtain ⟨hi, hie⟩ | ⟨rfl, hie⟩ := hold hi <;> obtain ⟨hj, hje⟩ | ⟨rfl, hje⟩ := hold hj
    · rw [hie, hje] at he
      exact h.structural i j hi hj (hie ▸ hn) he
    · rw [hie, hje] at he
      exact absurd he (hfresh hi (he ▸ hie ▸ hn))
    · rw [hie, hje] at he
      exact absurd he.symm (hfresh hj (hie ▸ hn))
    · rfl
  · obtain ⟨hi, hie⟩ | ⟨rfl, hie⟩ := hold hi <;> obtain ⟨hj, hje⟩ | ⟨rfl, hje⟩ := hold hj
    · exact h.named i j name hi hj (hie ▸ hn) (hje ▸ he)
    · exact absurd (hie ▸ hn) (hunnamed hi (hje ▸ he))
    · exact absurd (hje ▸ he) (hunnamed hj (hie ▸ hn))
    · rfl
  · obtain ⟨hi, hie⟩ | ⟨rfl, hie⟩ := hold hi
    · rw [hie] at hn ⊢
      exact h.complete i hi hn
    · rw [hie] at hn ⊢
      exact ho hn

theorem Unrepeated.grows (h : t.Unrepeated) (hi : t.Indexed) (hg : Grows t u) : u.Unrepeated := by
  cases hg with
  | intern ty hn ho _ hf =>
    exact h.push hi entries_withType (fun _ => hf) (fun name hname => by simp [hn] at hname)
      fun _ => ho
  | declare name hf =>
    refine h.push hi entries_withStruct nofun (fun name' hname => ?_) nofun
    obtain rfl : name = name' := by simpa [Ty.structName] using hname
    exact hf
  | body id name fields wasPacked isPacked he _ =>
    have hid : t.contains id := by
      by_contra hn
      simp [entry_of_not_contains hn] at he
    -- a body changes nothing about the names
    have hname (k : TypeId) : ((t.withBody id name fields isPacked).entry k).structName =
        (t.entry k).structName := by
      rw [entry_withBody hid]
      split
      · rename_i hk
        rw [hk, he]
        rfl
      · rfl
    have hother {k : TypeId} (hk : (t.entry k).structName = none) :
        (t.withBody id name fields isPacked).entry k = t.entry k := by
      rw [entry_withBody hid, if_neg]
      rintro rfl
      simp [he, Ty.structName] at hk
    have hin {k : TypeId} (hk : (t.withBody id name fields isPacked).contains k) : t.contains k :=
      contains_withBody.mp hk
    refine ⟨fun i j hi hj hn hij => ?_, fun i j name hi hj hn hij => ?_, fun i hi hn => ?_⟩
    · have hni : (t.entry i).structName = none := hname i ▸ hn
      have hnj : (t.entry j).structName = none := by rw [← hname j, ← hij]; exact hn
      rw [hother hni, hother hnj] at hij
      exact h.structural i j (hin hi) (hin hj) hni hij
    · exact h.named i j name (hin hi) (hin hj) (hname i ▸ hn) (hname j ▸ hij)
    · have hni : (t.entry i).structName = none := hname i ▸ hn
      rw [hother hni]
      exact h.complete i (hin hi) hni

theorem Unrepeated.grown (h : t.Unrepeated) (hi : t.Indexed) (hg : Grown t u) :
    u.Unrepeated := by
  induction hg with
  | refl => exact h
  | tail hg hs ih => exact ih.grows (indexed_of_grown hg hi) hs

/-! ### Asking again -/

theorem ends_intern_known (hid : t.find? ty = some id) :
    Ends (intern ty) t (fun k u => k = id ∧ u = t) fun _ => False := by
  unfold intern
  simp only [ends_bind, ends_get, hid, ends_pure, and_self]

theorem ends_checkFields_known {fields : List TypeId} (h : ∀ f ∈ fields, t.isSized f) :
    Ends (checkFields fields) t (fun _ u => u = t) fun _ => False := by
  unfold checkFields
  simp only [ends_bind, ends_get]
  split
  · rename_i bad hbad
    have hsized := h bad (List.mem_of_find?_eq_some hbad)
    have hunsized := List.find?_some hbad
    simp [hsized] at hunsized
  · simp

theorem ends_ofTy_known (hn : ty.structName = none) (ho : ty.isOpaque = false) (hf : t.Fits ty)
    (hid : t.find? ty = some id) :
    Ends (ofTy ty) t (fun k u => k = id ∧ u = t) fun _ => False := by
  have hknown := ends_intern_known hid
  cases ty with
  | void | float | double | pointer _ => exact hknown
  | int bits =>
    obtain ⟨hpos, hwide⟩ := hf
    show Ends (int bits) t _ _
    unfold int
    rw [if_neg (by omega)]
    exact hknown
  | array element length =>
    show Ends (array element length) t _ _
    unfold array
    simp only [ends_bind, ends_get]
    rw [if_pos (show t.isSized element from hf)]
    exact hknown
  | vector element length =>
    obtain ⟨hlength, hkind, -⟩ := hf
    show Ends (vector element length) t _ _
    unfold vector
    simp only [ends_bind, ends_get]
    rw [if_neg hlength]
    split
    · exact hknown
    · exact hknown
    · exact hknown
    · simp_all
  | struct name fields isPacked =>
    cases name with
    | some _ => cases hn
    | none =>
      cases fields with
      | none => cases ho
      | some fields =>
        show Ends (struct fields isPacked) t _ _
        unfold struct
        rw [ends_bind]
        refine (ends_checkFields_known hf).mono (fun _ u hu => ?_) fun _ hu => hu
        rw [hu]
        exact hknown
  | function result params isVariadic =>
    obtain ⟨-, hkind, hparams⟩ := hf
    show Ends (function result params isVariadic) t _ _
    unfold function
    simp only [ends_bind, ends_get]
    rw [if_neg hkind]
    split
    · rename_i bad hbad
      have hunsized := List.find?_some hbad
      simp [hparams bad (List.mem_of_find?_eq_some hbad)] at hunsized
    · exact hknown

/-- The entries of a table can be found again, each under its own handle. -/
structure Canonical (t : TypeTable) : Prop where
  find : ∀ ty id, ty.structName = none →
    (t.find? ty = some id ↔ t.contains id ∧ t.entry id = ty)
  findStruct : ∀ name id,
    t.findStruct? name = some id ↔ t.contains id ∧ (t.entry id).structName = some name
  /-- Asking for a type that is there gives its handle, now and after any growth. -/
  ask : ∀ u, Grown t u → ∀ id, t.contains id → (t.entry id).structName = none →
    (ofTy (t.entry id)).outcome u = (.ok id, u)

theorem Unrepeated.find?_iff (h : t.Unrepeated) (hi : t.Indexed) :
    t.find? ty = some id ↔ t.contains id ∧ t.entry id = ty ∧ ty.structName = none := by
  refine ⟨hi.agrees.found ty id, ?_⟩
  rintro ⟨hid, rfl, hn⟩
  obtain ⟨k, hk⟩ := hi.agrees.finds id hid hn
  obtain ⟨hkin, hke, -⟩ := hi.agrees.found _ k hk
  rw [hk, h.structural k id hkin hid (hke ▸ hn) hke]

theorem Unrepeated.findStruct?_iff (h : t.Unrepeated) (hi : t.Indexed) :
    t.findStruct? name = some id ↔ t.contains id ∧ (t.entry id).structName = some name := by
  refine ⟨hi.agrees.named name id, fun ⟨hid, hn⟩ => ?_⟩
  obtain ⟨k, hk⟩ := hi.agrees.names id name hid hn
  obtain ⟨hkin, hkn⟩ := hi.agrees.named name k hk
  rw [hk, h.named k id name hkin hid hkn hn]

theorem Unrepeated.canonical (h : t.Unrepeated) (hw : t.WellFormed) : t.Canonical where
  find _ _ hn := (h.find?_iff hw.indexed).trans
    ⟨fun ⟨hid, he, _⟩ => ⟨hid, he⟩, fun ⟨hid, he⟩ => ⟨hid, he, hn⟩⟩
  findStruct _ _ := h.findStruct?_iff hw.indexed
  ask u hg id hid hn := by
    have hx := extends_of_grown hg
    have ho := h.complete id hid hn
    have he : u.entry id = t.entry id := hx.entry_eq hid ho
    have hin := hx.contains id hid
    have hfind := ((h.grown hw.indexed hg).find?_iff (hw.grown hg).indexed).mpr ⟨hin, he, hn⟩
    have hfits := he ▸ (hw.grown hg).fits id hin
    obtain ⟨k, w, hasked, rfl, rfl⟩ := (ends_ofTy_known hn ho hfits hfind).exists_ok
    exact hasked

end TypeTable

/-! ### Tables of modules -/

namespace Module

variable {m m' : Module}

theorem Change.types_grown (hc : Change m m') : TypeTable.Grown m.types m'.types := by
  obtain hq | hm := hc
  · obtain he | hg := hq.types
    · rw [he]
    · exact .single hg
  · cases hm <;> exact .refl

theorem Changed.types_grown (hc : Changed m m') : TypeTable.Grown m.types m'.types := by
  induction hc with
  | refl => exact .refl
  | tail _ hs ih => exact ih.trans (Change.types_grown hs)

end Module

namespace Builder

open SsaKit.Module

variable {s : Builder}

/-- However a module was made by calls and passes, its table grew from nothing. -/
theorem Attained.types_grown (h : s.Attained) : TypeTable.Grown {} s.module.types := by
  obtain ⟨name, hc⟩ := h.changed
  exact Changed.types_grown hc

/-- Each of its types is found under one handle. -/
theorem Attained.canonical (h : s.Attained) : s.module.types.Canonical :=
  (TypeTable.unrepeated_empty.grown TypeTable.indexed_empty h.types_grown).canonical
    h.sturdy.healthy.sound.types

end Builder
end SsaKit
