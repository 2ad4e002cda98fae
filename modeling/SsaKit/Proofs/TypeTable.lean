import Mathlib.Logic.Relation
import SsaKit.Proofs.Attempt
import SsaKit.Proofs.Indexed

/-! How a table of types grows, and what every table that grew from nothing satisfies. -/
namespace SsaKit.TypeTable

variable {t u w : TypeTable} {id : TypeId} {ty : Ty}

theorem contains_of_isSized (h : t.isSized id) : t.contains id := by
  by_contra hn
  simp [isSized, entry_of_not_contains hn, Ty.isSized] at h

/-! ### Growth -/

/-- The parts of an entry are at hand and have a size where one is needed. -/
def Fits (t : TypeTable) : Ty → Prop
  | .void | .float | .double => True
  | .int bits => 0 < bits ∧ bits ≤ maxIntBits
  | .pointer pointee => t.contains pointee
  | .array element _ => t.isSized element
  | .vector element length =>
    length ≠ 0 ∧ t.kind element ∈ [.integer, .float, .pointer] ∧ t.isSized element
  | .struct _ fields _ => ∀ f ∈ fields.getD [], t.isSized f
  | .function result params _ =>
    t.contains result ∧ t.kind result ≠ .function ∧ ∀ p ∈ params, t.isSized p

/-- One change of a table: a new structural type, a new name, or the body of a named struct. -/
inductive Grows : TypeTable → TypeTable → Prop
  | intern (t : TypeTable) (ty : Ty) : ty.structName = none → ty.isOpaque = false → t.Fits ty →
    t.find? ty = none → Grows t (t.withType ty)
  | declare (t : TypeTable) (name : String) : t.findStruct? name = none →
    Grows t (t.withStruct name)
  | body (t : TypeTable) (id : TypeId) (name : String) (fields : List TypeId)
    (wasPacked isPacked : Bool) : t.entry id = .struct (some name) none wasPacked →
    (∀ f ∈ fields, t.isSized f) →
    Grows t (t.withBody id name fields isPacked)

abbrev Grown : TypeTable → TypeTable → Prop := Relation.ReflTransGen Grows

/-- Entries stay as they are, but for a struct without a body that gets one. -/
structure Extends (t u : TypeTable) : Prop where
  contains : ∀ id, t.contains id → u.contains id
  entry : ∀ id, t.contains id → u.entry id = t.entry id ∨
    ∃ name fields wasPacked isPacked, t.entry id = .struct (some name) none wasPacked ∧
      u.entry id = .struct (some name) (some fields) isPacked

theorem Extends.refl (t : TypeTable) : t.Extends t := ⟨fun _ h => h, fun _ _ => .inl rfl⟩

theorem Extends.trans (h : t.Extends u) (h' : u.Extends w) : t.Extends w where
  contains id hid := h'.contains id (h.contains id hid)
  entry id hid := by
    obtain he | ⟨name, fields, p, q, ht, hu⟩ := h.entry id hid
    · rw [← he]
      exact h'.entry id (h.contains id hid)
    · obtain he' | ⟨_, _, _, _, hu', -⟩ := h'.entry id (h.contains id hid)
      · exact .inr ⟨name, fields, p, q, ht, he'.trans hu⟩
      · simp [hu] at hu'

theorem extends_push (hu : u.entries = t.entries.push ty) : t.Extends u where
  contains _ h := (contains_push hu).mpr (.inl h)
  entry _ h := .inl (entry_push hu h)

theorem entry_withBody {name : String} {fields : List TypeId} {isPacked : Bool}
    (h : t.contains id) (k : TypeId) : (t.withBody id name fields isPacked).entry k =
      if k = id then .struct (some name) (some fields) isPacked else t.entry k := by
  have h := contains_iff.mp h
  obtain ⟨k⟩ := k
  obtain ⟨i⟩ := id
  by_cases hk : k = i
  · simp [entry, withBody, hk, h]
  · simp [entry, withBody, hk, Ne.symm hk]

theorem contains_withBody {name : String} {fields : List TypeId} {isPacked : Bool} {k : TypeId} :
    (t.withBody id name fields isPacked).contains k ↔ t.contains k := by
  simp [contains_iff, withBody]

theorem Grows.extends (h : Grows t u) : t.Extends u := by
  cases h with
  | intern ty _ _ _ _ => exact extends_push entries_withType
  | declare name _ => exact extends_push entries_withStruct
  | body id name fields wasPacked isPacked he _ =>
    have hid : t.contains id := by
      by_contra hn
      simp [entry_of_not_contains hn] at he
    refine ⟨fun k hk => contains_withBody.mpr hk, fun k hk => ?_⟩
    rw [entry_withBody hid]
    by_cases hki : k = id
    · subst hki
      exact .inr ⟨name, fields, wasPacked, isPacked, he, by simp⟩
    · exact .inl (by simp [hki])

/-! ### What growth keeps -/

namespace Extends

variable (h : t.Extends u)
include h

theorem kind_eq (hid : t.contains id) : u.kind id = t.kind id := by
  unfold TypeTable.kind
  obtain he | ⟨_, _, _, _, ht, hu⟩ := h.entry id hid
  · rw [he]
  · rw [ht, hu]
    rfl

/-- An entry that is no struct without a body stays. -/
theorem entry_eq (hid : t.contains id) (ho : (t.entry id).isOpaque = false) :
    u.entry id = t.entry id := by
  obtain he | ⟨_, _, _, _, ht, -⟩ := h.entry id hid
  · exact he
  · simp [ht, Ty.isOpaque] at ho

theorem entry_eq_of_kind (hid : t.contains id) (hk : t.kind id ≠ .struct) :
    u.entry id = t.entry id := by
  refine h.entry_eq hid ?_
  unfold TypeTable.kind at hk
  cases he : t.entry id <;> simp_all [Ty.isOpaque, Ty.kind]

theorem isSized_of (hs : t.isSized id) : u.isSized id := by
  obtain he | ⟨_, _, _, _, ht, -⟩ := h.entry id (contains_of_isSized hs)
  · rwa [TypeTable.isSized, he]
  · simp [TypeTable.isSized, ht, Ty.isSized] at hs

theorem fits (hf : t.Fits ty) : u.Fits ty := by
  cases ty with
  | void | float | double | int => exact hf
  | pointer p => exact h.contains p hf
  | array e n => exact h.isSized_of hf
  | vector e n =>
    obtain ⟨hn, hk, hs⟩ := hf
    exact ⟨hn, by rwa [h.kind_eq (contains_of_isSized hs)], h.isSized_of hs⟩
  | struct name fields p => exact fun f hf' => h.isSized_of (hf f hf')
  | function r ps v =>
    obtain ⟨hr, hk, hp⟩ := hf
    exact ⟨h.contains r hr, by rwa [h.kind_eq hr], fun p hp' => h.isSized_of (hp p hp')⟩

end Extends

theorem extends_of_grown (h : Grown t u) : t.Extends u := by
  induction h with
  | refl => exact .refl t
  | tail _ hs ih => exact ih.trans hs.extends

/-! ### Well-formed tables -/

/-- The sized types can be listed with the parts of each one before it, so none holds itself. -/
structure WellFormed (t : TypeTable) : Prop where
  indexed : t.Indexed
  fits : ∀ id, t.contains id → t.Fits (t.entry id)
  layered : ∃ l : List TypeId, l.Nodup ∧ (∀ id, id ∈ l ↔ t.isSized id) ∧
    ∀ xs id ys, l = xs ++ id :: ys → ∀ p ∈ (t.entry id).parts, p ∈ xs

theorem wellFormed_empty : WellFormed {} where
  indexed := indexed_empty
  fits id h := by simp [contains_iff] at h
  layered := ⟨[], .nil, by simp [isSized, entry, Ty.isSized], by simp⟩

theorem isSized_of_mem_parts (hf : t.Fits ty) {p : TypeId} (hp : p ∈ ty.parts) : t.isSized p := by
  cases ty <;> simp_all [Fits, Ty.parts]

theorem isSized_of_kind (h : t.kind id ∈ [Ty.Kind.integer, .float, .pointer]) : t.isSized id := by
  unfold kind at h
  unfold isSized
  cases he : t.entry id <;> simp_all [Ty.kind, Ty.isSized]

theorem parts_of_not_isSized (h : ty.isSized = false) : ty.parts = [] := by
  cases ty with
  | struct name fields p => cases fields <;> simp_all [Ty.isSized, Ty.parts]
  | _ => simp_all [Ty.isSized, Ty.parts]

theorem WellFormed.push (h : t.WellFormed) (hi : u.Indexed)
    (hu : u.entries = t.entries.push ty) (hf : t.Fits ty) : u.WellFormed := by
  have hx := extends_push hu
  have hnew : ¬ t.contains ⟨t.size⟩ := by simp [contains]
  have hentry : ∀ id, u.isSized id ↔ t.isSized id ∨ (id = ⟨t.size⟩ ∧ ty.isSized) := by
    intro id
    by_cases hid : t.contains id
    · have : id ≠ ⟨t.size⟩ := by rintro rfl; exact hnew hid
      simp [isSized, entry_push hu hid, this]
    · by_cases hs : id = ⟨t.size⟩
      · subst hs
        simp [isSized, entry_push_size hu, entry_of_not_contains hnew, Ty.isSized]
      · have hout : ¬ u.contains id := fun hc => ((contains_push hu).mp hc).elim hid hs
        simp [isSized, entry_of_not_contains hid, entry_of_not_contains hout, Ty.isSized, hs]
  refine ⟨hi, ?_, ?_⟩
  · intro id hid
    obtain hold | rfl := (contains_push hu).mp hid
    · rw [entry_push hu hold]
      exact hx.fits (h.fits id hold)
    · rw [entry_push_size hu]
      exact hx.fits hf
  · obtain ⟨l, hn, hm, hp⟩ := h.layered
    have hold : ∀ xs k ys, l = xs ++ k :: ys → ∀ p ∈ (u.entry k).parts, p ∈ xs := by
      intro xs k ys he
      have hk : t.contains k := contains_of_isSized ((hm k).mp (by simp [he]))
      rw [entry_push hu hk]
      exact hp xs k ys he
    cases hs : ty.isSized with
    | false => exact ⟨l, hn, fun k => by simp [hentry, hm, hs], hold⟩
    | true =>
      have hout : (⟨t.size⟩ : TypeId) ∉ l := fun hl => hnew (contains_of_isSized ((hm _).mp hl))
      refine ⟨l ++ [⟨t.size⟩], hn.append (by simp) (by simpa using hout),
        fun k => by simp [hentry, hm, hs], fun xs k ys he p hpk => ?_⟩
      obtain rfl | ⟨ys, y, rfl⟩ := ys.eq_nil_or_concat'
      · obtain ⟨rfl, hk⟩ := List.append_inj' he rfl
        obtain rfl : ⟨t.size⟩ = k := by simpa using hk
        rw [entry_push_size hu] at hpk
        exact (hm p).mpr (isSized_of_mem_parts hf hpk)
      · rw [← List.cons_append, ← List.append_assoc] at he
        exact hold xs k ys (List.append_inj' he rfl).1 p hpk

theorem WellFormed.body (h : t.WellFormed) {name : String} {fields : List TypeId}
    {wasPacked isPacked : Bool} (he : t.entry id = .struct (some name) none wasPacked)
    (hf : ∀ f ∈ fields, t.isSized f) : (t.withBody id name fields isPacked).WellFormed := by
  have hid : t.contains id := by
    by_contra hn
    simp [entry_of_not_contains hn] at he
  have hx := (Grows.body t id name fields wasPacked isPacked he hf).extends
  have hun : t.isSized id = false := by simp [isSized, he, Ty.isSized]
  have hsized : ∀ k, (t.withBody id name fields isPacked).isSized k ↔ t.isSized k ∨ k = id := by
    intro k
    rw [isSized, entry_withBody hid]
    by_cases hk : k = id <;> simp [hk, Ty.isSized, isSized]
  refine ⟨h.indexed.withBody he, ?_, ?_⟩
  · intro k hk
    rw [entry_withBody hid]
    split
    · exact fun f hf' => hx.isSized_of (hf f (by simpa using hf'))
    · exact hx.fits (h.fits k (contains_withBody.mp hk))
  · obtain ⟨l, hn, hm, hp⟩ := h.layered
    have hout : id ∉ l := fun hl => by simp [(hm id).mp hl] at hun
    refine ⟨l ++ [id], hn.append (by simp) (by simpa using hout),
      fun k => by simp [hsized, hm], fun xs k ys heq p hpk => ?_⟩
    rw [entry_withBody hid] at hpk
    obtain rfl | ⟨ys, y, rfl⟩ := ys.eq_nil_or_concat'
    · obtain ⟨rfl, hk⟩ := List.append_inj' heq rfl
      obtain rfl : id = k := by simpa using hk
      simp only [if_true, Ty.parts, Option.getD_some] at hpk
      exact (hm p).mpr (hf p hpk)
    · rw [← List.cons_append, ← List.append_assoc] at heq
      have hl := (List.append_inj' heq rfl).1
      have hne : k ≠ id := by rintro rfl; exact hout (by simp [hl])
      rw [if_neg hne] at hpk
      exact hp xs k ys hl p hpk

theorem Grows.indexed (hg : Grows t u) (h : t.Indexed) : u.Indexed := by
  cases hg with
  | intern ty hn _ _ hf => exact h.withType hn hf
  | declare name _ => exact h.withStruct name
  | body id name fields wasPacked isPacked he _ => exact h.withBody he

theorem indexed_of_grown (hg : Grown t u) (h : t.Indexed) : u.Indexed := by
  induction hg with
  | refl => exact h
  | tail _ hs ih => exact hs.indexed ih

theorem WellFormed.grows (h : t.WellFormed) (hg : Grows t u) : u.WellFormed := by
  have hi := hg.indexed h.indexed
  cases hg with
  | intern ty _ _ hf _ => exact h.push hi entries_withType hf
  | declare name _ => exact h.push hi entries_withStruct (by simp [Fits])
  | body id name fields wasPacked isPacked he hf => exact h.body he hf

theorem WellFormed.grown (h : t.WellFormed) (hg : Grown t u) : u.WellFormed := by
  induction hg with
  | refl => exact h
  | tail _ hs ih => exact ih.grows hs

/-! ### What the operations of a table do -/

open Attempt

variable {ok : TypeId → TypeTable → Prop} {failed : TypeTable → Prop}

theorem ends_checkFields {fields : List TypeId} {ok : Unit → TypeTable → Prop}
    (h : (∀ f ∈ fields, t.isSized f) → ok () t) (hfailed : failed t) :
    Ends (checkFields fields) t ok failed := by
  unfold checkFields
  simp only [ends_bind, ends_get]
  split
  · simpa using hfailed
  · rename_i hf
    exact h fun f hf' => by simpa using List.find?_eq_none.mp hf f hf'

section Interning

variable (hi : t.Indexed)
include hi

theorem ends_intern (hn : ty.structName = none) (ho : ty.isOpaque = false) (hf : t.Fits ty)
    (h : ∀ id u, Grown t u → u.contains id → u.entry id = ty → ok id u) :
    Ends (intern ty) t ok failed := by
  unfold intern
  rw [ends_bind, ends_get]
  split
  · rename_i id hid
    obtain ⟨hc, he, -⟩ := hi.agrees.found ty id hid
    exact h id t .refl hc he
  · rename_i hid
    simp only [ends_bind, ends_set, ends_pure]
    exact h _ _ (.single (.intern t ty hn ho hf hid))
      ((contains_push entries_withType).mpr (.inr rfl))
      (entry_push_size entries_withType)

theorem ends_void (h : ∀ id u, Grown t u → u.contains id → u.entry id = .void → ok id u) :
    Ends void t ok failed :=
  ends_intern hi rfl rfl trivial h

theorem ends_int {bits : Nat}
    (h : ∀ id u, Grown t u → u.contains id → u.entry id = .int bits → ok id u)
    (hfailed : failed t) : Ends (int bits) t ok failed := by
  unfold int
  dsimp only
  split
  · simpa using hfailed
  · rename_i hb
    exact ends_intern hi rfl rfl (by simp only [Fits]; omega) h

theorem ends_pointer {pointee : TypeId} (hp : t.contains pointee)
    (h : ∀ id u, Grown t u → u.contains id → u.entry id = .pointer pointee → ok id u) :
    Ends (pointer pointee) t ok failed :=
  ends_intern hi rfl rfl hp h

theorem ends_array {element : TypeId} {length : Nat}
    (h : ∀ id u, Grown t u → u.contains id → t.isSized element →
      u.entry id = .array element length → ok id u)
    (hfailed : failed t) : Ends (array element length) t ok failed := by
  unfold array
  simp only [ends_bind, ends_get]
  split
  · rename_i hs
    exact ends_intern hi rfl rfl hs fun id u hg hc he => h id u hg hc hs he
  · simpa using hfailed

theorem ends_vector {element : TypeId} {length : Nat}
    (h : ∀ id u, Grown t u → u.contains id → u.entry id = .vector element length → ok id u)
    (hfailed : failed t) : Ends (vector element length) t ok failed := by
  unfold vector
  simp only [ends_bind, ends_get]
  split
  · simpa using hfailed
  · rename_i hn
    split
    · rename_i hk
      exact ends_intern hi rfl rfl ⟨hn, by simp [hk], isSized_of_kind (by simp [hk])⟩ h
    · rename_i hk
      exact ends_intern hi rfl rfl ⟨hn, by simp [hk], isSized_of_kind (by simp [hk])⟩ h
    · rename_i hk
      exact ends_intern hi rfl rfl ⟨hn, by simp [hk], isSized_of_kind (by simp [hk])⟩ h
    · simpa using hfailed

theorem ends_struct {fields : List TypeId} {isPacked : Bool}
    (h : ∀ id u, Grown t u → u.contains id → u.entry id = .struct none (some fields) isPacked →
      ok id u)
    (hfailed : failed t) : Ends (struct fields isPacked) t ok failed := by
  unfold struct
  rw [ends_bind]
  refine ends_checkFields (fun hf => ?_) hfailed
  exact ends_intern hi rfl rfl (by simpa [Fits] using hf) h

theorem ends_function {result : TypeId} {params : List TypeId} {isVariadic : Bool}
    (hr : t.contains result)
    (h : ∀ id u, Grown t u → u.contains id → u.entry id = .function result params isVariadic →
      ok id u)
    (hfailed : failed t) : Ends (function result params isVariadic) t ok failed := by
  unfold function
  simp only [ends_bind, ends_get]
  split
  · simpa using hfailed
  · rename_i hk
    split
    · simpa using hfailed
    · rename_i hp
      refine ends_intern hi rfl rfl ⟨hr, hk, fun p hp' => ?_⟩ h
      simpa using List.find?_eq_none.mp hp p hp'

theorem ends_ofTy (hc : ∀ c ∈ ty.children, t.contains c)
    (h : ∀ id u, Grown t u → u.contains id → ok id u) (hfailed : failed t) :
    Ends (ofTy ty) t ok failed := by
  cases ty with
  | void => exact ends_intern hi rfl rfl trivial fun id u hg hu _ => h id u hg hu
  | float => exact ends_intern hi rfl rfl trivial fun id u hg hu _ => h id u hg hu
  | double => exact ends_intern hi rfl rfl trivial fun id u hg hu _ => h id u hg hu
  | pointer p =>
    exact ends_intern hi rfl rfl (hc p (by simp [Ty.children])) fun id u hg hu _ => h id u hg hu
  | int bits => exact ends_int hi (fun id u hg hu _ => h id u hg hu) hfailed
  | array e n => exact ends_array hi (fun id u hg hu _ _ => h id u hg hu) hfailed
  | vector e n => exact ends_vector hi (fun id u hg hu _ => h id u hg hu) hfailed
  | struct name fields p =>
    cases name with
    | none => exact ends_struct hi (fun id u hg hu _ => h id u hg hu) hfailed
    | some name => exact hfailed
  | function r ps v =>
    exact ends_function hi (hc r (by simp [Ty.children])) (fun id u hg hu _ => h id u hg hu) hfailed

end Interning

theorem ends_declareStruct {name : String}
    (h : ∀ id u, Grown t u → u.contains id → ok id u) (hfailed : failed t) :
    Ends (declareStruct name) t ok failed := by
  unfold declareStruct
  simp only [ends_bind, ends_get]
  split
  · simpa using hfailed
  · rename_i hn
    simp only [ends_bind, ends_set, ends_pure]
    have hnone : t.findStruct? name = none := by
      simpa [SymbolTable.contains, findStruct?] using hn
    exact h _ _ (.single (.declare t name hnone))
      ((contains_push entries_withStruct).mpr (.inr rfl))

theorem ends_setBody {fields : List TypeId} {isPacked : Bool} {ok : Unit → TypeTable → Prop}
    (h : ∀ u, Grown t u → ok () u) (hfailed : failed t) :
    Ends (setBody id fields isPacked) t ok failed := by
  unfold setBody
  simp only [ends_bind, ends_get]
  split
  · rename_i name body wasPacked he
    split
    · simpa using hfailed
    · rw [ends_bind]
      refine ends_checkFields (fun hf => ?_) hfailed
      split
      · simpa using hfailed
      · rename_i hb
        obtain rfl : body = none := by simpa using hb
        exact h _ (.single (.body t id name fields wasPacked isPacked he hf))
  · simpa using hfailed

theorem ends_namedStruct {name : String} {fields : List TypeId} {isPacked : Bool}
    (h : ∀ id u, Grown t u → u.contains id → ok id u) (hfailed : ∀ u, Grown t u → failed u) :
    Ends (namedStruct name fields isPacked) t ok failed := by
  unfold namedStruct
  simp only [ends_bind, ends_pure]
  refine ends_declareStruct (fun id u hg hu => ?_) (hfailed t .refl)
  exact ends_setBody (fun w hw => h id w (hg.trans hw) ((extends_of_grown hw).contains id hu))
    (hfailed u hg)

end SsaKit.TypeTable
