import SsaKit.Proofs.Change
import SsaKit.Proofs.Word

/-! What the makers of constants do: a type or two, then the constant, or nothing but types. -/
namespace SsaKit.Module

open Attempt

variable {m m' : Module} {type element : TypeId} {v : ValueId} {elements : List ValueId}
  {ok : ValueId → Module → Prop} {failed : Module → Prop}

theorem prepared_types {t : TypeTable} (h : m.types.Grown t) :
    Prepared m { m with types := t } := by
  induction h with
  | refl => exact .refl
  | tail _ hs ih => exact ih.tail (.types _ _ hs)

theorem ends_onTypes {α : Type} {step : Attempt TypeTable α} {ok : α → Module → Prop} :
    Ends (Edit.onTypes step) m ok failed ↔ Ends step m.types
      (fun a t => ok a { m with types := t }) (fun t => failed { m with types := t }) :=
  ends_onPart _ _ _

theorem ends_expectKind {kind : Ty.Kind} {what : String} {ok : Unit → Module → Prop}
    (h : m.types.kind type = kind → ok () m) (hfailed : failed m) :
    Ends (expectKind type kind what) m ok failed := by
  unfold expectKind
  simp only [ends_bind, ends_get]
  split
  · rename_i hk
    exact h hk
  · exact hfailed

theorem has_pushed_new (m : Module) (type : TypeId) (kind : ValueKind) :
    (m.pushed type kind).values.Has ⟨m.values.size⟩ :=
  has_pushed.mpr (.inr rfl)

theorem typeOf_pushed_new (m : Module) (type : TypeId) (kind : ValueKind) :
    (m.pushed type kind).typeOf ⟨m.values.size⟩ = type := by
  rw [typeOf, value_pushed_new]

/-- A constant that fits its type is made. -/
theorem ends_pushConstant {kind : ValueKind} (hk : kind.isConstant) (hg : kind.global? = none)
    (hc : m.types.contains type) (hf : m.KindFits type kind)
    (h : ∀ v m', Prepared m m' → m'.values.Has v → m'.typeOf v = type → ok v m') :
    Ends (Edit.pushValue type kind) m ok failed :=
  h _ _ (.single (.constant m type kind hk hg hc hf)) (has_pushed_new m type kind)
    (typeOf_pushed_new m type kind)

theorem ends_constWord {word : UInt64}
    (h : ∀ v m', Prepared m m' → m'.values.Has v → m'.typeOf v = type → ok v m')
    (hfailed : failed m) : Ends (constWord type word) m ok failed := by
  unfold constWord
  simp only [ends_bind, ends_get]
  refine ends_expectKind (fun hk => ?_) hfailed
  obtain ⟨bits, he⟩ : ∃ bits, m.types.entry type = .int bits := by
    unfold TypeTable.kind at hk
    cases he : m.types.entry type <;> simp_all [Ty.kind]
  have hw : m.types.intWidth type = some bits := by simp [TypeTable.intWidth, he, Ty.intWidth]
  simp only [hw, Option.getD_some]
  split
  · exact hfailed
  · rename_i hb
    refine ends_pushConstant rfl rfl (TypeTable.contains_of_kind hk (by simp)) ?_ h
    exact ⟨bits, Nat.le_of_not_lt hb, he, Word.mask_mask bits word⟩

theorem ends_constBool {b : Bool} (hi : m.types.Indexed)
    (h : ∀ v m', Prepared m m' → m'.values.Has v → ok v m') :
    Ends (constBool b) m ok failed := by
  unfold constBool
  rw [ends_bind, ends_onTypes]
  refine TypeTable.ends_intern hi rfl rfl ⟨by decide, by decide⟩ fun id t hg hc he => ?_
  refine ends_pushConstant rfl rfl hc ⟨1, by decide, he, by cases b <;> rfl⟩ ?_
  exact fun v m' hp hv _ => h v m' ((prepared_types hg).trans hp) hv

theorem ends_constFloat {number : Double}
    (h : ∀ v m', Prepared m m' → m'.values.Has v → m'.typeOf v = type → ok v m')
    (hfailed : failed m) : Ends (constFloat type number) m ok failed := by
  unfold constFloat
  simp only [ends_bind, ends_get]
  refine ends_expectKind (fun hk => ?_) hfailed
  exact ends_pushConstant rfl rfl (TypeTable.contains_of_kind hk (by simp)) hk h

theorem ends_constNull (h : ∀ v m', Prepared m m' → m'.values.Has v → ok v m')
    (hfailed : failed m) : Ends (constNull type) m ok failed := by
  unfold constNull
  rw [ends_bind]
  refine ends_expectKind (fun hk => ?_) hfailed
  exact ends_pushConstant rfl rfl (TypeTable.contains_of_kind hk (by simp)) hk
    fun v m' hp hv _ => h v m' hp hv

theorem ends_undef (h : ∀ v m', Prepared m m' → m'.values.Has v → ok v m')
    (hfailed : failed m) : Ends (undef type) m ok failed := by
  unfold undef
  simp only [ends_bind, ends_get]
  split
  · rename_i hs
    exact ends_pushConstant rfl rfl (TypeTable.contains_of_isSized hs) hs
      fun v m' hp hv _ => h v m' hp hv
  · exact hfailed

/-! ### Aggregates -/

theorem map_typeOf_eq {expected : List TypeId} (hl : expected.length = elements.length)
    (h : ∀ p ∈ expected.zip elements, m.typeOf p.2 = p.1) : elements.map m.typeOf = expected := by
  induction expected generalizing elements with
  | nil => simp [List.length_eq_zero_iff.mp hl.symm]
  | cons type expected ih =>
    cases elements with
    | nil => simp at hl
    | cons v elements =>
      simp only [List.zip_cons_cons, List.mem_cons, forall_eq_or_imp] at h
      simp [h.1, ih (by simpa using hl) h.2]

theorem ends_checkElements {expected : List TypeId} {ok : Unit → Module → Prop}
    (h : (∀ v ∈ elements, m.isConstant v) → elements.map m.typeOf = expected → ok () m)
    (hfailed : failed m) : Ends (checkElements expected elements) m ok failed := by
  unfold checkElements
  simp only [ends_bind, ends_get]
  split
  · rename_i hl
    refine ends_forM_check (P := fun p => m.isConstant p.2 ∧ m.typeOf p.2 = p.1)
      (fun p _ => ?_) (fun hp => ?_) hfailed
    · obtain ⟨want, v⟩ := p
      dsimp only
      split
      · rename_i hc
        split
        · rename_i ht
          exact ⟨rfl, hc, ht⟩
        · exact rfl
      · exact rfl
    · refine h (fun v hv => ?_) (map_typeOf_eq hl fun p hp' => (hp p hp').2)
      obtain ⟨i, hi, rfl⟩ := List.getElem_of_mem hv
      have hi' : i < expected.length := hl ▸ hi
      have hz : (expected[i], elements[i]) ∈ expected.zip elements := by
        rw [← List.getElem_zip (h := by simpa [hl] using hi)]
        exact List.getElem_mem _
      exact (hp _ hz).1
  · exact hfailed

/-- Checked elements make up an aggregate of a type with these members. -/
theorem ends_aggregate {expected : List TypeId} (he : ∀ v ∈ elements, m.values.Has v)
    (hm : (m.types.entry type).members = some expected)
    (h : ∀ v m', Prepared m m' → m'.values.Has v → ok v m') (hfailed : failed m) :
    Ends (checkElements expected elements >>= fun _ => Edit.pushValue type (.aggregate elements))
      m ok failed := by
  rw [ends_bind]
  refine ends_checkElements (fun hc ht => ?_) hfailed
  refine ends_pushConstant rfl rfl ?_ ⟨fun v hv => ⟨he v hv, hc v hv⟩, by rw [hm, ht]⟩
    fun v m' hp hv _ => h v m' hp hv
  by_contra hn
  simp [TypeTable.entry_of_not_contains hn, Ty.members] at hm

theorem ends_constArray (hi : m.types.Indexed) (he : ∀ v ∈ elements, m.values.Has v)
    (h : ∀ v m', Prepared m m' → m'.values.Has v → ok v m')
    (hfailed : ∀ m', Prepared m m' → failed m') :
    Ends (constArray element elements) m ok failed := by
  unfold constArray
  rw [ends_bind, ends_onTypes]
  refine TypeTable.ends_array hi (fun id t hg hc _ hid => ?_) (hfailed m .refl)
  have hp := prepared_types hg
  refine ends_aggregate (m := { m with types := t }) he ?_
    (fun v m' hp' hv => h v m' (hp.trans hp') hv) (hfailed _ hp)
  simp [hid, Ty.members, List.map_const']

theorem ends_constVector (he : ∀ v ∈ elements, m.values.Has v)
    (h : ∀ v m', Prepared m m' → m'.values.Has v → ok v m') (hfailed : failed m) :
    Ends (constVector type elements) m ok failed := by
  unfold constVector
  simp only [ends_bind, ends_get]
  refine ends_expectKind (fun hk => ?_) hfailed
  obtain ⟨element, n, hid⟩ : ∃ element n, m.types.entry type = .vector element n := by
    unfold TypeTable.kind at hk
    cases hid : m.types.entry type <;> simp_all [Ty.kind]
  simp only [hid, Ty.length, Ty.element, Option.getD_some]
  split
  · rename_i hl
    refine ends_aggregate he ?_ h hfailed
    simp [hid, Ty.members, List.map_const', hl]
  · exact hfailed

theorem ends_constStruct {isPacked : Bool} (hi : m.types.Indexed)
    (he : ∀ v ∈ elements, m.values.Has v)
    (h : ∀ v m', Prepared m m' → m'.values.Has v → ok v m') (hfailed : failed m) :
    Ends (constStruct elements isPacked) m ok failed := by
  unfold constStruct
  simp only [ends_bind, ends_get]
  split
  · exact hfailed
  · rename_i hc
    rw [ends_bind, ends_onTypes]
    refine TypeTable.ends_struct hi (fun id t hg hid hs => ?_) hfailed
    have hc : ∀ v ∈ elements, m.isConstant v := by simpa using List.find?_eq_none.mp hc
    refine ends_pushConstant (m := { m with types := t }) rfl rfl hid
      ⟨fun v hv => ⟨he v hv, hc v hv⟩, by simp only [hs]; rfl⟩ fun v m' hp hv _ => ?_
    exact h v m' ((prepared_types hg).trans hp) hv

theorem ends_constNamedStruct (he : ∀ v ∈ elements, m.values.Has v)
    (h : ∀ v m', Prepared m m' → m'.values.Has v → ok v m') (hfailed : failed m) :
    Ends (constNamedStruct type elements) m ok failed := by
  unfold constNamedStruct
  simp only [ends_bind, ends_get]
  refine ends_expectKind (fun hk => ?_) hfailed
  split
  · exact hfailed
  · rename_i ho
    obtain ⟨name, fields, p, hid⟩ :
        ∃ name fields p, m.types.entry type = .struct name (some fields) p := by
      unfold TypeTable.kind at hk
      cases hid : m.types.entry type with
      | struct name fields p => cases fields <;> simp_all [Ty.isOpaque]
      | _ => simp_all [Ty.kind]
    refine ends_aggregate he ?_ h hfailed
    simp [hid, Ty.members, Ty.fields]

theorem ends_constString {text : String} {isTerminated : Bool} (hi : m.types.Indexed)
    (h : ∀ v m', Prepared m m' → m'.values.Has v → ok v m')
    (hfailed : ∀ m', Prepared m m' → failed m') :
    Ends (constString text isTerminated) m ok failed := by
  unfold constString
  dsimp only
  rw [ends_bind, ends_onTypes]
  refine TypeTable.ends_intern hi rfl rfl ⟨by decide, by decide⟩ fun byte t hg hb hbyte => ?_
  rw [ends_bind, ends_onTypes]
  have hp := prepared_types hg
  refine TypeTable.ends_array (TypeTable.indexed_of_grown hg hi) (fun id u hu hid _ he => ?_) (hfailed _ hp)
  have hp := hp.trans (prepared_types (m := { m with types := t }) hu)
  refine ends_pushConstant (m := { m with types := u }) rfl rfl hid ⟨byte, he, ?_⟩
    fun v m' hp' hv _ => h v m' (hp.trans hp') hv
  exact (TypeTable.extends_of_grown hu).entry_of hbyte (by simp) rfl

end SsaKit.Module
