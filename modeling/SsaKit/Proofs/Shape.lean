import SsaKit.Machine.Datum
import SsaKit.Proofs.Typing
import SsaKit.Proofs.Word

/-! The shape that a type gives to its run-time values. -/
namespace SsaKit

namespace TypeTable

variable {t : TypeTable} {id : TypeId} {ids : List TypeId} {d : Datum} {ds : List Datum}
  {bits n index : Nat}

mutual

/-- A value of the shape of a type: an integer of its width, a float, a pointer, or an aggregate of
one well-shaped member for every member of the type. -/
def Shape (t : TypeTable) : TypeId → Datum → Prop
  | id, .int bits word => t.entry id = .int bits ∧ (bits ≤ 64 → word.toNat < 2 ^ bits)
  | id, .single _ => t.entry id = .float
  | id, .double _ => t.entry id = .double
  | id, .pointer _ => t.kind id = .pointer
  | id, .aggregate members => ∃ ids, (t.entry id).members = some ids ∧ Shapes t ids members
  | id, .void => t.entry id = .void

def Shapes (t : TypeTable) : List TypeId → List Datum → Prop
  | [], [] => True
  | id :: ids, d :: ds => Shape t id d ∧ Shapes t ids ds
  | _, _ => False

end

theorem shapes_iff : t.Shapes ids ds ↔ List.Forall₂ t.Shape ids ds := by
  induction ids generalizing ds with
  | nil => cases ds <;> simp [Shapes]
  | cons id ids ih => cases ds <;> simp [Shapes, ih]

theorem shape_aggregate : t.Shape id (.aggregate ds) ↔
    ∃ ids, (t.entry id).members = some ids ∧ List.Forall₂ t.Shape ids ds := by
  simp only [Shape, shapes_iff]

/-! ### What the type says about the value -/

theorem Shape.int (h : t.Shape id d) (he : t.entry id = .int bits) :
    ∃ word, d = .int bits word ∧ (bits ≤ 64 → word.toNat < 2 ^ bits) := by
  cases d with
  | int k word =>
    obtain ⟨hk, hw⟩ := h
    obtain rfl : bits = k := by simpa [he] using hk
    exact ⟨word, rfl, hw⟩
  | pointer p => simp [Shape, kind, he, Ty.kind] at h
  | _ => simp [Shape, he, Ty.members] at h

theorem Shape.integer (h : t.Shape id d) (hk : t.kind id = .integer) :
    ∃ bits word, t.entry id = .int bits ∧ d = .int bits word ∧
      (bits ≤ 64 → word.toNat < 2 ^ bits) := by
  cases he : t.entry id with
  | int bits =>
    obtain ⟨word, rfl, hw⟩ := h.int he
    exact ⟨bits, word, rfl, rfl, hw⟩
  | _ => simp [kind, he, Ty.kind] at hk

theorem Shape.float (h : t.Shape id d) (hk : t.kind id = .float) :
    (t.entry id = .float ∧ ∃ x, d = .single x) ∨ (t.entry id = .double ∧ ∃ x, d = .double x) := by
  cases d with
  | single x => exact .inl ⟨h, x, rfl⟩
  | double x => exact .inr ⟨h, x, rfl⟩
  | int k word => simp [kind, h.1, Ty.kind] at hk
  | pointer p => simp [Shape, hk] at h
  | aggregate members =>
    obtain ⟨ids, hm, -⟩ := h
    cases he : t.entry id <;> simp_all [kind, Ty.kind, Ty.members]
  | void =>
    have he : t.entry id = .void := h
    simp [kind, he, Ty.kind] at hk

theorem Shape.pointer (h : t.Shape id d) (hk : t.kind id = .pointer) : ∃ p, d = .pointer p := by
  cases d with
  | pointer p => exact ⟨p, rfl⟩
  | int k word => simp [kind, h.1, Ty.kind] at hk
  | aggregate members =>
    obtain ⟨ids, hm, -⟩ := h
    cases he : t.entry id <;> simp_all [kind, Ty.kind, Ty.members]
  | _ => simp_all [Shape, kind, Ty.kind]

theorem Shape.members (h : t.Shape id d) (hm : (t.entry id).members = some ids) :
    ∃ ds, d = .aggregate ds ∧ List.Forall₂ t.Shape ids ds := by
  cases d with
  | aggregate ds =>
    obtain ⟨ids', hm', hs⟩ := shape_aggregate.mp h
    obtain rfl : ids = ids' := Option.some_inj.mp (hm.symm.trans hm')
    exact ⟨ds, rfl, hs⟩
  | int k word => simp [h.1, Ty.members] at hm
  | pointer p => cases he : t.entry id <;> simp_all [Shape, kind, Ty.kind, Ty.members]
  | _ => simp_all [Shape, Ty.members]

/-- Well-shaped values that are closed under putting aggregates together and taking them apart. -/
structure Memberwise (t : TypeTable) (P : TypeId → Datum → Prop) : Prop where
  shape : ∀ {id d}, P id d → t.Shape id d
  aggregate : ∀ {id ds}, P id (.aggregate ds) ↔
    ∃ ids, (t.entry id).members = some ids ∧ List.Forall₂ P ids ds

theorem memberwise_shape : t.Memberwise t.Shape := ⟨id, shape_aggregate⟩

theorem Memberwise.members {P : TypeId → Datum → Prop} (hP : t.Memberwise P) (h : P id d)
    (hm : (t.entry id).members = some ids) : ∃ ds, d = .aggregate ds ∧ List.Forall₂ P ids ds := by
  obtain ⟨ds, rfl, -⟩ := (hP.shape h).members hm
  obtain ⟨ids', hm', hs⟩ := hP.aggregate.mp h
  obtain rfl : ids = ids' := Option.some_inj.mp (hm.symm.trans hm')
  exact ⟨ds, rfl, hs⟩

/-- A value of a type without members is no aggregate. -/
theorem Shape.scalar (h : t.Shape id d) (hm : (t.entry id).members = none) :
    ∀ ds, d ≠ .aggregate ds := by
  rintro ds rfl
  obtain ⟨ids, hm', -⟩ := h
  simp [hm] at hm'

theorem members_of_member? {ty : Ty} (h : ty.member? index = some id) :
    ∃ ids, ty.members = some ids ∧ ids[index]? = some id := by
  cases ty with
  | array element length =>
    obtain ⟨hlt, rfl⟩ : index < length ∧ element = id := by simpa [Ty.member?] using h
    exact ⟨_, rfl, by simp [hlt]⟩
  | struct name fields isPacked =>
    cases fields with
    | none => simp [Ty.member?] at h
    | some fields => exact ⟨fields, rfl, h⟩
  | _ => cases h

theorem forall₂_replicate {α β : Type} {P : α → β → Prop} {a : α} {bs : List β} :
    List.Forall₂ P (List.replicate n a) bs ↔ bs.length = n ∧ ∀ b ∈ bs, P a b := by
  induction n generalizing bs with
  | zero => cases bs <;> simp
  | succ n ih =>
    cases bs with
    | nil => simp
    | cons b bs =>
      simp only [List.replicate_succ, List.forall₂_cons, ih, List.length_cons, Nat.succ_inj,
        List.forall_mem_cons]
      tauto

/-- The lanes of a vector, or the elements of an array. -/
theorem Memberwise.lanes {P : TypeId → Datum → Prop} (hP : t.Memberwise P) {e : TypeId}
    (hm : (t.entry id).members = some (List.replicate n e)) :
    P id (.aggregate ds) ↔ ds.length = n ∧ ∀ d ∈ ds, P e d := by
  rw [hP.aggregate, hm]
  simp [forall₂_replicate]

theorem shape_lanes {e : TypeId} (hm : (t.entry id).members = some (List.replicate n e)) :
    t.Shape id (.aggregate ds) ↔ ds.length = n ∧ ∀ d ∈ ds, t.Shape e d :=
  memberwise_shape.lanes hm

theorem shape_word {word : UInt64} (he : t.entry id = .int bits)
    (hw : Word.mask bits word = word) : t.Shape id (.int bits word) :=
  ⟨he, fun hb => hw ▸ Word.toNat_mask_lt hb⟩

theorem shape_masked {word : UInt64} (he : t.entry id = .int bits) :
    t.Shape id (.int bits (Word.mask bits word)) :=
  shape_word he (Word.mask_mask bits word)

theorem shape_truth (he : t.entry id = .int 1) (b : Bool) : t.Shape id (.ofBool b) := by
  refine ⟨he, fun _ => ?_⟩
  cases b <;> decide

/-! ### Zeros -/

theorem shape_build {l : List TypeId}
    (hsized : ∀ id, id ∈ l ↔ t.isSized id)
    (hparts : ∀ xs id ys, l = xs ++ id :: ys → ∀ p ∈ (t.entry id).parts, p ∈ xs) :
    ∀ (fuel : Nat) (xs : List TypeId) (id : TypeId) (ys : List TypeId), l = xs ++ id :: ys →
      xs.length < fuel → t.Shape id (zero.build t fuel id) := by
  intro fuel
  induction fuel with
  | zero =>
    intro xs id ys hl hlt
    omega
  | succ fuel ih =>
    intro xs id ys hl hlt
    have below : ∀ p ∈ (t.entry id).parts, t.Shape p (zero.build t fuel p) := by
      intro p hp
      obtain ⟨us, vs, rfl⟩ := List.append_of_mem (hparts xs id ys hl p hp)
      have hshort : us.length < fuel := by
        simp only [List.length_append, List.length_cons] at hlt
        omega
      exact ih us p (vs ++ id :: ys) (by simp [hl]) hshort
    have hs : t.isSized id := (hsized id).mp (by simp [hl])
    rw [zero.build]
    cases he : t.entry id with
    | int bits =>
      refine ⟨he, fun _ => ?_⟩
      exact Nat.two_pow_pos bits
    | float | double => exact he
    | pointer p => simp [Shape, kind, he, Ty.kind]
    | array e n | vector e n =>
      refine (shape_lanes (n := n) (e := e) (by simp [he, Ty.members])).mpr ⟨by simp, ?_⟩
      intro d hd
      rw [List.eq_of_mem_replicate hd]
      exact below e (by simp [he, Ty.parts])
    | struct name fields isPacked =>
      cases fields with
      | none => simp [isSized, he, Ty.isSized] at hs
      | some fields =>
        refine shape_aggregate.mpr ⟨fields, by simp [he, Ty.members], ?_⟩
        rw [List.forall₂_map_right_iff, List.forall₂_same]
        exact fun p hp => below p (by simp [he, Ty.parts, hp])
    | void | function _ _ _ => simp [isSized, he, Ty.isSized] at hs

/-- There are no more sized types than types. -/
theorem length_sized_le {l : List TypeId} (hn : l.Nodup) (hsized : ∀ id ∈ l, t.isSized id) :
    l.length ≤ t.size := by
  have hrange : (l.map Handle.index) ⊆ List.range t.size := by
    intro i hi
    obtain ⟨k, hk, rfl⟩ := List.mem_map.mp hi
    rw [List.mem_range]
    by_contra hout
    have hsk := hsized k hk
    have hentry : t.entry k = .void := entry_of_not_contains fun hc => hout (contains_iff.mp hc)
    simp [isSized, hentry, Ty.isSized] at hsk
  have hindices : (l.map Handle.index).Nodup := hn.map fun a b hab => Handle.index_inj.mp hab
  simpa using (List.subperm_of_subset hindices hrange).length_le

/-- The zero of a sized type has its shape. -/
theorem WellFormed.shape_zero (h : t.WellFormed) (hs : t.isSized id) : t.Shape id (t.zero id) := by
  obtain ⟨l, hnodup, hsized, hparts⟩ := h.layered
  have hlength := length_sized_le hnodup fun k hk => (hsized k).mp hk
  obtain ⟨xs, ys, hl⟩ := List.append_of_mem ((hsized id).mpr hs)
  refine shape_build hsized hparts (t.size + 1) xs id ys hl ?_
  rw [hl] at hlength
  simp only [List.length_append, List.length_cons] at hlength
  omega

end TypeTable
end SsaKit
