import SsaKit.Proofs.Operation
import SsaKit.Proofs.Relocation

/-! Data whose pointers lead to what their types promise, given the type of every allocation. -/
namespace SsaKit

namespace TypeTable

variable {t : TypeTable} {rows rows' : List TypeId} {id pointee target : TypeId} {d d' new : Datum}
  {ids : List TypeId} {ds : List Datum} {path : List Nat} {n : Nat}

/-! ### Types inside types -/

/-- The type one member further inside a type. The elements of an array or a vector are all
alike. -/
def within (t : TypeTable) (id : TypeId) (step : Nat) : Option TypeId :=
  match t.entry id with
  | .struct _ fields _ => (fields.getD [])[step]?
  | .array element _ | .vector element _ => some element
  | _ => none

/-- The type at the end of a path of member numbers. -/
def resolve (t : TypeTable) (id : TypeId) (path : List Nat) : Option TypeId :=
  path.foldlM t.within id

theorem resolve_cons (step : Nat) :
    t.resolve id (step :: path) = (t.within id step).bind (t.resolve · path) := by
  rw [resolve, List.foldlM_cons]
  rfl

theorem resolve_snoc (step : Nat) :
    t.resolve id (path ++ [step]) = (t.resolve id path).bind (t.within · step) := by
  rw [resolve, List.foldlM_append]
  change (t.resolve id path).bind (fun k => [step].foldlM t.within k) = _
  congr 1
  funext k
  simp [List.foldlM]

/-- The member of an aggregate type is the type inside. -/
theorem within_of_members (hm : (t.entry id).members = some ids) {step : Nat}
    (hs : ids[step]? = some target) : t.within id step = some target := by
  unfold within
  cases he : t.entry id with
  | array element n | vector element n =>
    obtain rfl : List.replicate n element = ids := by simpa [he, Ty.members] using hm
    obtain ⟨-, rfl⟩ : step < n ∧ element = target := by simpa [List.getElem?_replicate] using hs
    rfl
  | struct name fields isPacked =>
    cases fields with
    | none => simp [he, Ty.members] at hm
    | some fields =>
      obtain rfl : fields = ids := by simpa [he, Ty.members] using hm
      exact hs
  | _ => simp [he, Ty.members] at hm

/-! ### Typed data -/

/-- A place whose type, where the path has one, is the given one. The path has steps of 64 bits. -/
def Aims (t : TypeTable) (rows : List TypeId) (pointee : TypeId) (p : Pointer) : Prop :=
  ∃ root, rows[p.allocation]? = some root ∧
    (∀ target, t.resolve root p.path = some target → target = pointee) ∧ ∀ k ∈ p.path, k < 2 ^ 63

mutual

/-- A value of the shape of a type whose pointers aim at what their types promise. -/
def Typed (t : TypeTable) (rows : List TypeId) : TypeId → Datum → Prop
  | id, .pointer target =>
    ∃ pointee, t.entry id = .pointer pointee ∧ ∀ p ∈ target, t.Aims rows pointee p
  | id, .aggregate members => ∃ ids, (t.entry id).members = some ids ∧ AllTyped t rows ids members
  | id, d => t.Shape id d

def AllTyped (t : TypeTable) (rows : List TypeId) : List TypeId → List Datum → Prop
  | [], [] => True
  | id :: ids, d :: ds => Typed t rows id d ∧ AllTyped t rows ids ds
  | _, _ => False

end

theorem allTyped_iff : t.AllTyped rows ids ds ↔ List.Forall₂ (t.Typed rows) ids ds := by
  induction ids generalizing ds with
  | nil => cases ds <;> simp [AllTyped]
  | cons id ids ih => cases ds <;> simp [AllTyped, ih]

theorem typed_aggregate : t.Typed rows id (.aggregate ds) ↔
    ∃ ids, (t.entry id).members = some ids ∧ List.Forall₂ (t.Typed rows) ids ds := by
  simp only [Typed, allTyped_iff]

theorem Typed.shape (h : t.Typed rows id d) : t.Shape id d := by
  induction d using Datum.memberwise generalizing id with
  | scalar d hd =>
    cases d with
    | pointer p =>
      obtain ⟨pointee, he, -⟩ := h
      simp [Shape, kind, he, Ty.kind]
    | aggregate ds => exact (hd ds rfl).elim
    | _ => exact h
  | members ds ih =>
    obtain ⟨ids, hm, hds⟩ := typed_aggregate.mp h
    exact shape_aggregate.mpr ⟨ids, hm,
      (forall₂_imp_left hds.flip fun d hd id h => ih d hd h).flip⟩

theorem memberwise_typed : t.Memberwise (t.Typed rows) := ⟨Typed.shape, typed_aggregate⟩

/-- Data that hold no places are typed as soon as they are well-shaped. -/
theorem Typed.of_shape (h : t.Shape id d) (hd : d.Mirrors ([] : List Nat) d) :
    t.Typed rows id d := by
  induction d using Datum.memberwise generalizing id with
  | scalar d hs =>
    cases d with
    | pointer target =>
      have hk : t.kind id = .pointer := h
      obtain ⟨pointee, he⟩ : ∃ pointee, t.entry id = .pointer pointee := by
        cases he : t.entry id <;> simp_all [kind, Ty.kind]
      refine ⟨pointee, he, fun p hp => ?_⟩
      obtain rfl : target = some p := hp
      cases hd with
      | pointer hmirrors => simpa using hmirrors.allocation
    | aggregate ds => exact (hs ds rfl).elim
    | _ => exact h
  | members ds ih =>
    obtain ⟨ids, hm, hds⟩ := shape_aggregate.mp h
    have hself : List.Forall₂ (Datum.Mirrors []) ds ds := by
      cases hd with
      | aggregate h => exact h
    have hself := List.forall₂_same.mp hself
    exact typed_aggregate.mpr ⟨ids, hm,
      (forall₂_imp_left hds.flip fun d hd id h => ih d hd h (hself d hd)).flip⟩

/-- A scalar that is no pointer is typed as soon as it is well-shaped. -/
theorem Typed.of_scalar (h : t.Shape id d) (hk : t.kind id = .integer ∨ t.kind id = .float) :
    t.Typed rows id d := by
  cases d with
  | pointer p =>
    have hp : t.kind id = .pointer := h
    simp [hp] at hk
  | aggregate ds =>
    exact (h.scalar (Datum.members_of_scalar (hk.imp_right .inl)) ds rfl).elim
  | _ => exact h

theorem Lanes.mono {P Q : Ty → Prop} (h : t.Lanes P id) (hP : ∀ ty, P ty → Q ty) :
    t.Lanes Q id :=
  h.imp (hP _) fun ⟨e, n, he, hp⟩ => ⟨e, n, he, hP _ hp⟩

theorem Truths.lanes {source : TypeId} (h : t.Truths source id) :
    t.Lanes (fun ty => ty.kind = .integer ∨ ty.kind = .float) id := by
  obtain ⟨-, he⟩ | ⟨e, bit, n, -, he, hbit⟩ := h
  · exact .inl (.inl (by rw [he]; rfl))
  · exact .inr ⟨bit, n, he, .inl (by rw [hbit]; rfl)⟩

theorem Typed.of_lanes (h : t.Shape id d)
    (hl : t.Lanes (fun ty => ty.kind = .integer ∨ ty.kind = .float) id) : t.Typed rows id d := by
  obtain hk | ⟨e, n, he, hk⟩ := hl
  · exact .of_scalar h hk
  · have hm : (t.entry id).members = some (List.replicate n e) := by simp [he, Ty.members]
    obtain ⟨ds, rfl, -⟩ := h.members hm
    obtain ⟨hn, hds⟩ := (shape_lanes hm).mp h
    exact (memberwise_typed.lanes hm).mpr ⟨hn, fun d hd => .of_scalar (hds d hd) hk⟩

theorem Aims.mono {p : Pointer} (h : t.Aims rows pointee p) (hr : rows <+: rows') :
    t.Aims rows' pointee p := by
  obtain ⟨root, hroot, htarget⟩ := h
  exact ⟨root, getElem?_extended hr hroot, htarget⟩

/-- Further allocations leave typed data typed. -/
theorem Typed.mono (h : t.Typed rows id d) (hr : rows <+: rows') : t.Typed rows' id d := by
  induction d using Datum.memberwise generalizing id with
  | scalar d hs =>
    cases d with
    | pointer target =>
      obtain ⟨pointee, he, hp⟩ := h
      exact ⟨pointee, he, fun p hp' => (hp p hp').mono hr⟩
    | aggregate ds => exact (hs ds rfl).elim
    | _ => exact h
  | members ds ih =>
    obtain ⟨ids, hm, hds⟩ := typed_aggregate.mp h
    exact typed_aggregate.mpr ⟨ids, hm,
      (forall₂_imp_left hds.flip fun d hd id h => ih d hd h).flip⟩

/-! ### Places -/

variable {p : Pointer} {k : Nat}

theorem aims_whole {root : TypeId} (h : rows[p.allocation]? = some root) (hp : p.path = []) :
    t.Aims rows root p := by
  refine ⟨root, h, fun target ht => ?_, by simp [hp]⟩
  rw [hp] at ht
  exact (Option.some_inj.mp ht).symm

/-- One member further inside. -/
theorem Aims.enter (h : t.Aims rows pointee p) (hfits : k < 2 ^ 63)
    (hk : ∀ member, t.within pointee k = some member → member = target) :
    t.Aims rows target { p with path := p.path ++ [k] } := by
  obtain ⟨root, hroot, hp, hpath⟩ := h
  refine ⟨root, hroot, fun member hm => ?_, by simpa [or_imp, forall_and, hfits] using hpath⟩
  rw [resolve_snoc] at hm
  obtain ⟨whole, hw, hm⟩ := Option.bind_eq_some_iff.mp hm
  obtain rfl := hp whole hw
  exact hk member hm

/-- From one member to another one of the same whole. Only in a struct do the two have types of
their own. -/
theorem Aims.sibling {front : List Nat} {last : Nat} (h : t.Aims rows pointee p)
    (hp : p.path = front ++ [last]) (hfits : k < 2 ^ 63)
    (hk : k ≠ last → ∀ root struct name fields isPacked field, rows[p.allocation]? = some root →
      t.resolve root front = some struct → t.entry struct = .struct name (some fields) isPacked →
      fields[k]? = some field → field = pointee) :
    t.Aims rows pointee { p with path := front ++ [k] } := by
  obtain ⟨root, hroot, haims, hpath⟩ := h
  rw [hp] at hpath
  have hpath' : ∀ j ∈ front ++ [k], j < 2 ^ 63 := by
    simp only [List.forall_mem_append, List.forall_mem_singleton] at hpath ⊢
    exact ⟨hpath.1, hfits⟩
  refine ⟨root, hroot, fun member hm => ?_, hpath'⟩
  rw [resolve_snoc] at hm
  obtain ⟨whole, hw, hm⟩ := Option.bind_eq_some_iff.mp hm
  have here : t.within whole last = some member → member = pointee := fun h =>
    haims member (by rw [hp, resolve_snoc, hw]; exact h)
  by_cases hlast : k = last
  · exact here (hlast ▸ hm)
  unfold within at hm here
  cases he : t.entry whole with
  | array element n | vector element n =>
    rw [he] at hm here
    exact here hm
  | struct name fields isPacked =>
    rw [he] at hm
    cases fields with
    | none => cases hm
    | some fields => exact hk hlast root whole name fields isPacked member hroot hw he hm
  | _ =>
    rw [he] at hm
    cases hm

/-! ### Parts -/

/-- The part at the end of a path has the type at the end of the path. -/
theorem Typed.walk (h : t.Typed rows id d) (hw : d.walk path = some d') :
    ∃ target, t.resolve id path = some target ∧ t.Typed rows target d' := by
  induction path generalizing id d with
  | nil =>
    obtain rfl : d = d' := by cases d <;> simpa [Datum.walk] using hw
    exact ⟨id, rfl, h⟩
  | cons step path ih =>
    cases d with
    | aggregate ds =>
      obtain ⟨ids, hm, hds⟩ := typed_aggregate.mp h
      obtain ⟨member, hmember, hrest⟩ := Option.bind_eq_some_iff.mp hw
      obtain ⟨k, hk, htyped⟩ := Datum.forall₂_lookup hds.flip hmember
      obtain ⟨target, htarget, hd'⟩ := ih htyped hrest
      refine ⟨target, ?_, hd'⟩
      rw [resolve_cons, within_of_members hm hk]
      exact htarget
    | _ => cases hw

/-- A part may be replaced by data of its type. -/
theorem Typed.replace (h : t.Typed rows id d) (hw : Datum.replace new d path = some d')
    (hn : ∀ target, t.resolve id path = some target → t.Typed rows target new) :
    t.Typed rows id d' := by
  induction path generalizing id d d' with
  | nil =>
    obtain rfl : new = d' := by cases d <;> simpa [Datum.replace] using hw
    exact hn id rfl
  | cons step path ih =>
    cases d with
    | aggregate ds =>
      obtain ⟨ids, hm, hds⟩ := typed_aggregate.mp h
      obtain ⟨member, hmember, hrest⟩ := Option.bind_eq_some_iff.mp hw
      obtain ⟨changed, hchanged, hd'⟩ := Option.bind_eq_some_iff.mp hrest
      cases hd'
      obtain ⟨k, hk, htyped⟩ := Datum.forall₂_lookup hds.flip hmember
      have htyped' : t.Typed rows k changed := ih htyped hchanged fun target ht =>
        hn target (by rw [resolve_cons, within_of_members hm hk]; exact ht)
      obtain ⟨hlt, rfl⟩ := List.getElem?_eq_some_iff.mp hk
      have hset := Datum.forall₂_set hds step htyped'
      rw [List.set_getElem_self hlt] at hset
      exact typed_aggregate.mpr ⟨ids, hm, hset⟩
    | _ => cases hw

end TypeTable

/-! ### Conversions -/

namespace Datum

open Fault TypeTable

variable {t : TypeTable} {rows : List TypeId} {id source target : TypeId} {d : Datum}
  {ds : List Datum} {op : CastOp} {P : Datum → Prop}

theorem castAll_ends {failed : Fault → Prop} (h : ∀ d ∈ ds, Ends (cast t op id d) P failed) :
    Ends (castAll t op id ds) (fun rs => rs.length = ds.length ∧ ∀ r ∈ rs, P r) failed := by
  induction ds with
  | nil => exact ⟨rfl, by simp⟩
  | cons d ds ih =>
    rw [castAll, ends_bind]
    refine (h d (by simp)).mono (fun r hr => ?_) fun _ he => he
    rw [ends_bind]
    refine (ih fun x hx => h x (by simp [hx])).mono (fun rs hrs => ?_) fun _ he => he
    exact ⟨by simp [hrs.1], List.forall_mem_cons.mpr ⟨hr, hrs.2⟩⟩

/-- No bits of one scalar make a place. -/
theorem bitcast_typed (hc : t.scalarBits source = t.scalarBits target)
    (hs : t.kind source = .integer ∨ t.kind source = .float ∨ t.kind source = .pointer)
    (ht : t.kind target ∈ [.integer, .float, .pointer])
    (hp : ¬(t.kind source = .pointer ∧ t.kind target = .pointer)) (hd : t.Shape source d) :
    Ends (cast t .bitcast target d) (t.Typed rows target) fun _ => True := by
  rw [cast.eq_2 t .bitcast target d (hd.scalar (members_of_scalar hs))]
  change Ends (bitcast (t.entry target) d) _ _
  by_cases hsp : t.kind source = .pointer
  · obtain ⟨p, rfl⟩ := hd.pointer hsp
    have htp : t.kind target ≠ .pointer := fun h => hp ⟨hsp, h⟩
    unfold bitcast
    cases he : t.entry target <;> simp_all [kind, Ty.kind]
  · by_cases htp : t.kind target = .pointer
    · obtain ⟨pointee, he⟩ : ∃ pointee, t.entry target = .pointer pointee := by
        cases he : t.entry target <;> simp_all [kind, Ty.kind]
      rw [he]
      obtain hk | hk | hk := hs
      · obtain ⟨bits, word, -, rfl, -⟩ := hd.integer hk
        trivial
      · obtain ⟨-, x, rfl⟩ | ⟨-, x, rfl⟩ := hd.float hk <;> trivial
      · exact (hsp hk).elim
    · have hk : t.kind target = .integer ∨ t.kind target = .float := by simpa [htp] using ht
      obtain ⟨bits, hbits⟩ := scalarBits_of_kind hk
      have hlegal : Builder.isCastLegal t .bitcast source target := by
        simp [Builder.isCastLegal, hsp, htp, hc, hbits]
      have hscalar {k : TypeId} (hk : t.kind k = .integer ∨ t.kind k = .float ∨
          t.kind k = .pointer) : t.kind k ≠ .vector := by
        obtain h | h | h := hk <;> simp [h]
      exact (bitcast_ends (hscalar hs) (hscalar (hk.imp_right .inl)) hlegal hd).mono
        (fun _ h => .of_scalar h hk) fun _ _ => trivial

theorem scalarBits_lane {n : Nat} (hk : t.kind id ∈ [.integer, .float, .pointer]) :
    scalarBits.scalar t (n + 1) id = t.scalarBits id := by
  unfold kind at hk
  rw [scalarBits, scalarBits.scalar, scalarBits.scalar]
  cases he : t.entry id <;> simp_all [Ty.kind]

theorem lanes_fit {e : TypeId} {n : Nat} (ht : t.WellFormed) (he : t.entry id = .vector e n) :
    0 < t.size ∧ n ≠ 0 ∧ t.kind e ∈ [.integer, .float, .pointer] := by
  have hk : t.kind id = .vector := by simp [kind, he, Ty.kind]
  have hid : t.contains id := contains_of_kind hk (by simp)
  have hfits := ht.fits id hid
  rw [he] at hfits
  exact ⟨Nat.zero_lt_of_lt (contains_iff.mp hid), hfits.1, hfits.2.1⟩

/-- The lanes of two vectors of one length have as many bits as each other if the vectors do. -/
theorem scalarBits_lanes {e e' : TypeId} {n : Nat} (ht : t.WellFormed)
    (hs : t.entry source = .vector e n) (he : t.entry target = .vector e' n)
    (hb : t.scalarBits source = t.scalarBits target) : t.scalarBits e = t.scalarBits e' := by
  obtain ⟨hsize, hn, hk⟩ := lanes_fit ht hs
  obtain ⟨-, -, hk'⟩ := lanes_fit ht he
  obtain ⟨k, hsize⟩ : ∃ k, t.size = k + 1 := ⟨t.size - 1, by omega⟩
  have bits {id e : TypeId} (he : t.entry id = .vector e n)
      (hk : t.kind e ∈ [.integer, .float, .pointer]) :
      t.scalarBits id = (t.scalarBits e).map (· * n) := by
    rw [← scalarBits_lane (n := k) hk, scalarBits, scalarBits.scalar, he, hsize]
  rw [bits hs hk, bits he hk'] at hb
  exact Option.map_injective (fun a b h => Nat.eq_of_mul_eq_mul_right (by omega) h) hb

theorem castTarget_kind (hc : Builder.isCastLegal t op source target) (hop : op ≠ .bitcast) :
    t.kind target = .integer ∨ t.kind target = .float := by
  cases op with
  | bitcast => exact (hop rfl).elim
  | _ => simp_all [Builder.isCastLegal]

theorem kind_of_scalarBits {bits : Nat} (h : t.scalarBits id = some bits) :
    t.kind id ∈ [.integer, .float, .pointer] ∨ ∃ e n, t.entry id = .vector e n := by
  simp only [scalarBits, scalarBits.scalar] at h
  unfold kind
  cases he : t.entry id <;> simp_all [Ty.kind]

theorem bitcast_vector {e : TypeId} {n : Nat} (ht : t.WellFormed)
    (hs : t.entry source = .vector e n) (hb : t.scalarBits source = t.scalarBits target)
    (hsome : (t.scalarBits target).isSome)
    (hp : ¬(t.Lanes (·.kind = .pointer) source ∧ t.Lanes (·.kind = .pointer) target))
    (hd : t.Shape source d) :
    Ends (cast t .bitcast target d) (t.Typed rows target) fun _ => True := by
  have hm : (t.entry source).members = some (List.replicate n e) := by simp [hs, Ty.members]
  obtain ⟨ds, rfl, -⟩ := hd.members hm
  obtain ⟨hlength, hds⟩ := (shape_lanes hm).mp hd
  rw [cast]
  split
  · rename_i htarget
    obtain ⟨bits, hbits⟩ := Option.isSome_iff_exists.mp hsome
    obtain ⟨e', he⟩ : ∃ e', t.entry target = .vector e' n := by
      obtain hk | ⟨e', k, he⟩ := kind_of_scalarBits hbits
      · unfold kind at hk
        cases he : t.entry target <;> simp_all [Ty.kind, Ty.length]
      · obtain rfl : k = n := by simpa [he, Ty.length, hlength] using htarget
        exact ⟨e', he⟩
    have hlanes : ∀ d ∈ ds, Ends (cast t .bitcast e' d) (t.Typed rows e') fun _ => True :=
      fun d hd => bitcast_typed (scalarBits_lanes ht hs he hb)
        (by simpa using (lanes_fit ht hs).2.2) (lanes_fit ht he).2.2
        (fun h => hp ⟨.inr ⟨e, n, hs, h.1⟩, .inr ⟨e', n, he, h.2⟩⟩) (hds d hd)
    have helement : (t.entry target).element.getD target = e' := by simp [he, Ty.element]
    rw [ends_map, helement]
    refine (castAll_ends hlanes).mono (fun rs hrs => ?_) fun _ _ => trivial
    exact (memberwise_typed.lanes (by simp [he, Ty.members])).mpr ⟨hrs.1.trans hlength, hrs.2⟩
  · trivial

/-- A conversion gives typed data, unless it takes pointers for others. -/
theorem cast_typed (ht : t.WellFormed) (hc : Builder.isCastLegal t op source target)
    (hp : op = .bitcast →
      ¬(t.Lanes (·.kind = .pointer) source ∧ t.Lanes (·.kind = .pointer) target))
    (hd : t.Shape source d) :
    Ends (cast t op target d) (t.Typed rows target) fun _ => True := by
  by_cases hop : op = .bitcast
  · subst hop
    have hp := hp rfl
    simp only [Builder.isCastLegal, Bool.or_eq_true, Bool.and_eq_true, beq_iff_eq, bne_iff_ne,
      ne_eq] at hc
    obtain ⟨hs, ht⟩ | ⟨⟨⟨hs, ht'⟩, hsome⟩, hb⟩ := hc
    · exact (hp ⟨.inl hs, .inl ht⟩).elim
    · obtain ⟨bits, hbits⟩ := Option.isSome_iff_exists.mp hsome
      obtain hk | ⟨e, n, he⟩ := kind_of_scalarBits hbits
      · obtain hk' | ⟨e, n, he⟩ := kind_of_scalarBits (hb ▸ hbits)
        · exact bitcast_typed hb (by simpa using hk) hk' (fun h => hs h.1) hd
        · -- a vector is not made of the bits of a scalar
          have hk : t.kind source = .integer ∨ t.kind source = .float := by simpa [hs] using hk
          rw [cast.eq_2 t .bitcast target d (hd.scalar (members_of_scalar (hk.imp_right .inl)))]
          change Ends (bitcast (t.entry target) d) _ _
          rw [he]
          obtain hk | hk := hk
          · obtain ⟨bits, word, -, rfl, -⟩ := hd.integer hk
            trivial
          · obtain ⟨-, x, rfl⟩ | ⟨-, x, rfl⟩ := hd.float hk <;> trivial
      · exact bitcast_vector ht he hb (hb ▸ hsome) hp hd
  · exact (cast_ends hc (fun h => (hop h).elim) hd).mono
      (fun _ h => .of_scalar h (castTarget_kind hc hop)) fun _ _ => trivial

end Datum

end SsaKit
