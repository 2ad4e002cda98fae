import SsaKit.Proofs.Fault
import SsaKit.Proofs.Shape

/-! Operations keep the shapes of run-time values: on well-shaped operands they only fail for
reasons that have nothing to do with shapes. -/
namespace SsaKit

namespace Datum

open Fault TypeTable

variable {t : TypeTable} {id source target : TypeId} {d a b : Datum} {ds members : List Datum}
  {ids : List TypeId} {bits n index : Nat} {P : TypeId → Datum → Prop}

/-! ### Readings -/

section

variable {failed : Fault → Prop}

theorem ends_asInt {ok : Nat × UInt64 → Prop} (h : t.Shape id d) (hk : t.kind id = .integer)
    (hok : ∀ r, ok r) : Ends d.asInt ok failed := by
  obtain ⟨bits, word, -, rfl, -⟩ := h.integer hk
  exact hok (bits, word)

theorem ends_asWord (h : t.Shape id d) (hk : t.kind id = .integer) :
    Ends d.asWord (fun _ => True) failed := by
  rw [asWord, ends_map]
  exact ends_asInt h hk fun _ => trivial

theorem ends_asSigned (h : t.Shape id d) (hk : t.kind id = .integer) :
    Ends d.asSigned (fun _ => True) failed := by
  rw [asSigned, ends_map]
  exact ends_asInt h hk fun _ => trivial

theorem ends_asBool (h : t.Shape id d) (hk : t.kind id = .integer) :
    Ends d.asBool (fun _ => True) failed := by
  rw [asBool, ends_map]
  exact ends_asWord h hk

theorem ends_asPointer (h : t.Shape id d) (hk : t.kind id = .pointer) :
    Ends d.asPointer (fun _ => True) failed := by
  obtain ⟨p, rfl⟩ := h.pointer hk
  trivial

theorem ends_asFloat (h : t.Shape id d) (hk : t.kind id = .float) :
    Ends d.asFloat (fun _ => True) failed := by
  obtain ⟨-, x, rfl⟩ | ⟨-, x, rfl⟩ := h.float hk
  · trivial
  · trivial

theorem ends_asMembers (hP : t.Memberwise P) (h : P id d)
    (hm : (t.entry id).members = some ids) : Ends d.asMembers (List.Forall₂ P ids) failed := by
  obtain ⟨ds, rfl, hs⟩ := hP.members h hm
  exact hs

end

/-! ### Members -/

theorem pick_member (h : List.Forall₂ P ids members) (hi : ids[index]? = some id) :
    Ends (pick members index) (P id) fun _ => False := by
  have hlt : index < ids.length := (List.getElem?_eq_some_iff.mp hi).1
  have hlt' : index < members.length := h.length_eq ▸ hlt
  have hmember := h.get hlt hlt'
  obtain rfl : ids[index] = id := by simpa [hlt] using hi
  unfold pick
  rw [List.getElem?_eq_getElem hlt']
  exact hmember

theorem pick_lane (h : ∀ d ∈ members, P id d) (index : Nat) :
    Ends (pick members index) (P id) Shapely := by
  unfold pick
  split
  · rename_i d hd
    exact h d (List.mem_of_getElem? hd)
  · rfl

theorem put_member (hP : t.Memberwise P) (he : (t.entry source).members = some ids)
    (h : List.Forall₂ P ids members) (hi : ids[index]? = some id) (hd : P id d) :
    Ends (put members index d) (P source) fun _ => False := by
  have hlt : index < ids.length := (List.getElem?_eq_some_iff.mp hi).1
  have hlt' : index < members.length := h.length_eq ▸ hlt
  unfold put
  rw [if_pos hlt']
  refine hP.aggregate.mpr ⟨ids, he, ?_⟩
  rw [List.forall₂_iff_get] at h ⊢
  refine ⟨by simpa using h.1, fun i hi₁ hi₂ => ?_⟩
  rw [List.get_eq_getElem, List.get_eq_getElem, List.getElem_set]
  split
  · rename_i he
    subst he
    obtain rfl : ids[index] = id := by simpa [hlt] using hi
    exact hd
  · exact h.2 i hi₁ (by simpa using hi₂)

theorem put_lane (hP : t.Memberwise P) {e : TypeId}
    (he : (t.entry id).members = some (List.replicate n e)) (hn : members.length = n)
    (h : ∀ d ∈ members, P e d) (hd : P e d) (index : Nat) :
    Ends (put members index d) (P id) Shapely := by
  unfold put
  split
  · refine (hP.lanes he).mpr ⟨by simpa using hn, fun x hx => ?_⟩
    rcases List.mem_or_eq_of_mem_set hx with hx | rfl
    · exact h x hx
    · exact hd
  · rfl

/-! ### Member by member -/

theorem lanewise_scalar {op : Datum → Datum → Except Fault Datum} (ha : t.Shape id a)
    (hm : (t.entry id).members = none) : lanewise op a b = op a b :=
  lanewise.eq_2 op a b fun _ _ he _ => ha.scalar hm _ he

theorem lanewiseAll_ends {op : Datum → Datum → Except Fault Datum} {lhs rhs : List Datum}
    (hm : (t.entry source).members = none) (hl : ∀ d ∈ lhs, t.Shape source d)
    (hr : ∀ d ∈ rhs, t.Shape source d) (hlength : lhs.length = rhs.length)
    (h : ∀ a b, t.Shape source a → t.Shape source b → Ends (op a b) (t.Shape target) Shapely) :
    Ends (lanewiseAll op lhs rhs) (fun ds => ds.length = lhs.length ∧ ∀ d ∈ ds, t.Shape target d)
      Shapely := by
  induction lhs generalizing rhs with
  | nil => exact ⟨rfl, by simp⟩
  | cons a lhs ih =>
    cases rhs with
    | nil => simp at hlength
    | cons b rhs =>
      have ha := hl a (by simp)
      rw [lanewiseAll, lanewise_scalar ha hm, ends_bind]
      refine (h a b ha (hr b (by simp))).mono (fun d hd => ?_) fun _ he => he
      rw [ends_bind]
      have hr' : ∀ x ∈ rhs, t.Shape source x := fun x hx => hr x (by simp [hx])
      have hrest := ih (fun x hx => hl x (by simp [hx])) hr' (by simpa using hlength)
      refine hrest.mono (fun ds hds => ?_) fun _ he => he
      obtain ⟨hn, hds⟩ := hds
      exact ⟨by simp [hn], by simpa [hd] using hds⟩

/-- An operation on two values of one type, scalars or vectors, that is well-behaved on scalars. -/
theorem lanewise_ends {op : Datum → Datum → Except Fault Datum} {s r : TypeId}
    (hs : (t.entry s).members = none)
    (hlanes : (source = s ∧ target = r) ∨ ∃ n,
      (t.entry source).members = some (List.replicate n s) ∧
      (t.entry target).members = some (List.replicate n r))
    (h : ∀ a b, t.Shape s a → t.Shape s b → Ends (op a b) (t.Shape r) Shapely)
    (ha : t.Shape source a) (hb : t.Shape source b) :
    Ends (lanewise op a b) (t.Shape target) Shapely := by
  obtain ⟨rfl, rfl⟩ | ⟨n, hsource, htarget⟩ := hlanes
  · rw [lanewise_scalar ha hs]
    exact h a b ha hb
  · obtain ⟨lhs, rfl, -⟩ := ha.members hsource
    obtain ⟨rhs, rfl, -⟩ := hb.members hsource
    obtain ⟨hnl, hl⟩ := (shape_lanes hsource).mp ha
    obtain ⟨hnr, hr⟩ := (shape_lanes hsource).mp hb
    have hlength : lhs.length = rhs.length := hnl.trans hnr.symm
    rw [lanewise, if_pos hlength, ends_map]
    refine (lanewiseAll_ends hs hl hr hlength h).mono (fun ds hds => ?_) fun _ he => he
    exact (shape_lanes htarget).mpr ⟨hds.1.trans hnl, hds.2⟩

/-! ### Operators -/

theorem onWords_ends {op : BinaryOp} (hop : op.isFloat = false) (x y : UInt64) :
    Ends ((op.onWords bits x y).mapError .arithmetic) (fun r => Word.mask bits r = r) Shapely := by
  cases hr : op.onWords bits x y with
  | ok r => exact BinaryOp.mask_onWords hr
  | error failure =>
    unfold BinaryOp.onWords at hr
    cases op with
    | udiv | sdiv | urem | srem =>
      dsimp only at hr
      split at hr
      · cases hr
        rfl
      · cases hr
    | fadd | fsub | fmul | fdiv | frem => cases hop
    | _ => cases hr

theorem onDoubles_ends {op : BinaryOp} (hop : op.isFloat = true) (x y : Double) :
    Ends ((op.onDoubles x y).mapError .arithmetic) (fun _ => True) Shapely := by
  cases op with
  | fadd | fsub | fmul | fdiv | frem => trivial
  | _ => cases hop

theorem members_of_scalar {ty : Ty}
    (h : ty.kind = .integer ∨ ty.kind = .float ∨ ty.kind = .pointer) : ty.members = none := by
  cases ty <;> simp_all [Ty.kind, Ty.members]

theorem binaryScalar_ends (host : Host) {op : BinaryOp}
    (hk : t.kind id = if op.isFloat then .float else .integer) (ha : t.Shape id a)
    (hb : t.Shape id b) : Ends (binaryScalar host op a b) (t.Shape id) Shapely := by
  cases hop : op.isFloat with
  | false =>
    obtain ⟨bits, x, he, rfl, -⟩ := ha.integer (by simpa [hop] using hk)
    obtain ⟨y, rfl, -⟩ := hb.int he
    rw [binaryScalar]
    split
    · trivial
    · rw [ends_map]
      exact (onWords_ends hop x y).mono (fun _ hr => shape_word he hr) fun _ he => he
  | true =>
    have hfloat : t.kind id = .float := by simpa [hop] using hk
    obtain ⟨he, x, rfl⟩ | ⟨he, x, rfl⟩ := ha.float hfloat
    · obtain ⟨-, y, rfl⟩ | ⟨he', -⟩ := hb.float hfloat
      · rw [binaryScalar, ends_map]
        exact (onDoubles_ends hop _ _).mono (fun _ _ => he) fun _ he => he
      · simp [he] at he'
    · obtain ⟨he', -⟩ | ⟨-, y, rfl⟩ := hb.float hfloat
      · simp [he] at he'
      · rw [binaryScalar, ends_map]
        exact (onDoubles_ends hop _ _).mono (fun _ _ => he) fun _ he => he

theorem binary_ends (host : Host) {op : BinaryOp}
    (hl : t.Lanes (·.kind = if op.isFloat then .float else .integer) id) (ha : t.Shape id a)
    (hb : t.Shape id b) : Ends (binary host op a b) (t.Shape id) Shapely := by
  have scalar {s : TypeId} (hk : t.kind s = if op.isFloat then .float else .integer) :
      (t.entry s).members = none := by
    refine members_of_scalar ?_
    change t.kind s = _ ∨ t.kind s = _ ∨ t.kind s = _
    rw [hk]
    cases op.isFloat <;> simp
  obtain hk | ⟨e, n, he, hk⟩ := hl
  · exact lanewise_ends (scalar hk) (.inl ⟨rfl, rfl⟩) (fun _ _ => binaryScalar_ends host hk) ha hb
  · exact lanewise_ends (scalar hk) (.inr ⟨n, by simp [he, Ty.members], by simp [he, Ty.members]⟩)
      (fun _ _ => binaryScalar_ends host hk) ha hb

/-- A comparison gives a truth value, or one for every lane. -/
theorem compare_ends {op : Datum → Datum → Except Fault Datum} {P : Ty → Prop}
    (hscalar : ∀ ty, P ty → ty.kind = .integer ∨ ty.kind = .float ∨ ty.kind = .pointer)
    (hl : t.Lanes P source) (ht : t.Truths source target)
    (h : ∀ s r, P (t.entry s) → t.entry r = .int 1 → ∀ a b, t.Shape s a → t.Shape s b →
      Ends (op a b) (t.Shape r) Shapely) (ha : t.Shape source a) (hb : t.Shape source b) :
    Ends (lanewise op a b) (t.Shape target) Shapely := by
  obtain hp | ⟨e, n, he, hp⟩ := hl
  · obtain ⟨-, hbit⟩ | ⟨e, bit, n, he, -⟩ := ht
    · exact lanewise_ends (members_of_scalar (hscalar _ hp)) (.inl ⟨rfl, rfl⟩)
        (h source target hp hbit) ha hb
    · have := hscalar _ hp
      simp [he, Ty.kind] at this
  · obtain ⟨hv, -⟩ | ⟨e', bit, k, he', htarget, hbit⟩ := ht
    · simp [kind, he, Ty.kind] at hv
    · obtain ⟨rfl, rfl⟩ : e = e' ∧ n = k := by simpa [he] using he'
      exact lanewise_ends (members_of_scalar (hscalar _ hp))
        (.inr ⟨n, by simp [he, Ty.members], by simp [htarget, Ty.members]⟩)
        (h e bit hp hbit) ha hb

theorem icmp_ends (pred : IntPredicate)
    (hl : t.Lanes (fun ty => ty.kind = .integer ∨ ty.kind = .pointer) source)
    (ht : t.Truths source target) (ha : t.Shape source a) (hb : t.Shape source b) :
    Ends (icmp pred a b) (t.Shape target) Shapely := by
  refine compare_ends (fun ty hp => hp.imp_right .inr) hl ht (fun s r hp hbit a b ha hb => ?_) ha hb
  obtain hk | hk := hp
  · obtain ⟨bits, x, he, rfl, -⟩ := ha.integer hk
    obtain ⟨y, rfl, -⟩ := hb.int he
    exact shape_truth hbit _
  · obtain ⟨p, rfl⟩ := ha.pointer hk
    obtain ⟨q, rfl⟩ := hb.pointer hk
    exact shape_truth hbit _

theorem fcmp_ends (pred : FloatPredicate) (hl : t.Lanes (·.kind = .float) source)
    (ht : t.Truths source target) (ha : t.Shape source a) (hb : t.Shape source b) :
    Ends (fcmp pred a b) (t.Shape target) Shapely := by
  refine compare_ends (fun ty hp => .inr (.inl hp)) hl ht (fun s r hp hbit a b ha hb => ?_) ha hb
  obtain ⟨he, x, rfl⟩ | ⟨he, x, rfl⟩ := ha.float hp
  · obtain ⟨-, y, rfl⟩ | ⟨he', -⟩ := hb.float hp
    · exact shape_truth hbit _
    · simp [he] at he'
  · obtain ⟨he', -⟩ | ⟨-, y, rfl⟩ := hb.float hp
    · simp [he] at he'
    · exact shape_truth hbit _

/-! ### Selection -/

theorem choose_ends {bit e : TypeId} {bits thens elses : List Datum}
    (hk : t.kind bit = .integer) (hb : ∀ d ∈ bits, t.Shape bit d) (ht : ∀ d ∈ thens, P e d)
    (he : ∀ d ∈ elses, P e d) (hnt : bits.length = thens.length)
    (hne : bits.length = elses.length) :
    Ends (choose bits thens elses) (fun ds => ds.length = bits.length ∧ ∀ d ∈ ds, P e d)
      Shapely := by
  induction bits generalizing thens elses with
  | nil => exact ⟨rfl, by simp⟩
  | cons c bits ih =>
    obtain _ | ⟨a, thens⟩ := thens
    · simp at hnt
    obtain _ | ⟨b, elses⟩ := elses
    · simp at hne
    rw [choose, ends_bind]
    refine (ends_asBool (hb c (by simp)) hk).mono (fun taken _ => ?_) fun _ he => he
    have hhead : P e (if taken then a else b) := by
      split
      · exact ht a (by simp)
      · exact he b (by simp)
    have ht' : ∀ x ∈ thens, P e x := fun x hx => ht x (by simp [hx])
    have he' : ∀ x ∈ elses, P e x := fun x hx => he x (by simp [hx])
    have hrest := ih (fun x hx => hb x (by simp [hx])) ht' he' (by simpa using hnt)
      (by simpa using hne)
    rw [ends_bind]
    refine hrest.mono (fun ds hds => ?_) fun _ he => he
    obtain ⟨hn, hds⟩ := hds
    exact ⟨by simp [hn], by simpa [hhead] using hds⟩

theorem select_ends (hP : t.Memberwise P) {c : Datum} {cond : TypeId}
    (hc : t.entry cond = .int 1 ∨ ∃ bit element length, t.entry cond = .vector bit length ∧
      t.entry bit = .int 1 ∧ t.entry id = .vector element length)
    (hs : t.Shape cond c) (ha : P id a) (hb : P id b) :
    Ends (select c a b) (P id) Shapely := by
  obtain he | ⟨bit, e, n, he, hbit, hid⟩ := hc
  · obtain ⟨word, rfl, -⟩ := hs.int he
    rw [select]
    · rw [ends_bind]
      refine (ends_asBool hs (by simp [kind, he, Ty.kind])).mono (fun taken _ => ?_) fun _ he => he
      change P id (if taken then a else b)
      split
      · exact ha
      · exact hb
    · simp
  · have hcond : (t.entry cond).members = some (List.replicate n bit) := by simp [he, Ty.members]
    have hmembers : (t.entry id).members = some (List.replicate n e) := by
      simp [hid, Ty.members]
    obtain ⟨bits, rfl, -⟩ := hs.members hcond
    obtain ⟨thens, rfl, -⟩ := hP.members ha hmembers
    obtain ⟨elses, rfl, -⟩ := hP.members hb hmembers
    obtain ⟨hn, hbits⟩ := (shape_lanes hcond).mp hs
    obtain ⟨hnt, hthens⟩ := (hP.lanes hmembers).mp ha
    obtain ⟨hne, helses⟩ := (hP.lanes hmembers).mp hb
    have hlengths : bits.length = thens.length ∧ bits.length = elses.length := by omega
    change Ends (if bits.length = thens.length ∧ bits.length = elses.length then
      aggregate <$> choose bits thens elses else .error .selectLengths) _ _
    rw [if_pos hlengths, ends_map]
    have hchosen := choose_ends (by simp [kind, hbit, Ty.kind]) hbits hthens helses
      hlengths.1 hlengths.2
    refine hchosen.mono (fun ds hds => ?_) fun _ he => he
    exact (hP.lanes hmembers).mpr ⟨hds.1.trans hn, hds.2⟩

theorem shuffle_ends (hP : t.Memberwise P) {e bit : TypeId} {lhs rhs mask : List Datum}
    (hl : ∀ d ∈ lhs, P e d) (hr : ∀ d ∈ rhs, P e d) (hk : t.kind bit = .integer)
    (hm : ∀ d ∈ mask, t.Shape bit d)
    (hid : (t.entry id).members = some (List.replicate mask.length e)) :
    Ends (shuffle lhs rhs mask) (P id) Shapely := by
  have hpool : ∀ d ∈ lhs ++ rhs, P e d := by
    intro d hd
    rcases List.mem_append.mp hd with hd | hd
    · exact hl d hd
    · exact hr d hd
  have hpicks : Ends (mask.mapM fun d => do pick (lhs ++ rhs) (← d.asWord).toNat)
      (List.Forall₂ (fun _ => P e) mask) Shapely := by
    refine ends_mapM fun d hd => ?_
    rw [ends_bind]
    exact (ends_asWord (hm d hd) hk).mono (fun _ _ => pick_lane hpool _) fun _ he => he
  rw [shuffle, ends_map]
  refine hpicks.mono (fun ds hds => ?_) fun _ he => he
  refine (hP.lanes hid).mpr ⟨hds.length_eq.symm, fun d hd => ?_⟩
  obtain ⟨i, hi, rfl⟩ := List.getElem_of_mem hd
  exact (List.forall₂_iff_get.mp hds).2 i (hds.length_eq ▸ hi) hi

/-! ### Conversions -/

theorem shape_ofFloat (hk : t.kind id = .float) (x : Double) :
    t.Shape id (ofFloat (t.entry id) x) := by
  cases he : t.entry id with
  | float | double => exact he
  | _ => simp [kind, he, Ty.kind] at hk

theorem bitcast_ends (hsource : t.kind source ≠ .vector) (htarget : t.kind target ≠ .vector)
    (hc : Builder.isCastLegal t .bitcast source target) (hd : t.Shape source d) :
    Ends (bitcast (t.entry target) d) (t.Shape target) Shapely := by
  simp only [Builder.isCastLegal, Bool.or_eq_true, Bool.and_eq_true, beq_iff_eq, bne_iff_ne,
    ne_eq] at hc
  obtain ⟨hs, ht⟩ | ⟨⟨⟨hs, ht⟩, hb⟩, heq⟩ := hc
  · obtain ⟨p, rfl⟩ := hd.pointer hs
    cases he : t.entry target with
    | pointer pointee => exact ht
    | _ => simp [kind, he, Ty.kind] at ht
  · -- two scalars of one width
    obtain ⟨n, hn⟩ := Option.isSome_iff_exists.mp hb
    have hnt := heq ▸ hn
    simp only [scalarBits, scalarBits.scalar] at hn hnt
    cases he : t.entry source with
    | int bits =>
      obtain ⟨word, rfl, hword⟩ := hd.int he
      cases he' : t.entry target with
      | int k =>
        obtain rfl : bits = k := by simp_all
        exact ⟨he', hword⟩
      | float | double => exact he'
      | _ => simp_all [kind, Ty.kind]
    | float =>
      obtain ⟨-, x, rfl⟩ | ⟨he₂, -⟩ := hd.float (by simp [kind, he, Ty.kind])
      · cases he' : t.entry target with
        | int k =>
          obtain rfl : 32 = k := by simp_all
          refine ⟨he', fun _ => ?_⟩
          simpa using x.bits.toNat_lt
        | float => exact he'
        | double =>
          simp only [he, he'] at hn hnt
          cases hn
          cases hnt
        | _ => simp_all [kind, Ty.kind]
      · simp [he] at he₂
    | double =>
      obtain ⟨he₂, -⟩ | ⟨-, x, rfl⟩ := hd.float (by simp [kind, he, Ty.kind])
      · simp [he] at he₂
      · cases he' : t.entry target with
        | int k =>
          obtain rfl : 64 = k := by simp_all
          refine ⟨he', fun _ => ?_⟩
          exact x.bits.toNat_lt
        | float =>
          simp only [he, he'] at hn hnt
          cases hn
          cases hnt
        | double => exact he'
        | _ => simp_all [kind, Ty.kind]
    | _ => simp_all [kind, Ty.kind]

theorem castSource_kind {op : CastOp} (hc : Builder.isCastLegal t op source target)
    (hb : op = .bitcast → t.kind source ≠ .vector) :
    t.kind source = .integer ∨ t.kind source = .float ∨ t.kind source = .pointer := by
  cases op with
  | bitcast =>
    simp only [Builder.isCastLegal, Bool.or_eq_true, Bool.and_eq_true, beq_iff_eq, bne_iff_ne,
      ne_eq] at hc
    obtain ⟨hs, -⟩ | ⟨⟨-, hbits⟩, -⟩ := hc
    · exact .inr (.inr hs)
    · have hv := hb rfl
      simp only [scalarBits, scalarBits.scalar] at hbits
      cases he : t.entry source <;> simp_all [kind, Ty.kind]
  | _ => simp_all [Builder.isCastLegal]

theorem shape_resize {op : CastOp} {word : UInt64} {bits k : Nat} (he : t.entry id = .int k) :
    t.Shape id (.int k (op.resize bits k word)) := by
  cases op <;> exact shape_masked he

/-- A conversion that the builder lets through, but for the bits of vectors. -/
theorem cast_ends {op : CastOp} (hc : Builder.isCastLegal t op source target)
    (hb : op = .bitcast → t.kind source ≠ .vector ∧ t.kind target ≠ .vector)
    (hd : t.Shape source d) : Ends (cast t op target d) (t.Shape target) Shapely := by
  have hsource := members_of_scalar (castSource_kind hc fun h => (hb h).1)
  rw [cast.eq_2 t op target d (hd.scalar hsource)]
  have intTarget (hk : t.kind target = .integer) : ∃ k, t.entry target = .int k := by
    cases he : t.entry target <;> simp_all [kind, Ty.kind]
  cases op with
  | bitcast => exact bitcast_ends (hb rfl).1 (hb rfl).2 hc hd
  | trunc | zext | sext =>
    simp only [Builder.isCastLegal, Bool.and_eq_true, beq_iff_eq] at hc
    obtain ⟨bits, word, -, rfl, -⟩ := hd.integer hc.1.1
    obtain ⟨k, he⟩ := intTarget hc.1.2
    rw [he]
    exact shape_resize he
  | fptoui | fptosi =>
    simp only [Builder.isCastLegal, Bool.and_eq_true, beq_iff_eq] at hc
    obtain ⟨k, he⟩ := intTarget hc.2
    rw [he, castScalar, ends_bind]
    exact (ends_asFloat hd hc.1).mono (fun _ _ => shape_masked he) fun _ he => he
  | uitofp | sitofp =>
    simp only [Builder.isCastLegal, Bool.and_eq_true, beq_iff_eq] at hc
    obtain ⟨bits, word, -, rfl, -⟩ := hd.integer hc.1
    exact shape_ofFloat hc.2 _
  | fpext | fptrunc =>
    simp only [Builder.isCastLegal, Bool.and_eq_true, beq_iff_eq] at hc
    rw [castScalar, ends_bind]
    exact (ends_asFloat hd hc.1.1).mono (fun _ _ => shape_ofFloat hc.1.2 _) fun _ he => he

end Datum
end SsaKit
