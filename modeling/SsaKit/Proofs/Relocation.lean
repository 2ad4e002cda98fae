import SsaKit.Proofs.Fault

/-! Data that agree up to the numbers of allocations: operations on such data come to such data. -/
namespace SsaKit

namespace Fault

variable {α β γ δ : Type} {P : α → β → Prop} {Q : γ → δ → Prop}

/-- Wherever the first computation succeeds, the second one does, with a result that goes with the
first. -/
def Entails (r : Except Fault α) (r' : Except Fault β) (P : α → β → Prop) : Prop :=
  ∀ a, r = .ok a → ∃ b, r' = .ok b ∧ P a b

theorem entails_ok {a : α} {b : β} (h : P a b) : Entails (.ok a) (.ok b) P := by
  rintro _ ⟨⟩
  exact ⟨b, rfl, h⟩

theorem entails_error (e : Fault) (r' : Except Fault β) : Entails (.error e) r' P := by
  rintro _ ⟨⟩

theorem entails_bind {r : Except Fault α} {r' : Except Fault β} {next : α → Except Fault γ}
    {next' : β → Except Fault δ} (h : Entails r r' P)
    (hn : ∀ a b, P a b → Entails (next a) (next' b) Q) : Entails (r >>= next) (r' >>= next') Q := by
  intro c hc
  cases r with
  | error e => cases hc
  | ok a =>
    obtain ⟨b, rfl, hp⟩ := h a rfl
    exact hn a b hp c hc

theorem entails_map {r : Except Fault α} {r' : Except Fault β} {f : α → γ} {g : β → δ}
    (h : Entails r r' P) (hf : ∀ a b, P a b → Q (f a) (g b)) : Entails (f <$> r) (g <$> r') Q := by
  intro c hc
  cases r with
  | error e => cases hc
  | ok a =>
    obtain ⟨b, rfl, hp⟩ := h a rfl
    cases hc
    exact ⟨g b, rfl, hf a b hp⟩

/-- The same computation on both sides. -/
theorem entails_self {r : Except Fault α} {P : α → α → Prop} (h : ∀ a, r = .ok a → P a a) :
    Entails r r P := fun a ha => ⟨a, ha, h a ha⟩

theorem entails_mapM {f : α → Except Fault γ} {g : β → Except Fault δ} {xs : List α} {ys : List β}
    (h : List.Forall₂ P xs ys) (hf : ∀ a b, P a b → Entails (f a) (g b) Q) :
    Entails (xs.mapM f) (ys.mapM g) (List.Forall₂ Q) := by
  induction h with
  | nil => exact entails_ok .nil
  | cons hab _ ih =>
    rw [List.mapM_cons, List.mapM_cons]
    exact entails_bind (hf _ _ hab) fun c d hcd => entails_bind ih fun cs ds hcds =>
      entails_ok (.cons hcd hcds)

end Fault

/-- The same place in two memories: an allocation of the second one stands for the one of the first
that the list has under its number. -/
structure Pointer.Mirrors (places : List Nat) (p q : Pointer) : Prop where
  allocation : places[q.allocation]? = some p.allocation
  index : q.index = p.index
  path : q.path = p.path

namespace Datum

/-- Data that differ in the numbers of allocations only. -/
inductive Mirrors (places : List Nat) : Datum → Datum → Prop
  | int (bits : Nat) (word : UInt64) : Mirrors places (int bits word) (int bits word)
  | single (number : Single) : Mirrors places (single number) (single number)
  | double (number : Double) : Mirrors places (double number) (double number)
  | null : Mirrors places (pointer none) (pointer none)
  | pointer {p q : Pointer} : p.Mirrors places q →
    Mirrors places (pointer (some p)) (pointer (some q))
  | aggregate {ds ds' : List Datum} : List.Forall₂ (Mirrors places) ds ds' →
    Mirrors places (aggregate ds) (aggregate ds')
  | void : Mirrors places void void

/-- Induction on the members of aggregates. -/
theorem memberwise {P : Datum → Prop} (scalar : ∀ d, (∀ ds, d ≠ aggregate ds) → P d)
    (members : ∀ ds, (∀ d ∈ ds, P d) → P (aggregate ds)) : ∀ d, P d
  | aggregate ds => members ds fun d _ => memberwise scalar members d
  | int _ _ | single _ | double _ | pointer _ | void => scalar _ (by simp)

mutual

/-- Whether there is a pointer in a datum. -/
def hasPointer : Datum → Bool
  | pointer _ => true
  | aggregate members => anyPointer members
  | _ => false

def anyPointer : List Datum → Bool
  | [] => false
  | d :: rest => d.hasPointer || anyPointer rest

end

theorem anyPointer_eq_false {ds : List Datum} :
    anyPointer ds = false ↔ ∀ d ∈ ds, d.hasPointer = false := by
  induction ds with
  | nil => simp [anyPointer]
  | cons d ds ih => simp [anyPointer, ih]

end Datum

/-- Equality of places does not depend on their numbers, their order does. -/
def IntPredicate.isEquality : IntPredicate → Bool
  | .eq | .ne => true
  | _ => false

theorem forall₂_imp_left {α β : Type} {R S : α → β → Prop} {xs : List α} {ys : List β}
    (h : List.Forall₂ R xs ys) (hi : ∀ x ∈ xs, ∀ y, R x y → S x y) : List.Forall₂ S xs ys := by
  induction h with
  | nil => exact .nil
  | cons hxy _ ih =>
    exact .cons (hi _ (by simp) _ hxy) (ih fun x hx => hi x (by simp [hx]))

theorem getElem?_extended {α : Type} {l l' : List α} {n : Nat} {a : α} (h : l <+: l')
    (hn : l[n]? = some a) : l'[n]? = some a := by
  obtain ⟨hlt, rfl⟩ := List.getElem?_eq_some_iff.mp hn
  exact List.prefix_iff_getElem?.mp h n hlt

section

variable {places places' : List Nat} {p q p' q' : Pointer} {target target' : Option Pointer}
  {d d' a a' b b' : Datum} {ds ds' es es' : List Datum}

theorem Pointer.Mirrors.mono (h : p.Mirrors places q) (hp : places <+: places') :
    p.Mirrors places' q :=
  ⟨getElem?_extended hp h.allocation, h.index, h.path⟩

/-- Places are told apart alike in both memories. -/
theorem Pointer.Mirrors.eq_iff (hn : places.Nodup) (h : p.Mirrors places q)
    (h' : p'.Mirrors places q') : p = p' ↔ q = q' := by
  have hlt := (List.getElem?_eq_some_iff.mp h.allocation).1
  have hallocation : p.allocation = p'.allocation ↔ q.allocation = q'.allocation := by
    rw [← List.getElem?_inj hlt hn, h.allocation, h'.allocation, Option.some_inj]
  rw [Pointer.mk.injEq, Pointer.mk.injEq, hallocation, h.index, h'.index, h.path, h'.path]

namespace Datum

open Fault

theorem Mirrors.mono (hp : places <+: places') (h : d.Mirrors places d') :
    d.Mirrors places' d' := by
  induction d using memberwise generalizing d' with
  | scalar d hd =>
    cases h with
    | pointer h => exact .pointer (h.mono hp)
    | aggregate _ => exact (hd _ rfl).elim
    | _ => constructor
  | members ds ih =>
    cases h with
    | aggregate h => exact .aggregate (forall₂_imp_left h fun d hd d' h => ih d hd h)

theorem Mirrors.refl (h : d.hasPointer = false) : d.Mirrors places d := by
  induction d using memberwise with
  | scalar d hd =>
    cases d with
    | pointer p => cases h
    | aggregate ds => exact (hd ds rfl).elim
    | _ => constructor
  | members ds ih =>
    have hds := anyPointer_eq_false.mp h
    exact .aggregate (List.forall₂_same.mpr fun d hd => ih d hd (hds d hd))

theorem Mirrors.eq_of_no_pointer (h : d.Mirrors places d') (hd : d.hasPointer = false) :
    d' = d := by
  induction d using memberwise generalizing d' with
  | scalar d hs =>
    cases h with
    | pointer _ => cases hd
    | aggregate _ => exact (hs _ rfl).elim
    | _ => rfl
  | members ds ih =>
    cases h with
    | aggregate h =>
      have hds := anyPointer_eq_false.mp hd
      have heq : List.Forall₂ (· = ·) _ ds := (forall₂_imp_left h fun d hd d' h =>
        ih d hd h (hds d hd)).flip
      rw [List.forall₂_eq_eq_eq] at heq
      rw [heq]

/-- Zeros hold no places. -/
theorem mirrors_zero (t : TypeTable) (id : TypeId) :
    (t.zero id).Mirrors places (t.zero id) := by
  unfold TypeTable.zero
  generalize t.size + 1 = fuel
  induction fuel generalizing id with
  | zero => exact .void
  | succ fuel ih =>
    unfold TypeTable.zero.build
    split
    · exact .int _ _
    · exact .single _
    · exact .double _
    · exact .null
    · exact .aggregate (List.forall₂_same.mpr fun d hd => List.eq_of_mem_replicate hd ▸ ih _)
    · exact .aggregate (List.forall₂_same.mpr fun d hd => List.eq_of_mem_replicate hd ▸ ih _)
    · refine .aggregate (List.forall₂_same.mpr fun d hd => ?_)
      obtain ⟨field, -, rfl⟩ := List.mem_map.mp hd
      exact ih field
    · exact .void
    · exact .void
    · exact .void

/-! ### Readings and members -/

theorem Mirrors.asInt (h : d.Mirrors places d') : Entails d.asInt d'.asInt (· = ·) := by
  cases h with
  | int bits word => exact entails_ok rfl
  | _ => exact entails_error _ _

theorem Mirrors.asWord (h : d.Mirrors places d') : Entails d.asWord d'.asWord (· = ·) :=
  entails_map h.asInt fun _ _ he => congrArg Prod.snd he

theorem Mirrors.asSigned (h : d.Mirrors places d') : Entails d.asSigned d'.asSigned (· = ·) :=
  entails_map h.asInt fun _ _ he => he ▸ rfl

theorem Mirrors.asBool (h : d.Mirrors places d') : Entails d.asBool d'.asBool (· = ·) :=
  entails_map h.asWord fun _ _ he => he ▸ rfl

theorem Mirrors.asPointer (h : d.Mirrors places d') :
    Entails d.asPointer d'.asPointer (Option.Rel (Pointer.Mirrors places)) := by
  cases h with
  | null => exact entails_ok .none
  | pointer h => exact entails_ok (.some h)
  | _ => exact entails_error _ _

theorem Mirrors.asMembers (h : d.Mirrors places d') :
    Entails d.asMembers d'.asMembers (List.Forall₂ (Mirrors places)) := by
  cases h with
  | aggregate h => exact entails_ok h
  | _ => exact entails_error _ _

theorem forall₂_lookup {α β : Type} {R : α → β → Prop} {xs : List α} {ys : List β} {x : α} {i : Nat}
    (h : List.Forall₂ R xs ys) (hx : xs[i]? = some x) : ∃ y, ys[i]? = some y ∧ R x y := by
  induction h generalizing i with
  | nil => simp at hx
  | cons hxy _ ih =>
    cases i with
    | zero =>
      obtain rfl : _ = x := by simpa using hx
      exact ⟨_, rfl, hxy⟩
    | succ i => exact ih (by simpa using hx)

theorem pick_mirrors (h : List.Forall₂ (Mirrors places) ds ds') (index : Nat) :
    Entails (pick ds index) (pick ds' index) (Mirrors places) := by
  unfold pick
  cases hd : ds[index]? with
  | none => exact entails_error _ _
  | some d =>
    obtain ⟨d', hd', hm⟩ := forall₂_lookup h hd
    rw [hd']
    exact entails_ok hm

theorem forall₂_set {α β : Type} {R : α → β → Prop} {xs : List α} {ys : List β} {x : α} {y : β}
    (h : List.Forall₂ R xs ys) (i : Nat) (hxy : R x y) :
    List.Forall₂ R (xs.set i x) (ys.set i y) := by
  induction h generalizing i with
  | nil => exact .nil
  | cons h hs ih =>
    cases i with
    | zero => exact .cons hxy hs
    | succ i => exact .cons h (ih i)

theorem put_mirrors (h : List.Forall₂ (Mirrors places) ds ds') (index : Nat)
    (hd : d.Mirrors places d') :
    Entails (put ds index d) (put ds' index d') (Mirrors places) := by
  unfold put
  rw [← h.length_eq]
  split
  · exact entails_ok (.aggregate (forall₂_set h index hd))
  · exact entails_error _ _

/-! ### Places inside a cell -/

theorem Mirrors.walk (h : d.Mirrors places d') {path : List Nat} (hw : d.walk path = some a) :
    ∃ a', d'.walk path = some a' ∧ a.Mirrors places a' := by
  induction path generalizing d d' with
  | nil =>
    rw [Datum.walk] at hw
    obtain rfl := Option.some_inj.mp hw
    exact ⟨d', by rw [Datum.walk], h⟩
  | cons step path ih =>
    cases h with
    | aggregate h =>
      rw [Datum.walk, Option.bind_eq_some_iff] at hw
      obtain ⟨member, hm, hw⟩ := hw
      obtain ⟨member', hm', hr⟩ := forall₂_lookup h hm
      rw [Datum.walk, hm']
      exact ih hr hw
    | _ => cases hw

theorem Mirrors.replace (h : d.Mirrors places d') (ha : a.Mirrors places a') {path : List Nat}
    (hr : Datum.replace a d path = some b) :
    ∃ b', Datum.replace a' d' path = some b' ∧ b.Mirrors places b' := by
  induction path generalizing d d' b with
  | nil =>
    rw [Datum.replace] at hr
    obtain rfl := Option.some_inj.mp hr
    exact ⟨a', by rw [Datum.replace], ha⟩
  | cons step path ih =>
    cases h with
    | aggregate h =>
      rw [Datum.replace] at hr
      simp only [Option.bind_eq_bind, Option.bind_eq_some_iff, Option.pure_def,
        Option.some_inj] at hr
      obtain ⟨member, hm, changed, hc, rfl⟩ := hr
      obtain ⟨member', hm', hmember⟩ := forall₂_lookup h hm
      obtain ⟨changed', hc', hchanged⟩ := ih hmember hc
      refine ⟨_, ?_, .aggregate (forall₂_set h step hchanged)⟩
      rw [Datum.replace, hm', Option.bind_eq_bind, Option.bind_some, hc']
      rfl
    | _ => cases hr

/-! ### Member by member -/

theorem lanewiseAll_mirrors {op : Datum → Datum → Except Fault Datum}
    (h : ∀ d ∈ ds, ∀ d' e e', d.Mirrors places d' → Mirrors places e e' →
      Entails (lanewise op d e) (lanewise op d' e') (Mirrors places))
    (hd : List.Forall₂ (Mirrors places) ds ds') (he : List.Forall₂ (Mirrors places) es es') :
    Entails (lanewiseAll op ds es) (lanewiseAll op ds' es') (List.Forall₂ (Mirrors places)) := by
  induction hd generalizing es es' with
  | nil => exact entails_ok .nil
  | cons hd _ ih =>
    cases he with
    | nil => exact entails_ok .nil
    | cons he hes =>
      rw [lanewiseAll, lanewiseAll]
      refine entails_bind (h _ (by simp) _ _ _ hd he) fun d d' hd => ?_
      refine entails_bind (ih (fun d hd => h d (by simp [hd])) hes) fun ds ds' hds => ?_
      exact entails_ok (.cons hd hds)

/-- An operation that is well-behaved as long as its first operand stays among some data. -/
theorem lanewise_mirrors {op : Datum → Datum → Except Fault Datum} {P : Datum → Prop}
    (hp : ∀ ds, P (aggregate ds) → ∀ d ∈ ds, P d)
    (hop : ∀ a a' b b', P a → a.Mirrors places a' → b.Mirrors places b' →
      Entails (op a b) (op a' b') (Mirrors places))
    (h : P a) (ha : a.Mirrors places a') (hb : b.Mirrors places b') :
    Entails (lanewise op a b) (lanewise op a' b') (Mirrors places) := by
  induction a using memberwise generalizing a' b b' with
  | scalar a hs =>
    have hs' : ∀ ds, a' ≠ aggregate ds := by
      rintro ds rfl
      cases ha with
      | aggregate _ => exact hs _ rfl
    rw [lanewise.eq_2 op a b fun _ _ he _ => hs _ he,
      lanewise.eq_2 op a' b' fun _ _ he _ => hs' _ he]
    exact hop a a' b b' h ha hb
  | members ds ih =>
    cases hb with
    | aggregate hes =>
      cases ha with
      | aggregate hds =>
        rw [lanewise, lanewise, hds.length_eq, hes.length_eq]
        split
        · refine entails_map ?_ fun _ _ hm => .aggregate hm
          exact lanewiseAll_mirrors (fun d hd d' e e' => ih d hd (hp ds h d hd)) hds hes
        · exact entails_error _ _
    | pointer hb =>
      cases ha with
      | aggregate hds => exact hop _ _ _ _ h (.aggregate hds) (.pointer hb)
    | _ =>
      cases ha with
      | aggregate hds => exact hop _ _ _ _ h (.aggregate hds) (by constructor)

/-! ### Operators -/

theorem binaryScalar_mirrors (host : Host) (op : BinaryOp) (ha : a.Mirrors places a')
    (hb : b.Mirrors places b') :
    Entails (binaryScalar host op a b) (binaryScalar host op a' b') (Mirrors places) := by
  cases ha with
  | int bits word =>
    cases hb with
    | int _ _ =>
      rw [binaryScalar]
      split
      · exact entails_error _ _
      · exact entails_map (entails_self fun _ _ => rfl) fun _ _ he => he ▸ .int _ _
    | _ => exact entails_error _ _
  | single x =>
    cases hb with
    | single _ => exact entails_map (entails_self fun _ _ => rfl) fun _ _ he => he ▸ .single _
    | _ => exact entails_error _ _
  | double x =>
    cases hb with
    | double _ => exact entails_map (entails_self fun _ _ => rfl) fun _ _ he => he ▸ .double _
    | _ => exact entails_error _ _
  | _ => exact entails_error _ _

theorem binary_mirrors (host : Host) (op : BinaryOp) (ha : a.Mirrors places a')
    (hb : b.Mirrors places b') :
    Entails (binary host op a b) (binary host op a' b') (Mirrors places) :=
  lanewise_mirrors (P := fun _ => True) (fun _ _ _ _ => trivial)
    (fun _ _ _ _ _ => binaryScalar_mirrors host op) trivial ha hb

theorem fcmpScalar_mirrors (pred : FloatPredicate) (ha : a.Mirrors places a')
    (hb : b.Mirrors places b') :
    Entails (fcmpScalar pred a b) (fcmpScalar pred a' b') (Mirrors places) := by
  cases ha with
  | single x =>
    cases hb with
    | single _ => exact entails_ok (.int _ _)
    | _ => exact entails_error _ _
  | double x =>
    cases hb with
    | double _ => exact entails_ok (.int _ _)
    | _ => exact entails_error _ _
  | _ => exact entails_error _ _

theorem fcmp_mirrors (pred : FloatPredicate) (ha : a.Mirrors places a')
    (hb : b.Mirrors places b') :
    Entails (fcmp pred a b) (fcmp pred a' b') (Mirrors places) :=
  lanewise_mirrors (P := fun _ => True) (fun _ _ _ _ => trivial)
    (fun _ _ _ _ _ => fcmpScalar_mirrors pred) trivial ha hb

theorem comparePointers_mirrors {pred : IntPredicate} (hpred : pred.isEquality)
    (hn : places.Nodup) {p q p' q' : Option Pointer}
    (hp : Mirrors places (pointer p) (pointer p')) (hq : Mirrors places (pointer q) (pointer q')) :
    comparePointers pred p q = comparePointers pred p' q' := by
  have hsame : p = q ↔ p' = q' := by
    cases hp with
    | null =>
      cases hq with
      | null => simp
      | pointer _ => simp
    | pointer hp =>
      cases hq with
      | null => simp
      | pointer hq => simpa using hp.eq_iff hn hq
  cases pred with
  | eq => simp [comparePointers, hsame]
  | ne => simp [comparePointers, hsame]
  | _ => cases hpred

theorem icmpScalar_mirrors {pred : IntPredicate} (hn : places.Nodup)
    (hpred : pred.isEquality ∨ a.hasPointer = false) (ha : a.Mirrors places a')
    (hb : b.Mirrors places b') :
    Entails (icmpScalar pred a b) (icmpScalar pred a' b') (Mirrors places) := by
  have places_equal {p q p' q' : Option Pointer} (hp : Mirrors places (pointer p) (pointer p'))
      (hq : Mirrors places (pointer q) (pointer q')) (hpred : pred.isEquality) :
      Entails (icmpScalar pred (pointer p) (pointer q)) (icmpScalar pred (pointer p') (pointer q'))
        (Mirrors places) := by
    rw [icmpScalar, icmpScalar, comparePointers_mirrors hpred hn hp hq]
    exact entails_ok (.int _ _)
  cases ha with
  | int bits word =>
    cases hb with
    | int _ _ => exact entails_ok (.int _ _)
    | _ => exact entails_error _ _
  | null =>
    have hpred : pred.isEquality := hpred.resolve_right (by simp [hasPointer])
    cases hb with
    | null => exact places_equal .null .null hpred
    | pointer hq => exact places_equal .null (.pointer hq) hpred
    | _ => exact entails_error _ _
  | pointer hp =>
    have hpred : pred.isEquality := hpred.resolve_right (by simp [hasPointer])
    cases hb with
    | null => exact places_equal (.pointer hp) .null hpred
    | pointer hq => exact places_equal (.pointer hp) (.pointer hq) hpred
    | _ => exact entails_error _ _
  | _ => exact entails_error _ _

/-- Without pointers among the members, or when only their equality matters, a comparison comes to
the same. -/
theorem icmp_mirrors {pred : IntPredicate} (hn : places.Nodup)
    (hpred : pred.isEquality ∨ a.hasPointer = false) (ha : a.Mirrors places a')
    (hb : b.Mirrors places b') :
    Entails (icmp pred a b) (icmp pred a' b') (Mirrors places) := by
  refine lanewise_mirrors (P := fun d => pred.isEquality ∨ d.hasPointer = false)
    (fun ds h d hd => h.imp_right fun h => anyPointer_eq_false.mp h d hd)
    (fun _ _ _ _ h => icmpScalar_mirrors hn h) hpred ha hb

/-! ### Selection -/

theorem choose_mirrors {bits bits' : List Datum} (hb : List.Forall₂ (Mirrors places) bits bits')
    (hd : List.Forall₂ (Mirrors places) ds ds') (he : List.Forall₂ (Mirrors places) es es') :
    Entails (choose bits ds es) (choose bits' ds' es') (List.Forall₂ (Mirrors places)) := by
  induction hb generalizing ds ds' es es' with
  | nil => exact entails_ok .nil
  | cons hbit _ ih =>
    cases hd with
    | nil => exact entails_ok .nil
    | cons hd hds =>
      cases he with
      | nil => exact entails_ok .nil
      | cons he hes =>
        rw [choose, choose]
        refine entails_bind hbit.asBool fun taken _ ht => ?_
        subst ht
        refine entails_bind (ih hds hes) fun _ _ hrest => entails_ok (.cons ?_ hrest)
        cases taken with
        | false => exact he
        | true => exact hd

theorem select_mirrors {c c' : Datum} (hc : c.Mirrors places c') (ha : a.Mirrors places a')
    (hb : b.Mirrors places b') : Entails (select c a b) (select c' a' b') (Mirrors places) := by
  have scalar : Entails (do return if ← c.asBool then a else b : Except Fault Datum)
      (do return if ← c'.asBool then a' else b') (Mirrors places) := by
    refine entails_bind hc.asBool fun taken _ ht => entails_ok ?_
    subst ht
    cases taken with
    | false => exact hb
    | true => exact ha
  cases hc with
  | aggregate hbits =>
    rw [select, select]
    refine entails_bind ha.asMembers fun ds ds' hds => ?_
    refine entails_bind hb.asMembers fun es es' hes => ?_
    rw [hbits.length_eq, hds.length_eq, hes.length_eq]
    split
    · exact entails_map (choose_mirrors hbits hds hes) fun _ _ h => .aggregate h
    · exact entails_error _ _
  | _ => exact scalar

theorem shuffle_mirrors {mask mask' : List Datum} (hd : List.Forall₂ (Mirrors places) ds ds')
    (he : List.Forall₂ (Mirrors places) es es')
    (hm : List.Forall₂ (Mirrors places) mask mask') :
    Entails (shuffle ds es mask) (shuffle ds' es' mask') (Mirrors places) := by
  refine entails_map (entails_mapM hm fun d d' hd' => ?_) fun _ _ h => .aggregate h
  refine entails_bind hd'.asWord fun word _ hw => ?_
  subst hw
  exact pick_mirrors (List.rel_append hd he) _

/-! ### Conversions -/

theorem mirrors_ofFloat (target : Ty) (number : Double) :
    (ofFloat target number).Mirrors places (ofFloat target number) := by
  unfold ofFloat
  split
  · exact .single _
  · exact .double _

theorem bitcast_mirrors (target : Ty) (h : d.Mirrors places d') :
    Entails (bitcast target d) (bitcast target d') (Mirrors places) := by
  cases h with
  | int bits word =>
    cases target with
    | int bits => exact entails_ok (.int _ _)
    | float => exact entails_ok (.single _)
    | double => exact entails_ok (.double _)
    | _ => exact entails_error _ _
  | single x =>
    cases target with
    | int bits => exact entails_ok (.int _ _)
    | float | double => exact entails_ok (.single _)
    | _ => exact entails_error _ _
  | double x =>
    cases target with
    | int bits => exact entails_ok (.int _ _)
    | float | double => exact entails_ok (.double _)
    | _ => exact entails_error _ _
  | null =>
    cases target with
    | pointer _ => exact entails_ok .null
    | _ => exact entails_error _ _
  | pointer h =>
    cases target with
    | pointer _ => exact entails_ok (.pointer h)
    | _ => exact entails_error _ _
  | aggregate _ | void => exact entails_error _ _

theorem Mirrors.asFloat (h : d.Mirrors places d') : Entails d.asFloat d'.asFloat (· = ·) := by
  cases h with
  | single x | double x => exact entails_ok rfl
  | _ => exact entails_error _ _

theorem castScalar_mirrors (op : CastOp) (target : Ty) (h : d.Mirrors places d') :
    Entails (castScalar op target d) (castScalar op target d') (Mirrors places) := by
  cases op with
  | bitcast => exact bitcast_mirrors target h
  | trunc | zext | sext =>
    cases target with
    | int bits =>
      cases h with
      | int _ _ => exact entails_ok (.int _ _)
      | _ => exact entails_error _ _
    | _ => exact entails_error _ _
  | fptoui | fptosi =>
    cases target with
    | int bits => exact entails_bind h.asFloat fun x _ he => he ▸ entails_ok (.int _ _)
    | _ => exact entails_error _ _
  | uitofp | sitofp =>
    cases h with
    | int _ _ => exact entails_ok (mirrors_ofFloat target _)
    | _ => exact entails_error _ _
  | fpext | fptrunc =>
    exact entails_bind h.asFloat fun x _ he => he ▸ entails_ok (mirrors_ofFloat target x)

theorem castAll_mirrors {t : TypeTable} {op : CastOp} {type : TypeId}
    (h : ∀ d ∈ ds, ∀ d' type, d.Mirrors places d' →
      Entails (cast t op type d) (cast t op type d') (Mirrors places))
    (hd : List.Forall₂ (Mirrors places) ds ds') :
    Entails (castAll t op type ds) (castAll t op type ds') (List.Forall₂ (Mirrors places)) := by
  induction hd with
  | nil => exact entails_ok .nil
  | cons hd _ ih =>
    rw [castAll, castAll]
    refine entails_bind (h _ (by simp) _ type hd) fun d d' hd => ?_
    exact entails_bind (ih fun d hd => h d (by simp [hd])) fun ds ds' hds =>
      entails_ok (.cons hd hds)

theorem cast_mirrors {t : TypeTable} {op : CastOp} {type : TypeId} (h : d.Mirrors places d') :
    Entails (cast t op type d) (cast t op type d') (Mirrors places) := by
  induction d using memberwise generalizing d' type with
  | scalar d hs =>
    have hs' : ∀ ds, d' ≠ aggregate ds := by
      rintro ds rfl
      cases h with
      | aggregate _ => exact hs _ rfl
    rw [cast.eq_2 t op type d fun _ he => hs _ he, cast.eq_2 t op type d' fun _ he => hs' _ he]
    exact castScalar_mirrors op _ h
  | members ds ih =>
    cases h with
    | aggregate hds =>
      rw [cast, cast, hds.length_eq]
      split
      · exact entails_map (castAll_mirrors (fun d hd d' type h => ih d hd h) hds)
          fun _ _ h => .aggregate h
      · exact entails_error _ _

end Datum

/-! ### Places reached from others -/

namespace Setting

open Fault

theorem advance_mirrors (host : Host) (h : p.Mirrors places q) (offset : Int) :
    Entails (advance host p offset) (advance host q offset) (Pointer.Mirrors places) := by
  unfold advance
  rw [h.path, h.index]
  split
  · refine entails_bind (entails_self fun _ _ => rfl) fun sum _ he => ?_
    subst he
    refine entails_bind (entails_self fun _ _ => rfl) fun index _ he => ?_
    subst he
    exact entails_ok ⟨h.allocation, rfl, rfl⟩
  · refine entails_bind (entails_self fun _ _ => rfl) fun index _ he => ?_
    subst he
    exact entails_ok ⟨h.allocation, rfl, rfl⟩

theorem enter_mirrors (h : p.Mirrors places q) (index : Int) :
    Entails (enter p index) (enter q index) (Pointer.Mirrors places) := by
  unfold enter
  refine entails_bind (entails_self fun _ _ => rfl) fun index _ he => ?_
  subst he
  refine entails_ok ⟨h.allocation, h.index, ?_⟩
  rw [h.path]

end Setting

end
end SsaKit
