import Mathlib.Data.List.Forall2
import SsaKit.Machine.Run

/-! Where computations on run-time values end, and that none of them breaks control flow. -/
namespace SsaKit

/-! ### Comparing -/

namespace Datum

mutual

def same : Datum → Datum → Bool
  | int n w, int n' w' => n == n' && w == w'
  | single x, single y => x == y
  | double x, double y => x == y
  | pointer p, pointer q => p == q
  | aggregate l, aggregate l' => sames l l'
  | void, void => true
  | _, _ => false

def sames : List Datum → List Datum → Bool
  | [], [] => true
  | a :: l, b :: l' => a.same b && sames l l'
  | _, _ => false

end

mutual

theorem same_iff : ∀ a b : Datum, a.same b ↔ a = b
  | aggregate l, b => by cases b <;> simp [same, sames_iff l]
  | int _ _, b | single _, b | double _, b | pointer _, b | void, b => by cases b <;> simp [same]

theorem sames_iff : ∀ l l' : List Datum, sames l l' ↔ l = l'
  | [], l' => by cases l' <;> simp [sames]
  | a :: l, l' => by cases l' <;> simp [sames, same_iff a, sames_iff l]

end

end Datum

instance : DecidableEq Datum := fun a b => decidable_of_iff _ (a.same_iff b)

deriving instance DecidableEq for Fault

/-! ### Ends of computations -/

namespace Fault

variable {α β : Type} {ok ok' : α → Prop} {failed failed' : Fault → Prop}

/-- A successful computation ends in `ok` with its result, a failed one in `failed`. -/
def Ends (r : Except Fault α) (ok : α → Prop) (failed : Fault → Prop) : Prop :=
  match r with
  | .ok a => ok a
  | .error e => failed e

@[simp] theorem ends_ok (a : α) : Ends (.ok a) ok failed ↔ ok a := .rfl

@[simp] theorem ends_pure (a : α) : Ends (pure a) ok failed ↔ ok a := .rfl

@[simp] theorem ends_error (e : Fault) : Ends (.error e) ok failed ↔ failed e := .rfl

@[simp] theorem ends_throw (e : Fault) :
    Ends (throw e : Except Fault α) ok failed ↔ failed e := .rfl

theorem Ends.mono {r : Except Fault α} (h : Ends r ok failed) (hok : ∀ a, ok a → ok' a)
    (hfailed : ∀ e, failed e → failed' e) : Ends r ok' failed' := by
  cases r with
  | ok a => exact hok a h
  | error e => exact hfailed e h

@[simp] theorem ends_bind (r : Except Fault β) (next : β → Except Fault α) :
    Ends (r >>= next) ok failed ↔ Ends r (fun b => Ends (next b) ok failed) failed := by
  cases r <;> rfl

theorem Ends.bind_any {r : Except Fault β} {next : β → Except Fault α}
    (h : Ends r (fun _ => True) failed) (hn : ∀ b, Ends (next b) (fun _ => True) failed) :
    Ends (r >>= next) (fun _ => True) failed :=
  (ends_bind r next).mpr (h.mono (fun b _ => hn b) fun _ he => he)

@[simp] theorem ends_map (f : β → α) (r : Except Fault β) :
    Ends (f <$> r) ok failed ↔ Ends r (fun b => ok (f b)) failed := by
  cases r <;> rfl

theorem ends_mapM {f : β → Except Fault α} {P : β → α → Prop} {xs : List β}
    (h : ∀ x ∈ xs, Ends (f x) (P x) failed) : Ends (xs.mapM f) (List.Forall₂ P xs) failed := by
  induction xs with
  | nil => exact .nil
  | cons x xs ih =>
    rw [List.mapM_cons, ends_bind]
    refine (h x (by simp)).mono (fun a ha => ?_) fun _ he => he
    rw [ends_bind]
    exact (ih fun y hy => h y (by simp [hy])).mono (fun as has => .cons ha has) fun _ he => he

/-- Control went where no verified function lets it go. -/
def breaksControl : Fault → Bool
  | removedCallee | noBody _ | noTerminator _ _ | noIncoming _ _ | latePhi _ | notInstruction
  | notProducing _ => true
  | _ => false

/-- A value did not have the shape that an operation asks for. -/
def breaksShape : Fault → Bool
  | expectedInt _ | expectedPointer _ | expectedFloat _ | expectedAggregate _ | lengths
  | selectLengths | cannotApply _ _ _ | cannotCompare _ _ | cannotCast _ _ | unsupportedCast _ _
  | unsupportedBitcast _ _ | arithmetic (.notInteger _) | arithmetic (.notFloat _) => true
  | _ => false

/-- Some fault that has nothing to do with control flow. -/
def Calm (e : Fault) : Prop := e.breaksControl = false

/-- A member was asked for that an aggregate does not have. -/
def isMember : Fault → Bool
  | member _ _ => true
  | _ => false

/-- Some fault that has nothing to do with shapes. -/
def Shapely (e : Fault) : Prop := e.breaksShape = false

/-- Some fault that has nothing to do with shapes or members. -/
def Sober (e : Fault) : Prop := e.Shapely ∧ e.isMember = false

/-- Some fault that is reported as an error of execution, if it is reported. -/
def OfExecution (e : Fault) : Prop :=
  match e.report with
  | .ok error => error.family = .execution
  | .error _ => True

/-- Some fault of execution that has nothing to do with control flow, shapes or members. -/
def Tame (e : Fault) : Prop := e.Calm ∧ e.Sober ∧ e.OfExecution

/-- A value was asked for where there is none. -/
def isMissing : Fault → Bool
  | phiInEntry _ | undefined _ | notConstant _ | removedGlobal _ => true
  | _ => false

/-- The whole program is taken down. -/
def isCrash : Fault → Bool
  | crash _ => true
  | _ => false

/-- Some fault of computing with values that are there. -/
def Plain (e : Fault) : Prop := e.Calm ∧ e.isMissing = false

/-- Some fault of limits and memory alone. -/
def Physical (e : Fault) : Prop := e.Tame ∧ e.isMissing = false

theorem Physical.plain {e : Fault} (h : e.Physical) : e.Plain := ⟨h.1.1, h.2⟩

/-- A computation that only fails for reasons of limits, of memory and of values that are not there. -/
abbrev Tamely (r : Except Fault α) : Prop := Ends r (fun _ => True) Tame

/-- A computation that neither breaks control flow nor crashes, on values that are there. -/
abbrev Plainly (r : Except Fault α) : Prop :=
  Ends r (fun _ => True) fun e => e.Plain ∧ e.isCrash = false

/-- Some fault of limits and memory alone, which is reported. -/
def Firm (e : Fault) : Prop := e.Physical ∧ e.isCrash = false

/-- A computation that only fails for reasons of limits and memory, and never crashes. -/
abbrev Firmly (r : Except Fault α) : Prop := Ends r (fun _ => True) Firm

/-- A computation that only fails for reasons of limits and memory. -/
abbrev Physically (r : Except Fault α) : Prop := Ends r (fun _ => True) Physical

theorem plainly_map {f : β → α} {r : Except Fault β} (h : Plainly r) : Plainly (f <$> r) :=
  (ends_map f r).mpr h

theorem plainly_mapM {f : β → Except Fault α} {xs : List β} (h : ∀ x ∈ xs, Plainly (f x)) :
    Plainly (xs.mapM f) :=
  (ends_mapM (P := fun _ _ => True) h).mono (fun _ _ => trivial) fun _ he => he

end Fault

namespace Datum

open Fault

variable {d lhs rhs : Datum}

theorem asWord_plainly (d : Datum) : Plainly d.asWord := by
  cases d <;> trivial

theorem asSigned_plainly (d : Datum) : Plainly d.asSigned := by
  cases d <;> trivial

theorem asBool_plainly (d : Datum) : Plainly d.asBool := by
  cases d <;> trivial

theorem asPointer_plainly (d : Datum) : Plainly d.asPointer := by
  cases d <;> trivial

theorem asFloat_plainly (d : Datum) : Plainly d.asFloat := by
  cases d <;> trivial

theorem asMembers_plainly (d : Datum) : Plainly d.asMembers := by
  cases d <;> trivial

theorem pick_plainly (members : List Datum) (index : Nat) : Plainly (pick members index) := by
  unfold pick
  split <;> trivial

theorem put_plainly (members : List Datum) (index : Nat) (d : Datum) :
    Plainly (put members index d) := by
  unfold put
  split <;> trivial

theorem lanewise_fails {op : Datum → Datum → Except Fault Datum} {failed : Fault → Prop}
    (hlengths : failed .lengths) (h : ∀ a b, Ends (op a b) (fun _ => True) failed)
    (lhs rhs : Datum) : Ends (lanewise op lhs rhs) (fun _ => True) failed := by
  refine lanewise.induct (fun lhs rhs => Ends (lanewise op lhs rhs) (fun _ => True) failed)
    (fun lhs rhs => Ends (lanewiseAll op lhs rhs) (fun _ => True) failed) ?_ ?_ ?_ ?_ ?_ lhs rhs
  · intro lhs rhs he ih
    rw [lanewise, if_pos he, ends_map]
    exact ih
  · intro lhs rhs he
    rw [lanewise, if_neg he]
    exact hlengths
  · intro lhs rhs hn
    rw [lanewise.eq_2 op lhs rhs hn]
    exact h lhs rhs
  · intro a lhs b rhs iha ih
    rw [lanewiseAll, ends_bind]
    refine iha.mono (fun d _ => ?_) fun _ he => he
    rw [ends_bind]
    exact ih.mono (fun _ _ => trivial) fun _ he => he
  · intro lhs rhs hn
    rw [lanewiseAll.eq_2 op lhs rhs hn]
    trivial

theorem lanewise_plainly {op : Datum → Datum → Except Fault Datum}
    (h : ∀ a b, Plainly (op a b)) (lhs rhs : Datum) : Plainly (lanewise op lhs rhs) :=
  lanewise_fails ⟨⟨rfl, rfl⟩, rfl⟩ h lhs rhs

/-- Operators on values fail plainly, except for shifts that go too far where this is checked. -/
theorem binary_fails {host : Host} {failed : Fault → Prop}
    (hplain : ∀ fault : Fault, fault.Plain → fault.isCrash = false → failed fault)
    (hover : host.isChecked → failed (.crash .overflow)) (op : BinaryOp) (lhs rhs : Datum) :
    Ends (binary host op lhs rhs) (fun _ => True) failed := by
  refine lanewise_fails (hplain _ ⟨rfl, rfl⟩ rfl) (fun a b => ?_) lhs rhs
  unfold binaryScalar
  split
  · split
    · rename_i hchecked
      simp only [Bool.and_eq_true] at hchecked
      exact hover hchecked.1
    · rw [ends_map]
      cases op.onWords _ _ _ with
      | ok r => trivial
      | error failure => exact hplain _ ⟨rfl, rfl⟩ rfl
  · rw [ends_map]
    cases op.onDoubles _ _ with
    | ok r => trivial
    | error failure => exact hplain _ ⟨rfl, rfl⟩ rfl
  · rw [ends_map]
    cases op.onDoubles _ _ with
    | ok r => trivial
    | error failure => exact hplain _ ⟨rfl, rfl⟩ rfl
  · exact hplain _ ⟨rfl, rfl⟩ rfl

theorem icmp_plainly (pred : IntPredicate) (lhs rhs : Datum) : Plainly (icmp pred lhs rhs) := by
  refine lanewise_plainly (fun a b => ?_) lhs rhs
  unfold icmpScalar
  split <;> trivial

theorem fcmp_plainly (pred : FloatPredicate) (lhs rhs : Datum) : Plainly (fcmp pred lhs rhs) := by
  refine lanewise_plainly (fun a b => ?_) lhs rhs
  unfold fcmpScalar
  split <;> trivial

theorem choose_plainly (bits thens elses : List Datum) : Plainly (choose bits thens elses) := by
  induction bits generalizing thens elses with
  | nil => trivial
  | cons bit bits ih =>
    cases thens with
    | nil => trivial
    | cons a thens =>
      cases elses with
      | nil => trivial
      | cons b elses =>
        rw [choose]
        exact Ends.bind_any (asBool_plainly bit) fun _ =>
          Ends.bind_any (ih thens elses) fun _ => trivial

theorem select_plainly (cond thenValue elseValue : Datum) :
    Plainly (select cond thenValue elseValue) := by
  unfold select
  split
  · refine Ends.bind_any (asMembers_plainly thenValue) fun thens => ?_
    refine Ends.bind_any (asMembers_plainly elseValue) fun elses => ?_
    split
    · exact plainly_map (choose_plainly _ thens elses)
    · exact ⟨⟨rfl, rfl⟩, rfl⟩
  · exact Ends.bind_any (asBool_plainly cond) fun _ => trivial

theorem shuffle_plainly (lhs rhs mask : List Datum) : Plainly (shuffle lhs rhs mask) := by
  unfold shuffle
  refine plainly_map (plainly_mapM fun d _ => ?_)
  exact Ends.bind_any (asWord_plainly d) fun _ => pick_plainly _ _

theorem castScalar_plainly (op : CastOp) (target : Ty) (d : Datum) :
    Plainly (castScalar op target d) := by
  unfold castScalar
  split
  · trivial
  · trivial
  · trivial
  · exact Ends.bind_any (asFloat_plainly _) fun _ => trivial
  · exact Ends.bind_any (asFloat_plainly _) fun _ => trivial
  · trivial
  · trivial
  · exact Ends.bind_any (asFloat_plainly _) fun _ => trivial
  · exact Ends.bind_any (asFloat_plainly _) fun _ => trivial
  · unfold bitcast
    split <;> first | exact ⟨⟨rfl, rfl⟩, rfl⟩ | (split <;> trivial)
  · exact ⟨⟨rfl, rfl⟩, rfl⟩

theorem cast_plainly (t : TypeTable) (op : CastOp) (type : TypeId) (d : Datum) :
    Plainly (cast t op type d) := by
  refine cast.induct t (fun type d => Plainly (cast t op type d))
    (fun type ds => Plainly (castAll t op type ds)) ?_ ?_ ?_ ?_ ?_ type d
  · intro type members hl ih
    rw [cast, if_pos hl]
    exact plainly_map ih
  · intro type members hl
    rw [cast, if_neg hl]
    exact ⟨⟨rfl, rfl⟩, rfl⟩
  · intro type d hn
    rw [cast.eq_2 t op type d hn]
    exact castScalar_plainly _ _ _
  · intro type
    trivial
  · intro type d rest ihd ih
    rw [castAll]
    exact Ends.bind_any ihd fun _ => Ends.bind_any ih fun _ => trivial

end Datum

namespace Host

/-- A sum of offsets has 64 bits, as it is or wrapped around. -/
theorem ends_sum (host : Host) (a b : Int) {failed : Fault → Prop}
    (h : host.isChecked → failed (.crash .overflow)) :
    Fault.Ends (host.sum a b) (fun n => -2 ^ 63 ≤ n ∧ n < 2 ^ 63) failed := by
  unfold sum
  split
  · rename_i hfits
    exact hfits
  · split
    · rename_i hchecked
      exact h hchecked
    · have hlow := @Int.le_bmod (a + b) (2 ^ 64) (by decide)
      have hhigh := @Int.bmod_lt (a + b) (2 ^ 64) (by decide)
      exact ⟨by omega, by omega⟩

/-- A sum that wrapped around from above is below zero. -/
theorem eq_add_of_sum {host : Host} {a b n : Int} (h : host.sum a b = .ok n) (hn : 0 ≤ n)
    (ha : 0 ≤ a ∧ a < 2 ^ 63) (hb : -2 ^ 63 ≤ b ∧ b < 2 ^ 63) : n = a + b := by
  unfold sum at h
  split at h
  · exact (Except.ok.inj h).symm
  · split at h
    · cases h
    · obtain rfl := Except.ok.inj h
      rw [Int.bmod_def] at hn ⊢
      omega

end Host

namespace Memory

open Fault

theorem room_firmly (mem : Memory) (t : TypeTable) (type : TypeId) (count : Nat) :
    Firmly (mem.room t type count) := by
  unfold room
  dsimp only
  split <;> trivial

section

variable {host : Host} {t : TypeTable} {type : TypeId} {failed : Fault → Prop}
  (hcrash : ∀ refusal, t.zeroRefusal host type = some refusal → failed (.crash (.memory refusal)))
include hcrash

theorem build_fails : Ends (build host t type) (· = t.zero type) failed := by
  unfold build
  split
  · rename_i refusal hrefusal
    exact hcrash refusal hrefusal
  · trivial

variable (hfirm : ∀ fault : Fault, fault.Firm → failed fault)
include hfirm

/-- A zero fails firmly, unless the host has no memory for it. -/
theorem zero_fails (mem : Memory) : Ends (mem.zero host t type) (· = t.zero type) failed := by
  unfold zero
  rw [ends_bind]
  exact (room_firmly mem t type 1).mono (fun _ _ => build_fails hcrash) hfirm

theorem newRow_fails (mem : Memory) (count : Nat) (isStack : Bool) :
    Ends (mem.newRow host t type count isStack) (fun _ => True) failed := by
  unfold newRow
  rw [ends_bind]
  refine (room_firmly mem t type count).mono (fun _ _ => ?_) hfirm
  split
  · exact hfirm _ ⟨⟨⟨rfl, ⟨rfl, rfl⟩, rfl⟩, rfl⟩, rfl⟩
  · rw [ends_bind]
    exact (build_fails hcrash).mono (fun _ _ => trivial) fun _ he => he

end

theorem zero_ends (mem : Memory) (host : Host) (t : TypeTable) (type : TypeId) :
    Ends (mem.zero host t type) (· = t.zero type) Physical :=
  mem.zero_fails (fun _ _ => ⟨⟨rfl, ⟨rfl, rfl⟩, trivial⟩, rfl⟩) fun _ h => h.1

theorem newRow_physically (mem : Memory) (host : Host) (t : TypeTable) (type : TypeId)
    (count : Nat) (isStack : Bool) : Physically (mem.newRow host t type count isStack) :=
  mem.newRow_fails (fun _ _ => ⟨⟨rfl, ⟨rfl, rfl⟩, trivial⟩, rfl⟩) (fun _ h => h.1) count isStack

theorem cell_firmly (mem : Memory) (p : Pointer) : Firmly (mem.cell p) := by
  unfold cell
  refine Ends.bind_any ?_ fun row => ?_
  · unfold row
    split
    · exact ⟨⟨⟨rfl, ⟨rfl, rfl⟩, rfl⟩, rfl⟩, rfl⟩
    · split <;> trivial
  · split <;> trivial

theorem load_firmly (mem : Memory) (target : Option Pointer) : Firmly (mem.load target) := by
  unfold load
  split
  · trivial
  · refine Ends.bind_any (cell_firmly mem _) fun _ => ?_
    split <;> trivial

theorem changedCell_firmly (mem : Memory) (target : Option Pointer) (d : Datum) :
    Firmly (mem.changedCell target d) := by
  unfold changedCell
  split
  · trivial
  · refine Ends.bind_any (cell_firmly mem _) fun _ => ?_
    split <;> trivial

end Memory
end SsaKit
