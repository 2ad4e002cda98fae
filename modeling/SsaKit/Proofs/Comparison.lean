import SsaKit.Proofs.Acceptance
import SsaKit.Proofs.Operation

/-! The predicates of one comparison against each other: which of them exclude each other, and where
none of the three that should cover every case holds. -/
namespace SsaKit

namespace IntPredicate

/-- The predicate that holds where the given one does not. -/
def negated : IntPredicate → IntPredicate
  | eq => ne | ne => eq
  | ugt => ule | ule => ugt
  | uge => ult | ult => uge
  | sgt => sle | sle => sgt
  | sge => slt | slt => sge

/-- The answers of all predicates on one pair of values are those of two total orders with one
equality. -/
structure Consistent (holds : IntPredicate → Bool) : Prop where
  negated : ∀ pred, holds pred.negated = !holds pred
  unsigned : [holds ult, holds eq, holds ugt].count true = 1
  signed : [holds slt, holds eq, holds sgt].count true = 1

variable {ul ur a b : UInt64} {sl sr : Int} {bits : Nat}

theorem holds_negated (pred : IntPredicate) :
    pred.negated.holds ul ur sl sr = !pred.holds ul ur sl sr := by
  rw [Bool.eq_iff_iff]
  cases pred <;> simp [negated, holds]

/-- Of two numbers one is less, or they are equal. -/
theorem one_holds {p q r : Prop} [Decidable p] [Decidable q] [Decidable r] (h : p ∨ q ∨ r)
    (hpq : ¬(p ∧ q)) (hpr : ¬(p ∧ r)) (hqr : ¬(q ∧ r)) :
    [decide p, decide q, decide r].count true = 1 := by
  obtain hp | hq | hr := h
  · have hq : ¬q := fun hq => hpq ⟨hp, hq⟩
    have hr : ¬r := fun hr => hpr ⟨hp, hr⟩
    simp [hp, hq, hr]
  · have hp : ¬p := fun hp => hpq ⟨hp, hq⟩
    have hr : ¬r := fun hr => hqr ⟨hq, hr⟩
    simp [hp, hq, hr]
  · have hp : ¬p := fun hp => hpr ⟨hp, hr⟩
    have hq : ¬q := fun hq => hqr ⟨hq, hr⟩
    simp [hp, hq, hr]

theorem holds_consistent (h : sl = sr ↔ ul = ur) : Consistent fun pred => pred.holds ul ur sl sr where
  negated := holds_negated
  unsigned := by
    simp only [holds, UInt64.lt_iff_toNat_lt, ← UInt64.toNat_inj]
    exact one_holds (by omega) (by omega) (by omega) (by omega)
  signed := by
    simp only [holds, ← h]
    exact one_holds (by omega) (by omega) (by omega) (by omega)

/-- Two words of a width that read the same are the same. -/
theorem signed_inj (ha : Word.mask bits a = a) (hb : Word.mask bits b = b) :
    Word.signed bits a = Word.signed bits b ↔ a = b := by
  refine ⟨fun h => ?_, fun h => h ▸ rfl⟩
  obtain rfl | hpos := Nat.eq_zero_or_pos bits
  · rw [← ha, ← hb, ← UInt64.toNat_inj, Word.toNat_mask, Word.toNat_mask]
    simp [Nat.mod_one]
  · have hmod := congrArg (· % ((2 ^ min bits 64 : Nat) : Int)) h
    simp only [Word.signed_eq_bmod hpos, Int.bmod_emod] at hmod
    rw [← ha, ← hb, ← UInt64.toNat_inj, Word.toNat_mask, Word.toNat_mask]
    exact_mod_cast hmod

theorem onWords_consistent (bits : Nat) (a b : UInt64) :
    Consistent fun pred => pred.onWords bits a b :=
  holds_consistent (signed_inj (Word.mask_mask bits a) (Word.mask_mask bits b))

end IntPredicate

namespace Datum

open IntPredicate

variable {p q : Option Pointer}

/-- Null has number zero, the first allocation number one. -/
def placeNumber (p : Option Pointer) : Nat := (p.map (·.allocation + 1)).getD 0

def cellNumber (p : Option Pointer) : Int := (p.map (·.index)).getD 0

theorem toNat_addressOf (p : Option Pointer) : (addressOf p).toNat =
    placeNumber p % 2 ^ 32 * 2 ^ 32 + (cellNumber p % 2 ^ 32).toNat := by
  cases p with
  | none => rfl
  | some p =>
    have hcell : (p.index % 2 ^ 32).toNat < 2 ^ 32 := by omega
    have hword : (p.index % 2 ^ 32).toNat % 2 ^ 64 = (p.index % 2 ^ 32).toNat :=
      Nat.mod_eq_of_lt (by omega)
    have hnumber : ((p.allocation + 1) % 2 ^ 64) <<< 32 % 2 ^ 64 =
        ((p.allocation + 1) % 2 ^ 32) <<< 32 := by
      rw [Nat.shiftLeft_eq, Nat.shiftLeft_eq]
      omega
    have hamount : (32 : UInt64).toNat % 64 = 32 := rfl
    simp only [addressOf, placeNumber, cellNumber, Pointer.address, Option.map_some,
      Option.getD_some, UInt64.toNat_or, UInt64.toNat_shiftLeft,
      UInt64.toNat_ofNat', hword, hamount, hnumber]
    rw [← Nat.shiftLeft_add_eq_or_of_lt hcell, Nat.shiftLeft_eq]

/-- Addresses tell numbers apart modulo half a word, and no paths. -/
theorem addressOf_eq_iff : addressOf p = addressOf q ↔
    placeNumber p % 2 ^ 32 = placeNumber q % 2 ^ 32 ∧ cellNumber p % 2 ^ 32 = cellNumber q % 2 ^ 32 := by
  rw [← UInt64.toNat_inj, toNat_addressOf, toNat_addressOf]
  omega

theorem comparePointers_negated (pred : IntPredicate) (p q : Option Pointer) :
    comparePointers pred.negated p q = !comparePointers pred p q := by
  rw [Bool.eq_iff_iff]
  cases pred <;> simp [comparePointers, negated, holds]

/-- Pointers are ordered consistently where the same address is the same place. -/
theorem comparePointers_consistent :
    Consistent (comparePointers · p q) ↔ p = q ∨ addressOf p ≠ addressOf q := by
  constructor
  · intro h
    by_contra hne
    obtain ⟨hpq, haddress⟩ : p ≠ q ∧ addressOf p = addressOf q := by simpa [not_or] using hne
    simpa [comparePointers, holds, hpq, haddress] using h.unsigned
  · intro h
    have hsame : addressOf p = addressOf q ↔ p = q := by
      refine ⟨fun haddress => h.resolve_right (absurd haddress), fun hpq => hpq ▸ rfl⟩
    have hwords : (addressOf p).toInt64.toInt = (addressOf q).toInt64.toInt ↔
        addressOf p = addressOf q := by
      rw [Int64.toInt_inj]
      exact ⟨fun h => congrArg Int64.toUInt64 h, fun h => congrArg UInt64.toInt64 h⟩
    have hanswers : (comparePointers · p q) = fun pred => pred.holds (addressOf p) (addressOf q)
        (addressOf p).toInt64.toInt (addressOf q).toInt64.toInt := by
      funext pred
      cases pred with
      | eq | ne => simp [comparePointers, holds, hsame]
      | _ => rfl
    rw [hanswers]
    exact holds_consistent hwords

/-- Comparisons of integers are consistent at every width. Of pointers, a predicate always denies the
negated one; one of the three holds exactly if the pointers are the same, or their allocations or cells
differ modulo `2 ^ 32`, whatever their paths. -/
theorem icmp_consistent (bits : Nat) (a b : UInt64) (p q : Option Pointer) :
    (∃ answer : IntPredicate → Bool,
      (∀ pred, icmp pred (.int bits a) (.int bits b) = .ok (.ofBool (answer pred))) ∧
        Consistent answer) ∧
    ∃ answer : IntPredicate → Bool,
      (∀ pred, icmp pred (.pointer p) (.pointer q) = .ok (.ofBool (answer pred))) ∧
        (∀ pred, answer pred.negated = !answer pred) ∧
        (Consistent answer ↔ p = q ∨ placeNumber p % 2 ^ 32 ≠ placeNumber q % 2 ^ 32 ∨
          cellNumber p % 2 ^ 32 ≠ cellNumber q % 2 ^ 32) := by
  refine ⟨⟨_, fun _ => rfl, onWords_consistent bits a b⟩,
    ⟨_, fun _ => rfl, fun pred => comparePointers_negated pred p q, ?_⟩⟩
  rw [comparePointers_consistent, Ne, addressOf_eq_iff, not_and_or]

end Datum

/-- A program that compares the two fields of a struct in three ways. -/
def pairing : List Call :=
  [.types (.ofType (.int 32)),
    .types (.ofType (.struct none (some [⟨0⟩, ⟨0⟩]) false)),
    .types (.ofType (.int 1)),
    .constant (.integer ⟨0⟩ 0),
    .constant (.integer ⟨0⟩ 1),
    .symbol (.declareFunction "main" ⟨2⟩ [] false),
    .layout (.appendBlock ⟨0⟩ "entry"),
    .setCursor (some { block := ⟨0⟩ }),
    .emission (.alloca ⟨1⟩),
    .emission (.elementPtr ⟨2⟩ [⟨0⟩, ⟨0⟩]),
    .emission (.elementPtr ⟨2⟩ [⟨0⟩, ⟨1⟩]),
    .emission (.icmp .ult ⟨3⟩ ⟨4⟩),
    .emission (.icmp .eq ⟨3⟩ ⟨4⟩),
    .emission (.icmp .ugt ⟨3⟩ ⟨4⟩),
    .emission (.binary .or ⟨5⟩ ⟨6⟩),
    .emission (.binary .or ⟨8⟩ ⟨7⟩),
    .emission (.ret ⟨9⟩)]

/-- The builder after those calls. -/
def paired : Builder := Builder.replay { module := { name := "pairing" } } pairing

/-- None of the two fields comes first, and they are not equal. -/
theorem paired_neither : paired.Attained ∧ paired.module.verify = .ok () ∧
    (⟨paired.module, .standard, {}⟩ : Setting).runFunction ⟨0⟩ [] = .ok (.int 1 0) :=
  ⟨(Builder.Replays.reachable (by decide +kernel) (Builder.reachable_empty "pairing")).attained,
    by decide +kernel, by decide +kernel⟩

end SsaKit
