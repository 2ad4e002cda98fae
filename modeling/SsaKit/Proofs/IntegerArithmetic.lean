import Mathlib.Data.Int.ModEq
import SsaKit.Proofs.Word

/-! Integer operators compute in words what they mean on numbers: at each width the result is the one
number of that width that agrees with the mathematical result modulo a power of two. -/
namespace SsaKit

namespace Word

variable {bits : Nat} {a b : UInt64}

/-- The low bits of a word. -/
def low (bits : Nat) (a : UInt64) : BitVec bits := BitVec.ofNat bits a.toNat

theorem toNat_low (bits : Nat) (a : UInt64) : (low bits a).toNat = a.toNat % 2 ^ bits :=
  BitVec.toNat_ofNat _ _

theorem toNat_mask_low (hle : bits ≤ 64) : (mask bits a).toNat = (low bits a).toNat := by
  rw [toNat_mask, Nat.min_eq_left hle, toNat_low]

theorem signed_mask (hpos : 0 < bits) (hle : bits ≤ 64) :
    signed bits (mask bits a) = (low bits a).toInt := by
  rw [BitVec.toInt_eq_toNat_bmod, ← toNat_mask_low hle, signed_eq_bmod hpos, Nat.min_eq_left hle]

theorem toNat_ofInt (z : Int) : (ofInt z).toNat = (z % 2 ^ 64).toNat := by
  simp [ofInt, Int64.ofInt]

/-! ### Congruences -/

theorem two_pow_dvd (hle : bits ≤ 64) : (2 : Int) ^ bits ∣ 2 ^ 64 := pow_dvd_pow 2 hle

/-- Cutting a word changes nothing modulo the width. -/
theorem mask_modEq (hle : bits ≤ 64) : ((mask bits a).toNat : Int) ≡ a.toNat [ZMOD 2 ^ bits] := by
  rw [toNat_mask, Nat.min_eq_left hle]
  push_cast
  exact Int.mod_modEq _ _

theorem ofInt_modEq (hle : bits ≤ 64) (z : Int) : ((ofInt z).toNat : Int) ≡ z [ZMOD 2 ^ bits] := by
  have hnonneg : 0 ≤ z % 2 ^ 64 := Int.emod_nonneg z (by decide)
  rw [toNat_ofInt, Int.toNat_of_nonneg hnonneg]
  exact (Int.mod_modEq z (2 ^ 64)).of_dvd (two_pow_dvd hle)

theorem modEq_of_emod (hle : bits ≤ 64) {n : Nat} {z : Int} (h : (n : Int) = z % 2 ^ 64) :
    (n : Int) ≡ z [ZMOD 2 ^ bits] := by
  rw [h]
  exact (Int.mod_modEq z (2 ^ 64)).of_dvd (two_pow_dvd hle)

theorem add_modEq (hle : bits ≤ 64) : ((a + b).toNat : Int) ≡ a.toNat + b.toNat [ZMOD 2 ^ bits] := by
  apply modEq_of_emod hle
  rw [UInt64.toNat_add]
  push_cast
  rfl

theorem sub_modEq (hle : bits ≤ 64) : ((a - b).toNat : Int) ≡ a.toNat - b.toNat [ZMOD 2 ^ bits] := by
  apply modEq_of_emod hle
  have hb := b.toNat_lt
  rw [UInt64.toNat_sub]
  omega

theorem mul_modEq (hle : bits ≤ 64) : ((a * b).toNat : Int) ≡ a.toNat * b.toNat [ZMOD 2 ^ bits] := by
  apply modEq_of_emod hle
  rw [UInt64.toNat_mul]
  push_cast
  rfl

/-! ### Shifts -/

/-- A shift by the width or more leaves nothing. -/
theorem shiftLeft_modEq (hle : bits ≤ 64) :
    ((if b.toNat < bits then a <<< b else 0 : UInt64).toNat : Int) ≡
      a.toNat * 2 ^ b.toNat [ZMOD 2 ^ bits] := by
  split
  · rename_i hlt
    apply modEq_of_emod hle
    have hamount : b.toNat < 64 := by omega
    rw [UInt64.toNat_shiftLeft, Nat.mod_eq_of_lt hamount, Nat.shiftLeft_eq]
    push_cast
    rfl
  · rename_i hge
    have hdvd : (2 : Int) ^ bits ∣ a.toNat * 2 ^ b.toNat :=
      (pow_dvd_pow 2 (Nat.le_of_not_lt hge)).mul_left _
    exact (Int.modEq_zero_iff_dvd.mpr hdvd).symm

theorem toNat_shiftRight (hle : bits ≤ 64) (ha : a.toNat < 2 ^ bits) :
    (if b.toNat < bits then a >>> b else 0 : UInt64).toNat = a.toNat / 2 ^ b.toNat := by
  split
  · have hamount : b.toNat < 64 := by omega
    rw [UInt64.toNat_shiftRight, Nat.mod_eq_of_lt hamount, Nat.shiftRight_eq_div_pow]
  · rename_i hge
    have hsmall : a.toNat < 2 ^ b.toNat :=
      Nat.lt_of_lt_of_le ha (Nat.pow_le_pow_right (by decide) (Nat.le_of_not_lt hge))
    rw [Nat.div_eq_of_lt hsmall]
    rfl

/-- Past its sign a number has the sign alone. -/
theorem shiftRight_min (x : BitVec bits) (n : Nat) :
    x.toInt >>> min n (bits - 1) = x.toInt / 2 ^ n := by
  obtain hn | hn := Nat.le_total n (bits - 1)
  · rw [Nat.min_eq_left hn, Int.shiftRight_eq_div_pow]
    push_cast
    rfl
  · have hlow := BitVec.le_toInt x
    have hhigh := BitVec.toInt_lt (x := x)
    have hpos : (0 : Int) < 2 ^ (bits - 1) := Int.pow_pos (by decide)
    have hpow : (2 : Int) ^ (bits - 1) ≤ 2 ^ n := by
      exact_mod_cast Nat.pow_le_pow_right (by decide) hn
    have sign {m : Int} (hm : 0 < m) (hlow : -m ≤ x.toInt) (hhigh : x.toInt < m) :
        x.toInt / m = if x.toInt < 0 then -1 else 0 := by
      rw [Int.ediv_eq_iff_of_pos hm]
      split <;> omega
    rw [Nat.min_eq_right hn, Int.shiftRight_eq_div_pow]
    push_cast
    rw [sign hpos hlow hhigh, sign (by omega) (by omega) (by omega)]

end Word

namespace BinaryOp

open Word

/-- The result of an operator as a number. Division rounds toward zero for signed operands, shifts to
the right round down. -/
def meaning (op : BinaryOp) {bits : Nat} (x y : BitVec bits) : Int :=
  match op with
  | add => x.toNat + y.toNat
  | sub => x.toNat - y.toNat
  | mul => x.toNat * y.toNat
  | udiv => x.toNat / y.toNat
  | urem => x.toNat % y.toNat
  | sdiv => x.toInt.tdiv y.toInt
  | srem => x.toInt.tmod y.toInt
  | shl => x.toNat * 2 ^ y.toNat
  | lshr => x.toNat / 2 ^ y.toNat
  | ashr => x.toInt / 2 ^ y.toNat
  | and => (x &&& y).toNat
  | or => (x ||| y).toNat
  | xor => (x ^^^ y).toNat
  | fadd | fsub | fmul | fdiv | frem => 0

/-- The result is the number of the width that is congruent to a given one. -/
def Yields (r : Except Failure UInt64) (bits : Nat) (z : Int) : Prop :=
  ∃ word, r = .ok word ∧ word.toNat < 2 ^ bits ∧ (word.toNat : Int) ≡ z [ZMOD 2 ^ bits]

variable {op : BinaryOp} {bits : Nat} {a b : UInt64} {z : Int}

theorem yields_mask (hle : bits ≤ 64) {value : UInt64} (h : (value.toNat : Int) ≡ z [ZMOD 2 ^ bits]) :
    Yields (.ok (mask bits value)) bits z :=
  ⟨_, rfl, toNat_mask_lt hle, (mask_modEq hle).trans h⟩

/-- What an operator does when it does not divide by zero. -/
theorem onWords_yields (hop : op.isFloat = false) (hpos : 0 < bits) (hle : bits ≤ 64)
    (hb : op.isDivision → mask bits b ≠ 0) :
    Yields (op.onWords bits a b) bits (op.meaning (low bits a) (low bits b)) := by
  have hx := toNat_mask_low (a := a) hle
  have hy := toNat_mask_low (a := b) hle
  have hsx := signed_mask (a := a) hpos hle
  have hsy := signed_mask (a := b) hpos hle
  cases op with
  | add =>
    apply yields_mask hle
    rw [meaning, ← hx, ← hy]
    exact add_modEq hle
  | sub =>
    apply yields_mask hle
    rw [meaning, ← hx, ← hy]
    exact sub_modEq hle
  | mul =>
    apply yields_mask hle
    rw [meaning, ← hx, ← hy]
    exact mul_modEq hle
  | udiv =>
    simp only [onWords, if_neg (hb rfl)]
    apply yields_mask hle
    rw [UInt64.toNat_div, hx, hy]
    exact .refl _
  | urem =>
    simp only [onWords, if_neg (hb rfl)]
    apply yields_mask hle
    rw [UInt64.toNat_mod, hx, hy]
    exact .refl _
  | sdiv =>
    simp only [onWords, if_neg (hb rfl), hsx, hsy]
    exact yields_mask hle (ofInt_modEq hle _)
  | srem =>
    simp only [onWords, if_neg (hb rfl), hsx, hsy]
    exact yields_mask hle (ofInt_modEq hle _)
  | shl =>
    rw [onWords]
    apply yields_mask hle
    rw [meaning, ← hx, ← hy]
    exact shiftLeft_modEq hle
  | lshr =>
    rw [onWords]
    apply yields_mask hle
    rw [toNat_shiftRight hle (toNat_mask_lt hle), hx, hy]
    push_cast
    exact .refl _
  | ashr =>
    have hamount : min (bits - 1) 63 = bits - 1 := by omega
    rw [onWords, hsx, hamount, shiftRight_min, hy]
    exact yields_mask hle (ofInt_modEq hle _)
  | and =>
    apply yields_mask hle
    rw [UInt64.toNat_and, hx, hy, meaning, BitVec.toNat_and]
  | or =>
    apply yields_mask hle
    rw [UInt64.toNat_or, hx, hy, meaning, BitVec.toNat_or]
  | xor =>
    apply yields_mask hle
    rw [UInt64.toNat_xor, hx, hy, meaning, BitVec.toNat_xor]
  | fadd | fsub | fmul | fdiv | frem => cases hop

theorem onWords_divisionByZero (hop : op.isDivision) (hb : mask bits b = 0) :
    op.onWords bits a b = .error .divisionByZero := by
  cases op with
  | udiv | sdiv | urem | srem => simp only [onWords, if_pos hb]
  | _ => cases hop

/-- At every width up to that of a word, an integer operator fails just where it divides by a number
that is zero at that width, and everywhere else gives its mathematical result at that width. -/
theorem onWords_exact (op : BinaryOp) (hop : op.isFloat = false) (bits : Nat) (hpos : 0 < bits)
    (hle : bits ≤ 64) (a b : UInt64) :
    if op.isDivision ∧ b.toNat % 2 ^ bits = 0 then op.onWords bits a b = .error .divisionByZero
    else Yields (op.onWords bits a b) bits (op.meaning (low bits a) (low bits b)) := by
  have hzero : mask bits b = 0 ↔ b.toNat % 2 ^ bits = 0 := by
    rw [← UInt64.toNat_inj, toNat_mask, Nat.min_eq_left hle]
    rfl
  split
  · rename_i h
    exact onWords_divisionByZero h.1 (hzero.mpr h.2)
  · rename_i h
    exact onWords_yields hop hpos hle fun hdiv hb => h ⟨hdiv, hzero.mp hb⟩

/-- The lowest byte divided by minus one wraps around to itself. -/
theorem lowest_byte_divided : sdiv.isFloat = false ∧ (0 : Nat) < 8 ∧ (8 : Nat) ≤ 64 ∧
    ¬ (sdiv.isDivision ∧ (0xff : UInt64).toNat % 2 ^ 8 = 0) ∧
    sdiv.meaning (low 8 0x80) (low 8 0xff) = 128 ∧ Yields (sdiv.onWords 8 0x80 0xff) 8 128 := by
  have hcond : ¬ (sdiv.isDivision ∧ (0xff : UInt64).toNat % 2 ^ 8 = 0) := by decide
  have hmeaning : sdiv.meaning (low 8 0x80) (low 8 0xff) = 128 := by decide
  have h := onWords_exact sdiv rfl 8 (by decide) (by decide) 0x80 0xff
  rw [if_neg hcond, hmeaning] at h
  exact ⟨rfl, by decide, by decide, hcond, hmeaning, h⟩

/-- An arithmetic shift by more than the width leaves the sign. -/
example : ashr.onWords 8 0xf8 200 = .ok 0xff := by decide

end BinaryOp
end SsaKit
