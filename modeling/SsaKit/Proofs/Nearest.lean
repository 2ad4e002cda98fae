import SsaKit.Number.Double
import Mathlib.Algebra.Order.Field.Power
import Mathlib.Algebra.Order.Field.Rat
import Mathlib.Tactic.Linarith
import Mathlib.Tactic.Positivity
import Mathlib.Tactic.Ring

/-! The doubles without sign as a ladder of numbers, and which of them is nearest to a number. -/
namespace SsaKit

open Number

namespace Double

/-! ### Rounding to an integer -/

/-- A number lies within a half of an integer, and of two that are as near it is the even one. -/
structure Rounds (r : Nat) (q : ℚ) : Prop where
  low : (r : ℚ) - 1 / 2 ≤ q
  high : q ≤ r + 1 / 2
  even : q = r - 1 / 2 ∨ q = r + 1 / 2 → r % 2 = 0

theorem Rounds.le {r b : Nat} {q : ℚ} (h : Rounds r q) (hq : q ≤ b) : r ≤ b := by
  have hlow := h.low
  have : (r : ℚ) < b + 1 := by linarith
  exact Nat.le_of_lt_succ (by exact_mod_cast this)

theorem Rounds.ge {r b : Nat} {q : ℚ} (h : Rounds r q) (hq : b ≤ q) : b ≤ r := by
  have hhigh := h.high
  have : (b : ℚ) < r + 1 := by linarith
  exact Nat.le_of_lt_succ (by exact_mod_cast this)

/-! ### The ladder -/

/-- The number that the bits of a double without its sign stand for, in steps of the least one. It
goes on past the infinite one as if there were more exponents. -/
def rung (k : Nat) : Nat :=
  if k < 2 ^ 52 then k else (2 ^ 52 + k % 2 ^ 52) * 2 ^ (k / 2 ^ 52 - 1)

/-- The number that the bits of a double without its sign stand for. -/
def value (k : Nat) : ℚ := rung k * 2 ^ (-1074 : ℤ)

/-- Half way from a double to the next one. -/
def halfway (k : Nat) : ℚ := (value k + value (k + 1)) / 2

variable {k l p r : Nat} {q v w : ℚ}

theorem rung_eq (hr : r ≤ 2 ^ 53) (h : p = 0 ∨ 2 ^ 52 ≤ r) :
    rung (p * 2 ^ 52 + r) = r * 2 ^ p := by
  rcases Nat.lt_or_ge r (2 ^ 52) with hlt | hge
  · obtain rfl : p = 0 := h.resolve_right (by omega)
    simp [rung, hlt]
  · have hk : ¬ p * 2 ^ 52 + r < 2 ^ 52 := by omega
    rcases Nat.lt_or_eq_of_le hr with hlt | rfl
    · have hdiv : (p * 2 ^ 52 + r) / 2 ^ 52 - 1 = p := by omega
      have hmod : 2 ^ 52 + (p * 2 ^ 52 + r) % 2 ^ 52 = r := by omega
      rw [rung, if_neg hk, hdiv, hmod]
    · have hdiv : (p * 2 ^ 52 + 2 ^ 53) / 2 ^ 52 - 1 = p + 1 := by omega
      have hmod : 2 ^ 52 + (p * 2 ^ 52 + 2 ^ 53) % 2 ^ 52 = 2 ^ 52 := by omega
      rw [rung, if_neg hk, hdiv, hmod, Nat.pow_succ]
      ring

/-- Every double is a significand of 53 bits, which only the least ones do not fill. -/
theorem exists_rung (k : Nat) :
    ∃ p r, k = p * 2 ^ 52 + r ∧ r < 2 ^ 53 ∧ (p = 0 ∨ 2 ^ 52 ≤ r) := by
  rcases Nat.lt_or_ge k (2 ^ 52) with hlt | hge
  · exact ⟨0, k, by omega, by omega, .inl rfl⟩
  · exact ⟨k / 2 ^ 52 - 1, 2 ^ 52 + k % 2 ^ 52, by omega, by omega, .inr (by omega)⟩

theorem rung_lt_succ (k : Nat) : rung k < rung (k + 1) := by
  obtain ⟨p, r, rfl, hr, hp⟩ := exists_rung k
  rw [Nat.add_assoc, rung_eq (by omega) hp, rung_eq (by omega) (by omega)]
  exact Nat.mul_lt_mul_of_pos_right (Nat.lt_succ_self r) (by positivity)

theorem rung_strictMono : StrictMono rung := strictMono_nat_of_lt_succ rung_lt_succ

@[simp] theorem value_zero : value 0 = 0 := by simp [value, rung]

theorem value_strictMono : StrictMono value := fun k l h => by
  have hrung : (rung k : ℚ) < rung l := by exact_mod_cast rung_strictMono h
  exact mul_lt_mul_of_pos_right hrung (zpow_pos (by norm_num) _)

theorem value_nonneg (k : Nat) : 0 ≤ value k := by
  exact mul_nonneg (Nat.cast_nonneg _) (zpow_nonneg (by norm_num) _)

theorem halfway_strictMono : StrictMono halfway := fun k l h => by
  have hk := value_strictMono h
  have hl := value_strictMono (Nat.succ_lt_succ h)
  rw [halfway, halfway]
  linarith

theorem value_eq (hr : r ≤ 2 ^ 53) (h : p = 0 ∨ 2 ^ 52 ≤ r) :
    value (p * 2 ^ 52 + r) = r * 2 ^ ((p : ℤ) - 1074) := by
  rw [value, rung_eq hr h, sub_eq_add_neg, zpow_add₀ (by norm_num), zpow_natCast]
  rw [Nat.cast_mul, Nat.cast_pow, Nat.cast_ofNat, mul_assoc]

theorem halfway_eq (hr : r < 2 ^ 53) (h : p = 0 ∨ 2 ^ 52 ≤ r) :
    halfway (p * 2 ^ 52 + r) = (r + 1 / 2) * 2 ^ ((p : ℤ) - 1074) := by
  have hnext := value_eq (p := p) (r := r + 1) (by omega) (by omega)
  rw [← Nat.add_assoc, Nat.cast_succ] at hnext
  rw [halfway, value_eq hr.le h, hnext]
  ring

/-! ### The nearest double -/

/-- A number lies no further off from a double than half way to its neighbours, and half way between
two of them it belongs to the one with the even bits. -/
structure Near (k : Nat) (v : ℚ) : Prop where
  below : ∀ j, k = j + 1 → halfway j ≤ v ∧ (v = halfway j → k % 2 = 0)
  above : v ≤ halfway k ∧ (v = halfway k → k % 2 = 0)

theorem Near.halfway_le (h : Near k v) (hl : l < k) : halfway l ≤ v := by
  obtain ⟨j, rfl⟩ := Nat.exists_eq_add_one_of_ne_zero (Nat.ne_zero_of_lt hl)
  exact (halfway_strictMono.monotone (Nat.le_of_lt_succ hl)).trans (h.below j rfl).1

theorem Near.unique (h : Near k v) (h' : Near l v) : k = l := by
  wlog hle : k ≤ l generalizing k l
  · exact (this h' h (Nat.le_of_not_le hle)).symm
  by_contra hne
  have hlt : k < l := Nat.lt_of_le_of_ne hle hne
  have hv : v = halfway k := le_antisymm h.above.1 (h'.halfway_le hlt)
  have hk := h.above.2 hv
  rcases Nat.lt_or_eq_of_le (Nat.succ_le_of_lt hlt) with hfar | rfl
  · have hstep := halfway_strictMono (Nat.lt_succ_self k)
    exact absurd (h'.halfway_le hfar) (by rw [hv]; exact not_le.mpr hstep)
  · have hl := (h'.below k rfl).2 hv
    omega

theorem Near.mono (h : Near k v) (h' : Near l w) (hvw : v ≤ w) : k ≤ l := by
  by_contra hlt
  have hv := h.halfway_le (Nat.lt_of_not_le hlt)
  obtain rfl : v = w := le_antisymm hvw (h'.above.1.trans hv)
  exact hlt (h.unique h').le

theorem near_value (k : Nat) : Near k (value k) := by
  have hnext := value_strictMono (Nat.lt_succ_self k)
  refine ⟨fun j hj => ?_, ?_⟩
  · subst hj
    have hprev := value_strictMono (Nat.lt_succ_self j)
    rw [halfway]
    exact ⟨by linarith, fun h => by linarith⟩
  · rw [halfway]
    exact ⟨by linarith, fun h => by linarith⟩

/-- Rounding in steps of a power of two gives the nearest double when the steps are as fine as those
of the doubles around. -/
theorem near_of_rounds (hr : Rounds r q) (hq : q < 2 ^ 53) (hp : p = 0 ∨ 2 ^ 52 ≤ q) :
    Near (p * 2 ^ 52 + r) (q * 2 ^ ((p : ℤ) - 1074)) := by
  have hstep : (0 : ℚ) < 2 ^ ((p : ℤ) - 1074) := by positivity
  have hbound : r ≤ 2 ^ 53 := hr.le (by exact_mod_cast hq.le)
  have hfull : p = 0 ∨ 2 ^ 52 ≤ r := hp.imp_right fun hq => hr.ge (by exact_mod_cast hq)
  have heven : r % 2 = 0 → (p * 2 ^ 52 + r) % 2 = 0 := by omega
  have hvalue := value_eq hbound hfull
  refine ⟨fun j hj => ?_, ?_⟩
  · by_cases hsame : p = 0 ∨ 2 ^ 52 < r
    · obtain rfl : j = p * 2 ^ 52 + (r - 1) := by omega
      have hhalf : halfway (p * 2 ^ 52 + (r - 1)) = (r - 1 / 2) * 2 ^ ((p : ℤ) - 1074) := by
        rw [halfway_eq (by omega) (by omega), Nat.cast_pred (by omega)]
        ring
      rw [hhalf]
      exact ⟨mul_le_mul_of_nonneg_right hr.low hstep.le,
        fun h => heven (hr.even (.inl (mul_right_cancel₀ hstep.ne' h)))⟩
    · -- the first significand comes after a step of the exponent before
      obtain rfl : r = 2 ^ 52 := by omega
      have hprev := value_strictMono (Nat.lt_succ_self j)
      have habove : value (j + 1) ≤ q * 2 ^ ((p : ℤ) - 1074) := by
        rw [← hj, hvalue]
        have hlow := hp.resolve_left fun h => hsame (.inl h)
        exact mul_le_mul_of_nonneg_right (by exact_mod_cast hlow) hstep.le
      rw [halfway]
      exact ⟨by linarith, fun h => by linarith⟩
  · rcases Nat.lt_or_eq_of_le hbound with hlt | rfl
    · rw [halfway_eq hlt hfull]
      exact ⟨mul_le_mul_of_nonneg_right hr.high hstep.le,
        fun h => heven (hr.even (.inr (mul_right_cancel₀ hstep.ne' h)))⟩
    · -- the last significand is followed by a step of the next exponent
      have hnext := value_strictMono (Nat.lt_succ_self (p * 2 ^ 52 + 2 ^ 53))
      have hbelow : q * 2 ^ ((p : ℤ) - 1074) < value (p * 2 ^ 52 + 2 ^ 53) := by
        rw [hvalue]
        exact mul_lt_mul_of_pos_right (by exact_mod_cast hq) hstep
      rw [halfway]
      exact ⟨by linarith, fun h => by linarith⟩

/-- Bits that stand for the double nearest to a number, infinity where that is too large. -/
def Nearest (bits : Nat) (v : ℚ) : Prop :=
  ∃ k, bits = min k Format.double.infinity ∧ Near k v

theorem infinity_eq : Format.double.infinity = 2047 * 2 ^ 52 := rfl

theorem nearest_zero : Nearest 0 0 := ⟨0, rfl, value_zero ▸ near_value 0⟩

theorem Nearest.le {bits : Nat} {v : ℚ} (h : Nearest bits v) : bits ≤ Format.double.infinity := by
  obtain ⟨k, rfl, -⟩ := h
  exact Nat.min_le_right _ _

/-! ### Quotients -/

/-- A quotient is its whole part and the rest. -/
theorem div_eq_add (num : Nat) {den : Nat} (hden : 0 < den) :
    (num : ℚ) / den = (num / den : Nat) + (num % den : Nat) / den := by
  have hd : (den : ℚ) ≠ 0 := by exact_mod_cast hden.ne'
  rw [eq_comm, add_comm, div_add' _ _ _ hd, div_left_inj' hd]
  exact_mod_cast Nat.mod_add_div' num den

theorem rounds_nearest (num : Nat) {den : Nat} (hden : 0 < den) :
    Rounds (Format.nearest num den) (num / den) := by
  have hd : (0 : ℚ) < den := by exact_mod_cast hden
  have hlt : num % den < den := Nat.mod_lt _ hden
  unfold Format.nearest
  rw [div_eq_add num hden]
  generalize num / den = m
  generalize num % den = r at hlt ⊢
  have hpos : (0 : ℚ) ≤ r / den := by positivity
  have hone : (r : ℚ) / den < 1 := (div_lt_one hd).mpr (by exact_mod_cast hlt)
  have hhalf : (r : ℚ) / den = 1 / 2 → 2 * r = den := fun h => by
    rw [div_eq_div_iff hd.ne' two_ne_zero] at h
    have : r * 2 = 1 * den := by exact_mod_cast h
    omega
  dsimp only
  split_ifs with hdown
  · have hle : (r : ℚ) / den ≤ 1 / 2 := by
      rw [div_le_div_iff₀ hd two_pos]
      exact_mod_cast (by omega : r * 2 ≤ 1 * den)
    refine ⟨by linarith, by linarith, fun h => ?_⟩
    have := hhalf (by rcases h with h | h <;> linarith)
    omega
  · have hge : 1 / 2 ≤ (r : ℚ) / den := by
      rw [div_le_div_iff₀ two_pos hd]
      exact_mod_cast (by omega : 1 * den ≤ r * 2)
    refine ⟨by push_cast; linarith, by push_cast; linarith, fun h => ?_⟩
    push_cast at h
    have := hhalf (by rcases h with h | h <;> linarith)
    omega

theorem div_scaled (num den : Nat) (s : ℤ) :
    ((num * 2 ^ s.toNat : Nat) : ℚ) / (den * 2 ^ (-s).toNat : Nat) = num / den * 2 ^ s := by
  obtain ⟨n, rfl | rfl⟩ := s.eq_nat_or_neg
  · simp [mul_div_right_comm]
  · simp only [neg_neg, Int.toNat_neg_natCast, Int.toNat_natCast, pow_zero, mul_one, zpow_neg,
      zpow_natCast, Nat.cast_mul, Nat.cast_pow, Nat.cast_ofNat, ← div_eq_mul_inv, div_div]

/-- The power of two below a quotient, from those below its parts. -/
theorem exists_log {num den : Nat} (hnum : 0 < num) (hden : 0 < den) : ∃ low : ℤ,
    (let guess : Int := Nat.log2 num - Nat.log2 den
      if num * 2 ^ (-guess).toNat < den * 2 ^ guess.toNat then guess - 1 else guess) = low ∧
      (2 : ℚ) ^ low ≤ num / den ∧ (num / den : ℚ) < 2 ^ (low + 1) := by
  have hd : (0 : ℚ) < den := by exact_mod_cast hden
  have hnlow : (2 : ℚ) ^ (num.log2 : ℤ) ≤ num := by
    exact_mod_cast Nat.log2_self_le hnum.ne'
  have hnhigh : (num : ℚ) < 2 ^ (num.log2 + 1 : ℤ) := by
    exact_mod_cast Nat.lt_log2_self (n := num)
  have hdlow : (2 : ℚ) ^ (den.log2 : ℤ) ≤ den := by
    exact_mod_cast Nat.log2_self_le hden.ne'
  have hdhigh : (den : ℚ) < 2 ^ (den.log2 + 1 : ℤ) := by
    exact_mod_cast Nat.lt_log2_self (n := den)
  generalize (num.log2 : ℤ) = a at *
  generalize (den.log2 : ℤ) = b at *
  have hbelow : (2 : ℚ) ^ (a - b - 1) ≤ num / den := by
    rw [le_div_iff₀ hd]
    calc (2 : ℚ) ^ (a - b - 1) * den ≤ 2 ^ (a - b - 1) * 2 ^ (b + 1) :=
          mul_le_mul_of_nonneg_left hdhigh.le (by positivity)
      _ = 2 ^ a := by rw [← zpow_add₀ two_ne_zero]; congr 1; ring
      _ ≤ num := hnlow
  have habove : (num : ℚ) / den < 2 ^ (a - b + 1) := by
    rw [div_lt_iff₀ hd]
    calc (num : ℚ) < 2 ^ (a + 1) := hnhigh
      _ = 2 ^ (a - b + 1) * 2 ^ b := by rw [← zpow_add₀ two_ne_zero]; congr 1; ring
      _ ≤ 2 ^ (a - b + 1) * den := mul_le_mul_of_nonneg_left hdlow (by positivity)
  have htest : num * 2 ^ (-(a - b)).toNat < den * 2 ^ (a - b).toNat ↔
      (num : ℚ) / den < 2 ^ (a - b) := by
    have hscaled := div_scaled num den (-(a - b))
    rw [neg_neg, zpow_neg, ← div_eq_mul_inv] at hscaled
    rw [← div_lt_one (by positivity : (0 : ℚ) < 2 ^ (a - b)), ← hscaled,
      div_lt_one (by exact_mod_cast (by positivity : 0 < den * 2 ^ (a - b).toNat)), Nat.cast_lt]
  refine ⟨_, rfl, ?_⟩
  dsimp only
  split_ifs with h
  · exact ⟨hbelow, by rw [sub_add_cancel]; exact htest.mp h⟩
  · exact ⟨not_lt.mp (mt htest.mpr h), habove⟩

/-- The quotient of two numbers at a power of two is rounded to the nearest double. -/
theorem nearest_round {num den : Nat} (hnum : 0 < num) (hden : 0 < den) (shift : ℤ) :
    Nearest (Format.double.round num den shift) (num / den * 2 ^ shift) := by
  obtain ⟨low, hlow, hle, hlt⟩ := exists_log hnum hden
  obtain ⟨p, hp⟩ : ∃ p : Nat, max (-1074) (low + shift - 52) = (p : ℤ) - 1074 :=
    ⟨(max (-1074) (low + shift - 52) + 1074).toNat, by omega⟩
  obtain ⟨s, hs⟩ : ∃ s : ℤ, shift - ((p : ℤ) - 1074) = s := ⟨_, rfl⟩
  have hround : Format.double.round num den shift = min Format.double.infinity
      (p * 2 ^ 52 + Format.nearest (num * 2 ^ s.toNat) (den * 2 ^ (-s).toNat)) := by
    have hplace : max Format.double.least (low + shift - Format.double.fraction) = (p : ℤ) - 1074 :=
      hp
    have hsteps : ((p : ℤ) - 1074 - Format.double.least).toNat = p := by
      show ((p : ℤ) - 1074 - -1074).toNat = p
      omega
    unfold Format.round
    dsimp only at hlow ⊢
    rw [if_neg hnum.ne', hlow, hplace, hsteps, hs]
    rfl
  have hq := div_scaled num den s
  have hrounds := rounds_nearest (num * 2 ^ s.toNat)
    (show 0 < den * 2 ^ (-s).toNat by positivity)
  rw [hq] at hrounds
  have hstep : (0 : ℚ) < 2 ^ s := by positivity
  have hhigh : (num : ℚ) / den * 2 ^ s < 2 ^ 53 :=
    calc (num : ℚ) / den * 2 ^ s < 2 ^ (low + 1) * 2 ^ s := mul_lt_mul_of_pos_right hlt hstep
      _ = 2 ^ (low + 1 + s) := (zpow_add₀ two_ne_zero _ _).symm
      _ ≤ 2 ^ (53 : ℤ) := zpow_le_zpow_right₀ one_le_two (by omega)
  have hfull : p = 0 ∨ (2 : ℚ) ^ 52 ≤ num / den * 2 ^ s := by
    rcases Nat.eq_zero_or_pos p with h0 | hpos
    · exact .inl h0
    · right
      calc (2 : ℚ) ^ (52 : ℤ) = 2 ^ (low + s) := by congr 1; omega
        _ = 2 ^ low * 2 ^ s := zpow_add₀ two_ne_zero _ _
        _ ≤ num / den * 2 ^ s := mul_le_mul_of_nonneg_right hle hstep.le
  have hnear := near_of_rounds hrounds hhigh hfull
  have hshift : s + ((p : ℤ) - 1074) = shift := by omega
  rw [mul_assoc, ← zpow_add₀ two_ne_zero, hshift] at hnear
  exact ⟨_, hround.trans (Nat.min_comm _ _), hnear⟩

end Double
end SsaKit
