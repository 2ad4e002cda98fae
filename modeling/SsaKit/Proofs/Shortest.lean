import SsaKit.Proofs.HostArithmetic

/-! The decimal that a double is written with is one that the double is nearest to. -/
namespace SsaKit

open Number

/-- The number that a decimal stands for. -/
def Number.Decimal.value (d : Decimal) : ℚ := d.digits * 10 ^ d.exponent

namespace Number.Window

variable {w : Window} {tie : Tie} {m n step : Nat} {e : ℤ} {narrow : Bool}

theorem pick_holds (h : w.pick tie step = some n) : w.holds (n * step) := by
  unfold pick at h
  dsimp only at h
  rcases hbelow : w.holds (w.value / step * step) <;>
    rcases habove : w.holds ((w.value / step + 1) * step) <;>
    simp only [hbelow, habove] at h
  · cases h
  · obtain rfl := Option.some.inj h
    exact habove
  · obtain rfl := Option.some.inj h
    exact hbelow
  · cases tie <;> simp only at h <;> split_ifs at h <;> obtain rfl := Option.some.inj h <;>
      assumption

theorem bounds_of_holds (h : w.holds n) :
    w.low ≤ n ∧ n ≤ w.high ∧ (n = w.low ∨ n = w.high → w.closed) := by
  unfold holds at h
  split at h <;> simp only [Bool.decide_and, Bool.and_eq_true, decide_eq_true_eq] at h
  · exact ⟨h.1, h.2, fun _ => ‹_›⟩
  · exact ⟨h.1.le, h.2.le, fun heq => by omega⟩

/-- The search ends with a multiple of the unit of the window that lies in it. -/
theorem search_holds (hw : w.holds w.value) (tie : Tie) (fuel : Nat) :
    ∃ n, w.holds n ∧ (w.search tie fuel).value = n * 10 ^ w.scale := by
  induction fuel with
  | zero => exact ⟨w.value, hw, rfl⟩
  | succ k ih =>
    rw [search]
    split
    · rename_i digits hpick
      refine ⟨digits * 10 ^ (k + 1), pick_holds hpick, ?_⟩
      rw [Decimal.value, zpow_add₀ (by norm_num), zpow_natCast]
      push_cast
      ring
    · exact ih

/-- A step of which no multiple is picked is no shorter than the upper half of the window. -/
theorem high_le_of_pick (h : w.pick tie step = none) (hstep : 0 < step) (hlow : w.low ≤ w.value) :
    w.high ≤ w.value + step := by
  have hdiv := Nat.div_add_mod' w.value step
  have hmod := Nat.mod_lt w.value hstep
  have habove : w.holds ((w.value / step + 1) * step) = false := by
    unfold pick at h
    dsimp only at h
    rcases hbelow : w.holds (w.value / step * step) <;>
      rcases habove : w.holds ((w.value / step + 1) * step) <;>
      simp only [hbelow, habove] at h
    · rfl
    · cases h
    · cases h
    · cases tie <;> simp only at h <;> split_ifs at h
  rw [Nat.add_mul, Nat.one_mul] at habove
  unfold holds at habove
  split at habove <;> simp only [decide_eq_false_iff_not, not_and, Nat.not_le, Nat.not_lt] at habove
  · exact (habove (by omega)).le.trans (by omega)
  · exact (habove (by omega)).trans (by omega)

theorem le_of_pick (h : w.pick tie step = some n) : n ≤ w.value / step + 1 := by
  unfold pick at h
  dsimp only at h
  split at h
  · cases h
  · exact (Option.some.inj h).ge.trans (Nat.le_succ _)
  · exact (Option.some.inj h).ge
  · cases tie <;> simp only at h <;> split_ifs at h <;> obtain rfl := Option.some.inj h <;> omega

/-- The search ends at the first step with a multiple in the window, which is at most ten times as
wide as the upper half of the window, so that few digits are left. -/
theorem search_short {gap : Nat} (hlow : w.low ≤ w.value) (hvalue : w.value = 2 * m * gap)
    (hhigh : w.high = w.value + gap) (tie : Tie) {fuel : Nat} (h : gap ≤ 10 ^ (fuel + 1)) :
    (w.search tie fuel).digits ≤ 20 * m + 1 ∧
      ∃ j : Nat, (w.search tie fuel).exponent = w.scale + j ∧ gap ≤ 10 ^ (j + 1) := by
  have hsteps {k : Nat} (hk : gap ≤ 10 ^ (k + 1)) : w.value / 10 ^ k ≤ 20 * m := by
    rw [Nat.div_le_iff_le_mul_add_pred (by positivity), hvalue]
    have hwide : 2 * m * gap ≤ 2 * m * 10 ^ (k + 1) := Nat.mul_le_mul_left _ hk
    have hten : 2 * m * 10 ^ (k + 1) = 10 ^ k * (20 * m) := by ring
    omega
  induction fuel with
  | zero =>
    have hdigits := hsteps h
    rw [pow_zero, Nat.div_one] at hdigits
    exact ⟨hdigits.trans (Nat.le_succ _), 0, (add_zero _).symm, h⟩
  | succ k ih =>
    rw [search]
    split
    · rename_i hpick
      exact ⟨(le_of_pick hpick).trans (Nat.succ_le_succ (hsteps h)), k + 1, rfl, h⟩
    · rename_i hpick
      have hnone := high_le_of_pick hpick (by positivity) hlow
      exact ih (by omega)

end Number.Window

theorem Number.Decimal.strip_bounds (fuel : Nat) (d : Decimal) :
    (d.strip fuel).digits ≤ d.digits ∧ d.exponent ≤ (d.strip fuel).exponent := by
  induction fuel generalizing d with
  | zero => exact ⟨le_rfl, le_rfl⟩
  | succ fuel ih =>
    rw [strip]
    split_ifs
    · obtain ⟨hdigits, hexponent⟩ := ih ⟨d.digits / 10, d.exponent + 1⟩
      exact ⟨hdigits.trans (Nat.div_le_self _ _), by dsimp only at hexponent; omega⟩
    · exact ⟨le_rfl, le_rfl⟩

theorem Number.Decimal.strip_value (fuel : Nat) (d : Decimal) : (d.strip fuel).value = d.value := by
  induction fuel generalizing d with
  | zero => rfl
  | succ fuel ih =>
    rw [strip]
    split_ifs with h
    · have hten : (d.digits : ℚ) = (d.digits / 10 : Nat) * 10 := by
        exact_mod_cast (Nat.div_mul_cancel (Nat.dvd_of_mod_eq_zero h.2)).symm
      rw [ih, value, value, hten, zpow_add_one₀ (by norm_num)]
      ring
    · rfl

namespace Double

variable {m n : Nat} {e : ℤ}

/-- The first significand of an exponent has its left neighbour only half a step away. -/
def isNarrow (m : Nat) (e : ℤ) : Bool := m = 2 ^ 52 ∧ -1074 < e

theorem unit_scale (p : ℤ) :
    ((2 ^ p.toNat * 5 ^ (-p).toNat : Nat) : ℚ) * 10 ^ (min 0 p) = 2 ^ p := by
  obtain ⟨n, rfl | rfl⟩ := p.eq_nat_or_neg
  · simp
  · have hten : (10 : ℚ) ^ n = 2 ^ n * 5 ^ n := by rw [← mul_pow]; norm_num
    simp [hten]

/-- Half way to the neighbour below is where the window of a double begins. -/
theorem halfway_below {p j : Nat} (h : Canonical m ((p : ℤ) - 1074)) (hm : 0 < m)
    (hj : p * 2 ^ 52 + m = j + 1) :
    halfway j = (4 * m - if isNarrow m ((p : ℤ) - 1074) then 1 else 2 : Nat) *
      2 ^ ((p : ℤ) - 1074 - 2) := by
  have hfits := h.fits
  have hfull : p = 0 ∨ 2 ^ 52 ≤ m := h.full.imp_left (by omega)
  rcases hnarrow : isNarrow m ((p : ℤ) - 1074) with _ | _
  · have hsame : p = 0 ∨ 2 ^ 52 < m := by
      simp only [isNarrow, decide_eq_false_iff_not] at hnarrow
      omega
    obtain rfl : j = p * 2 ^ 52 + (m - 1) := by omega
    rw [halfway_eq (by omega) (by omega), Nat.cast_pred hm, if_neg (by decide),
      Nat.cast_sub (by omega), zpow_sub₀ two_ne_zero _ 2]
    push_cast
    ring
  · obtain ⟨rfl, hp⟩ := of_decide_eq_true hnarrow
    obtain ⟨p, rfl⟩ : ∃ l, p = l + 1 := Nat.exists_eq_add_one_of_ne_zero (by omega)
    obtain rfl : j = p * 2 ^ 52 + (2 ^ 53 - 1) := by omega
    have hhalf : ((p + 1 : Nat) : ℤ) - 1074 - 2 = (p : ℤ) - 1074 - 1 := by omega
    rw [halfway_eq (by omega) (by omega), hhalf, zpow_sub_one₀ two_ne_zero]
    norm_num
    ring

/-- A number in the window of a double is one that the double is nearest to. -/
theorem near_of_holds (h : Canonical m e) (hm : 0 < m)
    (hn : (Window.of m e (isNarrow m e)).holds n) :
    Near ((e + 1074).toNat * 2 ^ 52 + m) (n * 10 ^ (Window.of m e (isNarrow m e)).scale) := by
  obtain ⟨p, hp⟩ : ∃ p : Nat, (e + 1074).toNat = p := ⟨_, rfl⟩
  obtain rfl : e = (p : ℤ) - 1074 := by have := h.least; omega
  have hfull : p = 0 ∨ 2 ^ 52 ≤ m := h.full.imp_left (by omega)
  obtain ⟨hlow, hhigh, hends⟩ := Window.bounds_of_holds hn
  have hunit := unit_scale ((p : ℤ) - 1074 - 2)
  have hten : (0 : ℚ) < 10 ^ (min 0 ((p : ℤ) - 1074 - 2)) := by positivity
  have heven : m % 2 = 0 → (p * 2 ^ 52 + m) % 2 = 0 := by omega
  have habove : halfway (p * 2 ^ 52 + m) = (4 * m + 2 : Nat) * 2 ^ ((p : ℤ) - 1074 - 2) := by
    rw [halfway_eq h.fits hfull, zpow_sub₀ two_ne_zero _ 2]
    push_cast
    ring
  rw [hp]
  simp only [Window.of, decide_eq_true_eq] at hlow hhigh hends ⊢
  generalize (2 ^ ((p : ℤ) - 1074 - 2).toNat * 5 ^ (-((p : ℤ) - 1074 - 2)).toNat : Nat) = unit at *
  generalize (10 : ℚ) ^ (min 0 ((p : ℤ) - 1074 - 2)) = t at *
  have hscaled (c : Nat) : (c : ℚ) * 2 ^ ((p : ℤ) - 1074 - 2) = (c * unit : Nat) * t := by
    rw [← hunit]
    push_cast
    ring
  have hcancel {c : Nat} (h : (n : ℚ) * t = (c : Nat) * t) : n = c := by
    exact_mod_cast mul_right_cancel₀ hten.ne' h
  refine ⟨fun j hj => ?_, ?_⟩
  · rw [halfway_below h hm hj, hscaled]
    exact ⟨mul_le_mul_of_nonneg_right (by exact_mod_cast hlow) hten.le,
      fun heq => heven (hends (.inl (hcancel heq)))⟩
  · rw [habove, hscaled]
    exact ⟨mul_le_mul_of_nonneg_right (by exact_mod_cast hhigh) hten.le,
      fun heq => heven (hends (.inr (hcancel heq)))⟩

theorem holds_value (hm : 0 < m) (narrow : Bool) :
    (Window.of m e narrow).holds (Window.of m e narrow).value := by
  have hunit : 0 < 2 ^ (e - 2).toNat * 5 ^ (-(e - 2)).toNat := by positivity
  have hlow : (Window.of m e narrow).low < (Window.of m e narrow).value :=
    Nat.mul_lt_mul_of_pos_right (by split <;> omega) hunit
  have hhigh : (Window.of m e narrow).value < (Window.of m e narrow).high :=
    Nat.mul_lt_mul_of_pos_right (by omega) hunit
  unfold Window.holds
  split <;> simp [hlow, hhigh, hlow.le, hhigh.le]

/-- The shortest decimal is one that the double is nearest to. -/
theorem near_shortest (h : Canonical m e) (hm : 0 < m) (tie : Tie) :
    Near ((e + 1074).toNat * 2 ^ 52 + m) (shortest tie m e (isNarrow m e)).value := by
  obtain ⟨n, hn, hv⟩ := Window.search_holds (holds_value hm (isNarrow m e)) tie
    (digitCount (Window.of m e (isNarrow m e)).value)
  rw [shortest, Decimal.strip_value, hv]
  exact near_of_holds h hm hn

/-- The shortest decimal of a double has few digits, none of them below `10 ^ -324`. -/
theorem shortest_short (h : Canonical m e) (hm : 0 < m) (tie : Tie) :
    (shortest tie m e (isNarrow m e)).digits < 10 ^ 18 ∧
      -324 ≤ (shortest tie m e (isNarrow m e)).exponent := by
  obtain ⟨unit, hunit⟩ : ∃ unit, 2 ^ (e - 2).toNat * 5 ^ (-(e - 2)).toNat = unit := ⟨_, rfl⟩
  obtain ⟨w, hw⟩ : ∃ w, Window.of m e (isNarrow m e) = w := ⟨_, rfl⟩
  have hlow : w.low ≤ w.value := by
    rw [← hw]
    exact Nat.mul_le_mul_right _ (Nat.sub_le _ _)
  have hvalue : w.value = 2 * m * (2 * unit) := by
    rw [← hw, ← hunit]
    show 4 * m * _ = _
    ring
  have hhigh : w.high = w.value + 2 * unit := by
    rw [← hw, ← hunit]
    show (4 * m + 2) * _ = 4 * m * _ + _
    ring
  have hgap : 2 * unit ≤ 10 ^ (digitCount w.value + 1) := by
    have hlength : 0 < digitCount w.value := List.length_pos_of_ne_nil Nat.toDigits_ne_nil
    have hlt := (Nat.length_toDigits_le_iff (by decide) hlength).mp (le_refl (digitCount w.value))
    rw [pow_succ]
    have hle : 2 * unit ≤ w.value := hvalue ▸ Nat.le_mul_of_pos_left _ (by omega)
    omega
  obtain ⟨hdigits, j, hexponent, hstep⟩ := Window.search_short hlow hvalue hhigh tie hgap
  have hstrip := Decimal.strip_bounds (digitCount w.value) (w.search tie (digitCount w.value))
  rw [shortest, hw]
  refine ⟨hstrip.1.trans_lt (hdigits.trans_lt ?_), le_trans ?_ hstrip.2⟩
  · have hfits := h.fits
    omega
  · -- a step below the least power of ten would be shorter than the window
    by_contra hlt
    have hleast := h.least
    have hscale : w.scale = min 0 (e - 2) := hw ▸ rfl
    have hwide : (2 : ℚ) ^ (e - 1) ≤ 10 ^ (-324 : ℤ) :=
      calc (2 : ℚ) ^ (e - 1) = 2 * 2 ^ (e - 2) := by
            rw [← zpow_one_add₀ two_ne_zero]
            congr 1
            ring
        _ = (2 * unit : Nat) * 10 ^ w.scale := by
            rw [← unit_scale (e - 2), hunit, ← hscale]
            push_cast
            ring
        _ ≤ (10 ^ (j + 1) : Nat) * 10 ^ w.scale :=
            mul_le_mul_of_nonneg_right (by exact_mod_cast hstep) (by positivity)
        _ = 10 ^ (w.scale + j + 1) := by
            rw [Nat.cast_pow, ← zpow_natCast, Nat.cast_ofNat, ← zpow_add₀ (by norm_num)]
            congr 1
            push_cast
            ring
        _ ≤ 10 ^ (-324 : ℤ) := zpow_le_zpow_right₀ (by norm_num) (by omega)
    have hinv {a b : Nat} (hab : 2 ^ a < 10 ^ b) : (10 : ℚ) ^ (-b : ℤ) < 2 ^ (-a : ℤ) := by
      rw [zpow_neg, zpow_neg, zpow_natCast, zpow_natCast]
      exact inv_strictAnti₀ (by positivity) (by exact_mod_cast hab)
    have hsmall : (10 : ℚ) ^ (-324 : ℤ) < 2 ^ (-1075 : ℤ) :=
      hinv (a := 1075) (b := 324) (by decide +kernel)
    have hstart : (2 : ℚ) ^ (-1075 : ℤ) ≤ 2 ^ (e - 1) :=
      zpow_le_zpow_right₀ one_le_two (by omega)
    exact absurd (hwide.trans_lt hsmall) (not_lt.mpr hstart)

/-! ### Reading -/

theorem withSign_isNegative (b : Nat) (hb : b < 2 ^ 64) :
    Format.double.withSign (Format.double.isNegative b) (b % 2 ^ 63) = b := by
  have hsign : Format.double.isNegative b = decide (2 ^ 63 ≤ b) := rfl
  have hwith (negative : Bool) (k : Nat) :
      Format.double.withSign negative k = if negative then 2 ^ 63 + k else k := rfl
  rw [hwith, hsign]
  split_ifs with h <;> simp only [decide_eq_true_eq] at h <;> omega

/-- A finite double is a significand and an exponent under a sign. -/
theorem read_of_isFinite {x : Double} (h : x.isFinite) : ∃ negative m e k,
    x.read = .finite negative m e ∧ Canonical m e ∧ (e + 1074).toNat * 2 ^ 52 + m = k ∧
      k < Format.double.infinity ∧ x.bits.toNat = Format.double.withSign negative k := by
  have hback := withSign_isNegative x.bits.toNat x.bits.toNat_lt
  have hread : x.read = Format.double.read x.bits.toNat := rfl
  unfold isFinite at h
  rw [hread] at h ⊢
  generalize x.bits.toNat = b at *
  have hnan : Format.double.isNaN b = decide (Format.double.infinity < b % 2 ^ 63) := rfl
  have hmagnitude : Format.double.magnitude b = b % 2 ^ 63 := rfl
  unfold Format.read at h ⊢
  rw [hnan, hmagnitude] at h ⊢
  simp only [decide_eq_true_eq] at h ⊢
  split_ifs at h ⊢ with h1 h2 h3
  all_goals have hlt : b % 2 ^ 63 < Format.double.infinity := by omega
  · have h3 : b % 2 ^ 63 / 2 ^ 52 = 0 := h3
    exact ⟨_, b % 2 ^ 52, -1074, b % 2 ^ 63, rfl, ⟨by omega, le_rfl, .inl rfl⟩, by omega, hlt,
      hback.symm⟩
  · have h3 : b % 2 ^ 63 / 2 ^ 52 ≠ 0 := h3
    exact ⟨_, b % 2 ^ 52 + 2 ^ 52, -1074 + (b % 2 ^ 63 / 2 ^ 52 : Nat) - 1, b % 2 ^ 63, rfl,
      ⟨by omega, by omega, .inr (by omega)⟩, by omega, hlt, hback.symm⟩

/-- A finite double is written as a sign and a short decimal that the double is nearest to. -/
theorem text_of_isFinite {x : Double} (h : x.isFinite) (l : Layout) : ∃ negative d k,
    x.text l = (if negative then "-" else "") ++ l.decimalText d ∧ Near k d.value ∧
      k < Format.double.infinity ∧ x.bits.toNat = Format.double.withSign negative k ∧
      d.digits < 10 ^ 18 ∧ -324 ≤ d.exponent := by
  obtain ⟨negative, m, e, k, hread, hc, hk, hlt, hbits⟩ := read_of_isFinite h
  have hread : Format.double.read x.bits.toNat = .finite negative m e := hread
  have htext : x.text l = (if negative then "-" else "") ++ (if m = 0 then l.decimalText ⟨0, 0⟩
      else l.decimalText (shortest l.tie m e (isNarrow m e))) := by
    rw [text, Layout.text, hread]
    rfl
  rcases Nat.eq_zero_or_pos m with rfl | hm
  · have hzero : k = 0 := by
      have he := hc.full
      omega
    have hv : (⟨0, 0⟩ : Decimal).value = value 0 := by simp [Decimal.value]
    exact ⟨negative, ⟨0, 0⟩, k, htext, by rw [hzero, hv]; exact near_value 0, hlt, hbits,
      by decide, by decide⟩
  · rw [if_neg hm.ne'] at htext
    exact ⟨negative, _, k, htext, hk ▸ near_shortest hc hm l.tie, hlt, hbits,
      shortest_short hc hm l.tie⟩

end Double
end SsaKit
