import SsaKit.Proofs.Nearest
import Mathlib.Data.Nat.Log
import Mathlib.Tactic.FieldSimp

/-! The host multiplies, divides and converts to the nearest double. -/
namespace SsaKit.Double

open Number
open Float.Model (UnpackedFloat)
open Float.Model.UnpackedFloat

variable {m n k : Nat} {e : ℤ} {q : ℚ}

/-! ### Significands with a rest -/

/-- A significand with its two rest bits says where a number lies between it and the next one. -/
def Holds (em : ExtendedMantissa) (q : ℚ) : Prop :=
  if em.roundBit then
    if em.stickyBit then (em.mantissa : ℚ) + 1 / 2 < q ∧ q < em.mantissa + 1
    else q = em.mantissa + 1 / 2
  else
    if em.stickyBit then (em.mantissa : ℚ) < q ∧ q < em.mantissa + 1 / 2
    else q = em.mantissa

theorem Holds.rounds {em : ExtendedMantissa} (h : Holds em q) : Rounds em.roundedMantissa q := by
  obtain ⟨m, r, s⟩ := em
  cases r <;> cases s <;>
    simp only [Holds, ExtendedMantissa.roundedMantissa, ExtendedMantissa.accuracy,
      Accuracy.roundToNearestEven, if_true, if_false, Bool.false_eq_true] at h ⊢
  · subst h
    exact ⟨by linarith, by linarith, fun h => by rcases h with h | h <;> linarith⟩
  · exact ⟨by linarith, by linarith, fun h => by rcases h with h | h <;> linarith⟩
  · subst h
    rcases Nat.mod_two_eq_zero_or_one m with hm | hm <;> rw [hm]
    · exact ⟨by push_cast; linarith, by push_cast; linarith, fun _ => by simpa using hm⟩
    · exact ⟨by push_cast; linarith, by push_cast; linarith, fun _ => by omega⟩
  · refine ⟨by push_cast; linarith, by push_cast; linarith, fun h => ?_⟩
    push_cast at h
    rcases h with h | h <;> linarith

theorem Holds.bounds {em : ExtendedMantissa} (h : Holds em q) :
    (em.mantissa : ℚ) ≤ q ∧ q < em.mantissa + 1 := by
  obtain ⟨m, r, s⟩ := em
  cases r <;> cases s <;> simp only [Holds, if_true, if_false, Bool.false_eq_true] at h <;>
    constructor <;> linarith

theorem Holds.shiftRightOne {em : ExtendedMantissa} (h : Holds em q) :
    Holds em.shiftRightOne (q / 2) := by
  obtain ⟨m, r, s⟩ := em
  have hm : (m : ℚ) = 2 * (m / 2 : Nat) + (m % 2 : Nat) := by
    exact_mod_cast (Nat.div_add_mod m 2).symm
  rcases Nat.mod_two_eq_zero_or_one m with h2 | h2 <;> rw [h2] at hm <;>
    cases r <;> cases s <;>
    simp [Holds, ExtendedMantissa.shiftRightOne, h2] at h ⊢ <;>
    (try constructor) <;> push_cast at hm <;> linarith

theorem Holds.shiftRight {em : ExtendedMantissa} (h : Holds em q) (n : Nat) :
    Holds (em >>> n) (q / 2 ^ n) := by
  show Holds (n.repeat ExtendedMantissa.shiftRightOne em) _
  induction n with
  | zero => simpa [Nat.repeat] using h
  | succ n ih =>
    rw [Nat.repeat, pow_succ, ← div_div]
    exact ih.shiftRightOne

theorem holds_exact (m : Nat) : Holds (.ofMantissaAndAccuracy m .exact) m := by
  simp [Holds, ExtendedMantissa.ofMantissaAndAccuracy]

/-! ### Bits -/

/-- A significand and an exponent as a double has them. -/
structure Canonical (m : Nat) (e : ℤ) : Prop where
  fits : m < 2 ^ 53
  least : -1074 ≤ e
  full : e = -1074 ∨ 2 ^ 52 ≤ m

theorem toNat_components (e : BitVec 11) (m : BitVec 52) :
    (packComponents .binary64 .positive e m).toNat = e.toNat * 2 ^ 52 + m.toNat := by
  show ((0#1 ++ e) ++ m).toNat = _
  rw [BitVec.toNat_append, BitVec.toNat_append, BitVec.toNat_zero, Nat.zero_shiftLeft, Nat.zero_or,
    ← Nat.shiftLeft_add_eq_or_of_lt m.isLt, Nat.shiftLeft_eq]

theorem toNat_pack (hm : 0 < m) (h : Canonical m e) :
    (pack .binary64 (.finite .positive m e hm)).toNat =
      min ((e + 1074).toNat * 2 ^ 52 + m) Format.double.infinity := by
  obtain ⟨hfits, hleast, hfull⟩ := h
  have hlog : m.log2 + 1 = 53 ↔ 2 ^ 52 ≤ m := by
    have hup := (Nat.log2_lt hm.ne').mpr hfits
    have hlow := Nat.le_log2 (k := 52) hm.ne'
    omega
  have hbiased : (e + 1023 + 52).toNat = (e + 1074).toNat + 1 := by omega
  show (if 2 ^ 11 ≤ (e + 1023 + 52).toNat + 1 then packedInfinity .binary64 .positive
    else if m.log2 + 1 = 53 then
      packComponents .binary64 .positive (BitVec.ofNat 11 (e + 1023 + 52).toNat) (BitVec.ofNat 52 m)
    else packComponents .binary64 .positive 0#11 (BitVec.ofNat 52 m)).toNat = _
  rw [hbiased, infinity_eq]
  split_ifs with hinf hnormal
  · show (packComponents .binary64 .positive (-1#11) 0#52).toNat = _
    rw [toNat_components]
    have hsteps : 2046 ≤ (e + 1074).toNat := by omega
    have hm := hfull.resolve_left (by omega)
    simp only [BitVec.toNat_neg, BitVec.toNat_ofNat]
    omega
  · have hm := hlog.mp hnormal
    rw [toNat_components, BitVec.toNat_ofNat, BitVec.toNat_ofNat]
    omega
  · have he := hfull.resolve_right fun h => hnormal (hlog.mpr h)
    have hm : ¬ 2 ^ 52 ≤ m := fun h => hnormal (hlog.mpr h)
    rw [toNat_components, BitVec.toNat_ofNat, BitVec.toNat_ofNat]
    omega

theorem toNat_unpackExponent (b : BitVec 64) :
    (@unpackExponent .binary64 b).toNat = b.toNat / 2 ^ 52 % 2 ^ 11 := by
  show (b.extractLsb 62 52).toNat = _
  rw [BitVec.extractLsb_toNat, Nat.shiftRight_eq_div_pow]

theorem toNat_unpackMantissa (b : BitVec 64) :
    (@unpackMantissa .binary64 b).toNat = b.toNat % 2 ^ 52 := by
  show (b.extractLsb 51 0).toNat = _
  rw [BitVec.extractLsb_toNat, Nat.shiftRight_zero]

theorem unpackSign_eq {b : BitVec 64} (h : b.toNat < 2 ^ 63) :
    Sign.ofBitVec (@unpackSign .binary64 b) = .positive := by
  have hbit : @unpackSign .binary64 b = 0#1 := by
    refine BitVec.eq_of_toNat_eq ?_
    show (b.extractLsb 63 63).toNat = 0
    rw [BitVec.extractLsb_toNat, Nat.shiftRight_eq_div_pow, Nat.div_eq_of_lt h, Nat.zero_mod]
  rw [hbit]
  rfl

/-- What the bits of a finite double without its sign are taken apart into. -/
inductive Unpacks (k : Nat) : UnpackedFloat → Prop
  | zero (h : k = 0) : Unpacks k (.zero .positive)
  | finite {m : Nat} {e : ℤ} {hm : 0 < m} (h : Canonical m e)
      (hk : k = (e + 1074).toNat * 2 ^ 52 + m) : Unpacks k (.finite .positive m e hm)

theorem Unpacks.of_eq {m' : Nat} {e' : ℤ} {hm : 0 < m'} (h : Canonical m e)
    (hk : k = (e + 1074).toNat * 2 ^ 52 + m) (hm' : m' = m) (he : e' = e) :
    Unpacks k (.finite .positive m' e' hm) := by
  subst hm' he
  exact .finite h hk

theorem unpacks {b : BitVec 64} (hb : b.toNat < Format.double.infinity) :
    Unpacks b.toNat (unpack .binary64 b) := by
  have hfield : b.toNat / 2 ^ 52 < 2047 := by
    rw [infinity_eq] at hb
    omega
  have hexponent : (@unpackExponent .binary64 b).toNat = b.toNat / 2 ^ 52 := by
    rw [toNat_unpackExponent]
    omega
  have hmantissa := toNat_unpackMantissa b
  have hsign := unpackSign_eq (b := b) (by omega)
  have hmax : @unpackExponent .binary64 b ≠ -1#11 := fun h => by
    rw [h] at hexponent
    simp only [BitVec.toNat_neg, BitVec.toNat_ofNat] at hexponent
    omega
  have hzero : @unpackExponent .binary64 b = 0#11 ↔ b.toNat / 2 ^ 52 = 0 := by
    rw [← BitVec.toNat_inj, hexponent]
    rfl
  have happend : ((1#1 : BitVec 1) ++ @unpackMantissa .binary64 b).toNat =
      2 ^ 52 + b.toNat % 2 ^ 52 := by
    rw [BitVec.toNat_append, ← Nat.shiftLeft_add_eq_or_of_lt (BitVec.isLt _), hmantissa]
    rfl
  unfold unpack
  dsimp only
  rw [hsign, if_neg hmax]
  by_cases hleast : @unpackExponent .binary64 b = 0#11
  · rw [if_pos hleast]
    rw [hzero] at hleast
    by_cases hfraction : @unpackMantissa .binary64 b = 0#52
    · rw [dif_pos hfraction]
      rw [hfraction] at hmantissa
      have hfraction : b.toNat % 2 ^ 52 = 0 := hmantissa.symm
      exact .zero (by omega)
    rw [dif_neg hfraction]
    refine .of_eq (m := b.toNat % 2 ^ 52) (e := -1074) ⟨by omega, le_rfl, .inl rfl⟩ (by omega)
      hmantissa ?_
    show ((@unpackExponent .binary64 b).toNat : ℤ) - (1023 + 52) + 1 = -1074
    rw [hexponent, hleast]
    rfl
  · rw [if_neg hleast]
    rw [hzero] at hleast
    refine .of_eq (m := 2 ^ 52 + b.toNat % 2 ^ 52) (e := (b.toNat / 2 ^ 52 : Nat) - 1075)
      ⟨?_, ?_, ?_⟩ ?_ happend ?_
    · omega
    · omega
    · omega
    · omega
    · show ((@unpackExponent .binary64 b).toNat : ℤ) - (1023 + 52) = _
      rw [hexponent]
      rfl

/-! ### Rounding -/

theorem shiftToTarget_eq (m : Nat) (e : ℤ) (acc : Accuracy) {t : ℤ} {n : Nat}
    (ht : max ((m.log2 : ℤ) + 1 + e - 53) (-1074) = t) (hn : (t - e).toNat = n) :
    shiftToTargetExponent .binary64 m e acc =
      (ExtendedMantissa.ofMantissaAndAccuracy m acc >>> n, e + n) := by
  subst ht hn
  rfl

theorem log2_le {r : Nat} (hr : r < 2 ^ 53) : r.log2 ≤ 52 := by
  rcases Nat.eq_zero_or_pos r with rfl | hpos
  · simp
  · exact Nat.le_of_lt_succ ((Nat.log2_lt hpos.ne').mpr hr)

/-- The second shift only takes up a significand that rounding has made one bit longer. -/
theorem toNat_pack_shifted {r p : Nat} (hr : r ≤ 2 ^ 53) (hp : p = 0 ∨ 2 ^ 52 ≤ r)
    {em : ExtendedMantissa} {e : ℤ}
    (hem : shiftToTargetExponent .binary64 r ((p : ℤ) - 1074) .exact = (em, e)) :
    (pack .binary64 (if h : em.mantissa = 0 then .zero .positive
      else .finite .positive em.mantissa e (Nat.pos_of_ne_zero h))).toNat =
      min (p * 2 ^ 52 + r) Format.double.infinity := by
  rcases Nat.lt_or_eq_of_le hr with hlt | rfl
  · have hlog := log2_le hlt
    rw [shiftToTarget_eq (t := max ((r.log2 : ℤ) + 1 + (p - 1074) - 53) (-1074)) (n := 0) r _ _ rfl
      (by omega)] at hem
    obtain ⟨rfl, rfl⟩ := Prod.mk.inj hem
    show (pack .binary64 (if h : r = 0 then .zero .positive
      else .finite .positive r ((p : ℤ) - 1074 + 0) (Nat.pos_of_ne_zero h))).toNat = _
    by_cases h0 : r = 0
    · subst h0
      obtain rfl : p = 0 := by omega
      rfl
    · have he : ((p : ℤ) - 1074 + 0 + 1074).toNat = p := by omega
      rw [dif_neg h0, toNat_pack (Nat.pos_of_ne_zero h0) ⟨hlt, by omega, by omega⟩, he]
  · rw [shiftToTarget_eq (t := (p : ℤ) - 1073) (n := 1) _ _ _ (by rw [Nat.log2_two_pow]; omega)
      (by omega)] at hem
    obtain ⟨rfl, rfl⟩ := Prod.mk.inj hem
    show (pack .binary64 (.finite .positive (2 ^ 52) ((p : ℤ) - 1074 + 1) _)).toNat = _
    have he : ((p : ℤ) - 1074 + 1 + 1074).toNat = p + 1 := by omega
    have hk : (p + 1) * 2 ^ 52 + 2 ^ 52 = p * 2 ^ 52 + 2 ^ 53 := by omega
    rw [toNat_pack (by decide) ⟨by decide, by omega, .inr le_rfl⟩, he, hk]

/-- Rounding gives the nearest double when the significand has all the bits that it needs. -/
theorem nearest_roundWithAccuracy {acc : Accuracy} (h : Holds (.ofMantissaAndAccuracy m acc) q)
    (hfine : 2 ^ 52 ≤ m ∨ e ≤ -1074) :
    Nearest (pack .binary64 (roundWithAccuracy .binary64 .positive m e acc)).toNat (q * 2 ^ e) := by
  have hm : (ExtendedMantissa.ofMantissaAndAccuracy m acc).mantissa = m := by
    cases acc with
    | exact => rfl
    | inexact o => cases o <;> rfl
  obtain ⟨hlow, hhigh⟩ := hm ▸ h.bounds
  have hlog : 2 ^ 52 ≤ m → 52 ≤ m.log2 := fun hm => (Nat.le_log2 (by omega)).mpr hm
  -- the place of the last bit that is kept, and the bits that go
  obtain ⟨p, hp⟩ : ∃ p : Nat, max ((m.log2 : ℤ) + 1 + e - 53) (-1074) = (p : ℤ) - 1074 :=
    ⟨(max ((m.log2 : ℤ) + 1 + e - 53) (-1074) + 1074).toNat, by omega⟩
  obtain ⟨n, hn⟩ : ∃ n : Nat, e + n = (p : ℤ) - 1074 := ⟨((p : ℤ) - 1074 - e).toNat, by omega⟩
  have hround := (h.shiftRight n).rounds
  have hq : q / 2 ^ n < 2 ^ 53 := by
    rw [div_lt_iff₀ (by positivity), ← pow_add]
    have hm : m + 1 ≤ 2 ^ (53 + n) :=
      Nat.lt_of_lt_of_le Nat.lt_log2_self (Nat.pow_le_pow_right (by decide) (by omega))
    exact hhigh.trans_le (by exact_mod_cast hm)
  have hfull : p = 0 ∨ (2 : ℚ) ^ 52 ≤ q / 2 ^ n := by
    rcases Nat.eq_zero_or_pos p with h0 | hpos
    · exact .inl h0
    · right
      rw [le_div_iff₀ (by positivity), ← pow_add]
      have hne : m ≠ 0 := by
        rintro rfl
        rw [Nat.log2_zero] at hp
        omega
      have hm : 2 ^ (52 + n) ≤ m := (Nat.le_log2 hne).mp (by omega)
      exact le_trans (by exact_mod_cast hm) hlow
  have hnear := near_of_rounds hround hq hfull
  have hv : q / 2 ^ n * 2 ^ ((p : ℤ) - 1074) = q * 2 ^ e := by
    rw [← hn, zpow_add₀ (by norm_num), zpow_natCast, mul_comm ((2 : ℚ) ^ e), ← mul_assoc,
      div_mul_cancel₀ _ (by positivity)]
  refine ⟨_, ?_, hv ▸ hnear⟩
  rcases hem : shiftToTargetExponent .binary64
    (ExtendedMantissa.ofMantissaAndAccuracy m acc >>> n).roundedMantissa ((p : ℤ) - 1074) .exact
    with ⟨em, e'⟩
  unfold roundWithAccuracy
  rw [shiftToTarget_eq (n := n) m e acc hp (by omega), hn]
  dsimp only
  rw [hem]
  exact toNat_pack_shifted (hround.le (by exact_mod_cast hq.le))
    (hfull.imp_right fun h => hround.ge (by exact_mod_cast h)) hem

/-! ### Operations -/

theorem Unpacks.toNat_pack {u : UnpackedFloat} (h : Unpacks k u) (hk : k < Format.double.infinity) :
    (pack .binary64 u).toNat = k := by
  cases h with
  | zero h => rw [h]; rfl
  | finite h hk' => rw [Double.toNat_pack _ h, ← hk', Nat.min_eq_left hk.le]

/-- The number that is taken apart. -/
theorem Unpacks.value_eq {u : UnpackedFloat} (h : Unpacks k u) :
    u = .zero .positive ∧ value k = 0 ∨
      ∃ m e hm, u = .finite .positive m e hm ∧ Canonical m e ∧ value k = m * 2 ^ e := by
  cases h with
  | zero h => exact .inl ⟨rfl, by rw [h, value_zero]⟩
  | @finite m e hm h hk =>
    refine .inr ⟨m, e, hm, rfl, h, ?_⟩
    have hfull : (e + 1074).toNat = 0 ∨ 2 ^ 52 ≤ m := h.full.imp_left fun he => by omega
    rw [hk, Double.value_eq h.fits.le hfull, Int.toNat_of_nonneg (by have := h.least; omega)]
    congr 2
    ring

variable {x y : Double}

theorem unpacks_toFloat (hx : x.bits.toNat < Format.double.infinity) :
    Unpacks x.bits.toNat x.toFloat.toModel.unpack := by
  have hu := unpacks (b := x.bits.toBitVec) hx
  have hback := hu.toNat_pack hx
  have hagain := unpacks (b := pack .binary64 (unpack .binary64 x.bits.toBitVec)) (by rwa [hback])
  rw [hback] at hagain
  exact hagain

/-- A result of the host that is no NaN is passed on as it is. -/
theorem toNat_map₂ {op : Float → Float → Float} {u : UnpackedFloat}
    (hop : op x.toFloat y.toFloat = .ofModel (.pack u))
    (hu : (pack .binary64 u).toNat ≤ Format.double.infinity) :
    (map₂ op x y).bits.toNat = (pack .binary64 u).toNat := by
  have hnan : (op x.toFloat y.toFloat).isNaN = false := by
    rw [hop]
    show (unpack .binary64 (pack .binary64 u)).isNaN = false
    rcases Nat.lt_or_eq_of_le hu with hlt | heq
    · rcases (unpacks hlt).value_eq with ⟨h, -⟩ | ⟨m, e, hm, h, -⟩ <;> rw [h] <;> rfl
    · have hbits : pack .binary64 u = 0x7ff0000000000000#64 := BitVec.eq_of_toNat_eq heq
      rw [hbits]
      rfl
  rw [map₂]
  simp only [hnan]
  rw [hop]
  rfl

theorem nearest_mul (hx : x.bits.toNat < Format.double.infinity)
    (hy : y.bits.toNat < Format.double.infinity) :
    Nearest (x.mul y).bits.toNat (value x.bits.toNat * value y.bits.toNat) := by
  suffices h : Nearest (pack .binary64 (UnpackedFloat.mul .binary64 x.toFloat.toModel.unpack
      y.toFloat.toModel.unpack)).toNat (value x.bits.toNat * value y.bits.toNat) by
    rw [mul, toNat_map₂ rfl h.le]
    exact h
  rcases (unpacks_toFloat hx).value_eq with ⟨hx, hv⟩ | ⟨m, e, hm, hx, hc, hv⟩ <;>
    rcases (unpacks_toFloat hy).value_eq with ⟨hy, hw⟩ | ⟨n, d, hn, hy, hc', hw⟩ <;>
    rw [hx, hy, hv, hw]
  · rw [zero_mul]; exact nearest_zero
  · rw [zero_mul]; exact nearest_zero
  · rw [mul_zero]; exact nearest_zero
  · have hfine : 2 ^ 52 ≤ m * n ∨ e + d ≤ -1074 := by
      rcases hc.full with he | hfull
      · rcases hc'.full with hd | hfull
        · exact .inr (by omega)
        · exact .inl (hfull.trans (Nat.le_mul_of_pos_left n hm))
      · exact .inl (hfull.trans (Nat.le_mul_of_pos_right m hn))
    have hround := nearest_roundWithAccuracy (holds_exact (m * n)) hfine
    rw [zpow_add₀ (by norm_num), Nat.cast_mul, mul_mul_mul_comm] at hround
    exact hround

theorem nearest_ofNat (n : Nat) :
    Nearest (pack .binary64 (UnpackedFloat.ofNat .binary64 n)).toNat n := by
  rcases Nat.eq_zero_or_pos n with rfl | hn
  · exact nearest_zero
  · have hcompare : compare (n : ℤ) 0 = .gt := compare_gt_iff_gt.mpr (by exact_mod_cast hn)
    obtain ⟨s, hs⟩ : ∃ s : Nat, (0 - max ((n.log2 : ℤ) + 1 + 0 - 53) (-1074)).toNat = s := ⟨_, rfl⟩
    have hround : UnpackedFloat.ofNat .binary64 n =
        roundWithAccuracy .binary64 .positive (n <<< s) (0 - (s : ℤ)) .exact := by
      rw [UnpackedFloat.ofNat, UnpackedFloat.ofInt, UnpackedFloat.normalize, hcompare, ← hs]
      rfl
    have hfine : 2 ^ 52 ≤ n <<< s ∨ (0 - (s : ℤ)) ≤ -1074 := by
      rcases Nat.lt_or_ge s 1074 with hlt | hge
      · left
        rw [Nat.shiftLeft_eq]
        calc 2 ^ 52 ≤ 2 ^ (n.log2 + s) := Nat.pow_le_pow_right (by decide) (by omega)
          _ = 2 ^ n.log2 * 2 ^ s := pow_add _ _ _
          _ ≤ n * 2 ^ s := Nat.mul_le_mul_right _ (Nat.log2_self_le hn.ne')
      · exact .inr (by omega)
    have hv : ((n <<< s : Nat) : ℚ) * 2 ^ (0 - (s : ℤ)) = n := by
      rw [Nat.shiftLeft_eq, Nat.cast_mul, Nat.cast_pow, Nat.cast_ofNat, zero_sub, zpow_neg,
        zpow_natCast, mul_assoc, mul_inv_cancel₀ (by positivity), mul_one]
    rw [hround, ← hv]
    exact nearest_roundWithAccuracy (holds_exact (n <<< s)) hfine

theorem nearest_ofWord (n : UInt64) : Nearest (ofWord n).bits.toNat n.toNat :=
  nearest_ofNat n.toNat

/-! Division -/

theorem holds_fraction {num den : Nat} (hden : 0 < den) :
    Holds (.ofMantissaAndAccuracy (num / den) (accuracyOfFraction (num % den) den))
      (num / den) := by
  have hd : (0 : ℚ) < den := by exact_mod_cast hden
  have hlt : num % den < den := Nat.mod_lt _ hden
  rw [div_eq_add num hden, accuracyOfFraction]
  generalize num / den = m
  generalize num % den = r at hlt ⊢
  split_ifs with h0
  · simp [h0, Holds, ExtendedMantissa.ofMantissaAndAccuracy]
  · have hpos : (0 : ℚ) < r / den := div_pos (by exact_mod_cast Nat.pos_of_ne_zero h0) hd
    have hone : (r : ℚ) / den < 1 := (div_lt_one hd).mpr (by exact_mod_cast hlt)
    rcases hc : compare (2 * r) den with _ | _ | _ <;>
      simp only [Holds, ExtendedMantissa.ofMantissaAndAccuracy, if_true, if_false,
        Bool.false_eq_true]
    · have hhalf : (r : ℚ) / den < 1 / 2 := by
        rw [div_lt_div_iff₀ hd two_pos]
        exact_mod_cast (by have := Nat.compare_eq_lt.mp hc; omega)
      exact ⟨by linarith, by linarith⟩
    · have hhalf : (r : ℚ) / den = 1 / 2 := by
        rw [div_eq_div_iff hd.ne' two_ne_zero]
        exact_mod_cast (by have := Nat.compare_eq_eq.mp hc; omega)
      rw [hhalf]
    · have hhalf : 1 / 2 < (r : ℚ) / den := by
        rw [div_lt_div_iff₀ two_pos hd]
        exact_mod_cast (by have := Nat.compare_eq_gt.mp hc; omega)
      exact ⟨by linarith, by linarith⟩

/-- Enough bits are appended to the dividend for the quotient to have as many as are needed. -/
theorem nearest_divCore {m n : Nat} {e d : ℤ} (hm : 0 < m) (hn : 0 < n) :
    let (q, f, acc) := divCore .binary64 m e n d
    Nearest (pack .binary64 (roundWithAccuracy .binary64 .positive q f acc)).toNat
      (m * 2 ^ e / (n * 2 ^ d)) := by
  obtain ⟨f, hf⟩ : ∃ f : ℤ, min (e - d)
    (max ((m.log2 : ℤ) + 1 + e - (n.log2 + 1 + d) - 53) (-1074)) = f := ⟨_, rfl⟩
  obtain ⟨s, hs⟩ : ∃ s : Nat, (e - d - f).toNat = s := ⟨_, rfl⟩
  have hcore : divCore .binary64 m e n d =
      ((m <<< s) / n, f, accuracyOfFraction ((m <<< s) % n) n) := by
    subst hs hf
    rfl
  have hfine : 2 ^ 52 ≤ (m <<< s) / n ∨ f ≤ -1074 := by
    rcases Int.lt_or_le (-1074) f with hlt | hle
    · left
      rw [Nat.le_div_iff_mul_le hn, Nat.shiftLeft_eq]
      calc 2 ^ 52 * n ≤ 2 ^ 52 * 2 ^ (n.log2 + 1) := Nat.mul_le_mul_left _ Nat.lt_log2_self.le
        _ = 2 ^ (52 + (n.log2 + 1)) := (pow_add _ _ _).symm
        _ ≤ 2 ^ (m.log2 + s) := Nat.pow_le_pow_right (by decide) (by omega)
        _ = 2 ^ m.log2 * 2 ^ s := pow_add _ _ _
        _ ≤ m * 2 ^ s := Nat.mul_le_mul_right _ (Nat.log2_self_le hm.ne')
    · exact .inr hle
  have hv : ((m <<< s : Nat) : ℚ) / n * 2 ^ f = m * 2 ^ e / (n * 2 ^ d) := by
    have he : e = f + s + d := by omega
    rw [Nat.shiftLeft_eq, he, zpow_add₀ two_ne_zero, zpow_add₀ two_ne_zero, zpow_natCast]
    push_cast
    field_simp
  rw [hcore]
  exact hv ▸ nearest_roundWithAccuracy (holds_fraction hn) hfine

theorem nearest_div (hx : x.bits.toNat < Format.double.infinity)
    (hy : y.bits.toNat < Format.double.infinity) (h0 : 0 < y.bits.toNat) :
    Nearest (x.div y).bits.toNat (value x.bits.toNat / value y.bits.toNat) := by
  suffices h : Nearest (pack .binary64 (UnpackedFloat.div .binary64 x.toFloat.toModel.unpack
      y.toFloat.toModel.unpack)).toNat (value x.bits.toNat / value y.bits.toNat) by
    rw [div, toNat_map₂ rfl h.le]
    exact h
  rcases (unpacks_toFloat hy).value_eq with ⟨-, hw⟩ | ⟨n, d, hn, hy, hc', hw⟩
  · exact absurd hw (value_zero ▸ value_strictMono h0).ne'
  rcases (unpacks_toFloat hx).value_eq with ⟨hx, hv⟩ | ⟨m, e, hm, hx, hc, hv⟩ <;>
    rw [hx, hy, hv, hw]
  · rw [zero_div]; exact nearest_zero
  · exact nearest_divCore hm hn

end SsaKit.Double
