import SsaKit.Proofs.NumberText
import SsaKit.Proofs.Precision
import SsaKit.Stored.Basic

/-! A finite double that is stored as text is read as a finite double again. -/
namespace SsaKit

open Number Json

namespace Double

variable {b c k m : Nat} {e : ℤ} {v w : ℚ} {x y : Double}

/-! ### Nearest doubles -/

theorem Near.nearest (h : Near k v) (hk : k < Format.double.infinity) : Nearest k v :=
  ⟨k, (Nat.min_eq_left hk.le).symm, h⟩

theorem Nearest.near (h : Nearest b v) (hb : b < Format.double.infinity) : Near b v := by
  obtain ⟨k, rfl, hk⟩ := h
  rw [Nat.min_eq_left (by omega)]
  exact hk

theorem Nearest.mono (h : Nearest b v) (h' : Nearest c w) (hvw : v ≤ w) : b ≤ c := by
  obtain ⟨k, rfl, hk⟩ := h
  obtain ⟨l, rfl, hl⟩ := h'
  have := hk.mono hl hvw
  omega

/-- Numbers with a short significand are doubles themselves. -/
theorem exists_value (hm : m < 2 ^ 53) (he : -1074 ≤ e) : ∃ k, value k = m * 2 ^ e := by
  rcases Nat.eq_zero_or_pos m with rfl | hpos
  · exact ⟨0, by simp⟩
  · have hlog : m.log2 ≤ 52 := log2_le hm
    obtain ⟨j, hj⟩ : ∃ j, min (52 - m.log2) (e + 1074).toNat = j := ⟨_, rfl⟩
    have hlow : 2 ^ (m.log2 + j) ≤ m * 2 ^ j := by
      rw [pow_add]
      exact Nat.mul_le_mul_right _ (Nat.log2_self_le hpos.ne')
    have hhigh : m * 2 ^ j < 2 ^ 53 :=
      calc m * 2 ^ j < 2 ^ (m.log2 + 1) * 2 ^ j :=
            Nat.mul_lt_mul_of_pos_right Nat.lt_log2_self (by positivity)
        _ = 2 ^ (m.log2 + 1 + j) := (pow_add _ _ _).symm
        _ ≤ 2 ^ 53 := Nat.pow_le_pow_right (by decide) (by omega)
    have hfull : (e + 1074).toNat - j = 0 ∨ 2 ^ 52 ≤ m * 2 ^ j := by
      rcases Nat.lt_or_ge j (e + 1074).toNat with hlt | hge
      · have hj52 : m.log2 + j = 52 := by omega
        exact .inr (hj52 ▸ hlow)
      · exact .inl (by omega)
    refine ⟨((e + 1074).toNat - j) * 2 ^ 52 + m * 2 ^ j, ?_⟩
    have hexp : ((e + 1074).toNat - j : Nat) - 1074 = e - j := by omega
    rw [value_eq hhigh.le hfull, hexp, zpow_sub₀ two_ne_zero, zpow_natCast]
    push_cast
    field_simp

theorem Near.exact (h : Near k v) (hv : ∃ l, value l = v) : value k = v := by
  obtain ⟨l, rfl⟩ := hv
  rw [h.unique (near_value l)]

theorem isFinite_of_magnitude (hx : x.bits.toNat % 2 ^ 63 < Format.double.infinity) :
    x.isFinite := by
  have hread : x.read = Format.double.read x.bits.toNat := rfl
  have hmagnitude : Format.double.magnitude x.bits.toNat = x.bits.toNat % 2 ^ 63 := rfl
  have hnan : Format.double.isNaN x.bits.toNat = false :=
    decide_eq_false (by rw [hmagnitude]; omega)
  unfold isFinite
  rw [hread, Format.read, hnan, hmagnitude, if_neg Bool.false_ne_true, if_neg (by omega)]
  split_ifs <;> rfl

theorem isFinite_of_lt (hx : x.bits.toNat < Format.double.infinity) : x.isFinite :=
  isFinite_of_magnitude ((Nat.mod_le _ _).trans_lt hx)

/-- A sign in front of a finite double that has none. -/
theorem toNat_neg (hx : x.bits.toNat < 2 ^ 63) :
    x.neg.bits.toNat = Format.double.withSign true x.bits.toNat := by
  show x.bits.toNat ^^^ 2 ^ 63 = 2 ^ 63 + x.bits.toNat
  have hdiv : (x.bits.toNat ^^^ 2 ^ 63) / 2 ^ 63 = 1 := by
    rw [Nat.xor_div_two_pow, Nat.div_eq_of_lt hx]
    rfl
  have hmod : (x.bits.toNat ^^^ 2 ^ 63) % 2 ^ 63 = x.bits.toNat := by
    rw [Nat.xor_mod_two_pow, Nat.mod_eq_of_lt hx, Nat.mod_self, Nat.xor_zero]
  omega

/-! ### Words and powers of ten -/

theorem value_two_pow (j : Nat) : value ((1023 + j) * 2 ^ 52) = 2 ^ j := by
  have hbits : (1023 + j) * 2 ^ 52 = (1022 + j) * 2 ^ 52 + 2 ^ 52 := by omega
  have hexp : ((1022 + j : Nat) : ℤ) - 1074 = j - 52 := by omega
  rw [hbits, value_eq (by decide) (.inr le_rfl), hexp, zpow_sub₀ two_ne_zero, zpow_natCast]
  norm_num
  ring

theorem ofWord_lt (n : UInt64) : (ofWord n).bits.toNat < Format.double.infinity := by
  have hbound : (1023 + 64) * 2 ^ 52 < Format.double.infinity := by decide
  have hn : (n.toNat : ℚ) ≤ value ((1023 + 64) * 2 ^ 52) := by
    rw [value_two_pow]
    exact_mod_cast n.toNat_lt.le
  exact ((nearest_ofWord n).mono ((near_value _).nearest hbound) hn).trans_lt hbound

theorem near_ofWord (n : UInt64) : Near (ofWord n).bits.toNat n.toNat :=
  (nearest_ofWord n).near (ofWord_lt n)

/-- A word with few bits is taken as it is. -/
theorem value_ofWord {n : UInt64} (h : n.toNat < 2 ^ 53) : value (ofWord n).bits.toNat = n.toNat := by
  obtain ⟨l, hl⟩ := exists_value h (e := 0) (by decide)
  exact (near_ofWord n).exact ⟨l, by rw [hl, zpow_zero, mul_one]⟩

end Double

namespace Json.Numeral

open Double

theorem nearest_tenTo (n : Nat) : Nearest (tenTo n).bits.toNat (10 ^ n) := by
  have hround := nearest_round (show 0 < 10 ^ n by positivity) one_pos 0
  have hsize : Format.double.infinity < UInt64.size := by decide
  have hsign (m : Nat) : Format.double.withSign false m = m := rfl
  rw [tenTo, ofMagnitude, hsign, UInt64.toNat_ofNat_of_lt' (hround.le.trans_lt hsize)]
  simpa using hround

theorem tenTo_308_le : (tenTo 308).bits.toNat ≤ 2045 * 2 ^ 52 + 3 * 2 ^ 51 := by decide +kernel

theorem tenTo_lt {n : Nat} (hn : n ≤ 308) : (tenTo n).bits.toNat < Format.double.infinity :=
  ((nearest_tenTo n).mono (nearest_tenTo 308)
    (pow_le_pow_right₀ (by norm_num) hn)).trans_lt (tenTo_308_le.trans_lt (by decide))

theorem near_tenTo {n : Nat} (hn : n ≤ 308) : Near (tenTo n).bits.toNat (10 ^ n) :=
  (nearest_tenTo n).near (tenTo_lt hn)

theorem one_le_tenTo {n : Nat} (hn : n ≤ 308) : 1 ≤ Double.value (tenTo n).bits.toNat := by
  have hone : Double.value (1023 * 2 ^ 52) = 1 := by simpa using value_two_pow 0
  have hle := (near_value (1023 * 2 ^ 52)).mono (near_tenTo hn)
    (by rw [hone]; exact one_le_pow₀ (by norm_num))
  exact hone ▸ value_strictMono.monotone hle

/-- Powers of ten with few bits are doubles themselves. -/
theorem value_tenTo {n : Nat} (hn : n ≤ 22) : Double.value (tenTo n).bits.toNat = 10 ^ n := by
  have hpow : 5 ^ n < 2 ^ 53 := (Nat.pow_le_pow_right (by decide) hn).trans_lt (by decide)
  obtain ⟨l, hl⟩ := exists_value hpow (e := n) (by omega)
  have hten : (5 ^ n : Nat) * (2 : ℚ) ^ (n : ℤ) = 10 ^ n := by
    rw [zpow_natCast, Nat.cast_pow, Nat.cast_ofNat, ← mul_pow]
    norm_num
  exact (near_tenTo (by omega)).exact ⟨l, hl.trans hten⟩

/-! ### Scaling -/

theorem tenTo_pos {n : Nat} (hn : n ≤ 308) : 0 < (tenTo n).bits.toNat := by
  by_contra h0
  have hone := one_le_tenTo hn
  rw [Nat.eq_zero_of_not_pos h0, value_zero] at hone
  exact absurd hone (by norm_num)

/-- Division by a power of ten does not make a number larger. -/
theorem div_tenTo_lt {x : Double} (hx : x.bits.toNat < Format.double.infinity) {n : Nat}
    (hn : n ≤ 308) : (x.div (tenTo n)).bits.toNat < Format.double.infinity := by
  have hle : Double.value x.bits.toNat / Double.value (tenTo n).bits.toNat ≤
      Double.value x.bits.toNat := div_le_self (value_nonneg _) (one_le_tenTo hn)
  exact ((nearest_div hx (tenTo_lt hn) (tenTo_pos hn)).mono ((near_value _).nearest hx) hle).trans_lt hx

theorem scaleDown_lt (fuel : Nat) {x : Double} (hx : x.bits.toNat < Format.double.infinity)
    (n : Nat) : (scaleDown fuel x n).bits.toNat < Format.double.infinity := by
  induction fuel generalizing x n with
  | zero => exact hx
  | succ fuel ih =>
    rw [scaleDown]
    split_ifs with hn h0
    · exact div_tenTo_lt hx hn
    · exact hx
    · exact ih (div_tenTo_lt hx le_rfl) _

/-- Half way from the double below the largest finite one to that one. -/
def limit : Nat := (2 ^ 54 - 3) * 2 ^ 970

theorem limit_mem : 10 ^ 308 ≤ limit ∧ limit < 10 ^ 309 := by decide +kernel

theorem limit_lt {n : Nat} (hn : 309 ≤ n) : limit < 10 ^ n := by
  calc limit < 10 ^ 309 := limit_mem.2
    _ ≤ 10 ^ n := Nat.pow_le_pow_right (by decide) hn

/-- The largest words that may be multiplied with the largest powers of ten. -/
theorem mul_tenTo_limit : ∀ j < 21, ((ofWord (UInt64.ofNat (min (limit / 10 ^ (288 + j))
    (2 ^ 64 - 1)))).mul (tenTo (288 + j))).bits.toNat < Format.double.infinity := by
  decide +kernel

theorem mul_tenTo_lt {s n : Nat} (hs : s < 2 ^ 64) (hn : n ≤ 308) (hv : s * 10 ^ n ≤ limit) :
    ((ofWord (UInt64.ofNat s)).mul (tenTo n)).bits.toNat < Format.double.infinity := by
  obtain ⟨j, hj⟩ : ∃ j, max n 288 = 288 + j := ⟨max n 288 - 288, by omega⟩
  have hlimit := mul_tenTo_limit j (by omega)
  generalize ht : min (limit / 10 ^ (288 + j)) (2 ^ 64 - 1) = t at hlimit
  have hst : s ≤ t := by
    rw [← ht, ← hj]
    refine le_min ?_ (by omega)
    rcases Nat.le_total n 288 with hle | hge
    · have hword : 2 ^ 64 ≤ limit / 10 ^ 288 := by
        rw [Nat.le_div_iff_mul_le (by positivity)]
        calc 2 ^ 64 * 10 ^ 288 ≤ 10 ^ 20 * 10 ^ 288 := Nat.mul_le_mul_right _ (by norm_num)
          _ = 10 ^ 308 := (pow_add 10 20 288).symm
          _ ≤ limit := limit_mem.1
      rw [Nat.max_eq_right hle]
      omega
    · rw [Nat.max_eq_left hge]
      exact (Nat.le_div_iff_mul_le (by positivity)).mpr hv
  have hword {w : Nat} (hw : w < 2 ^ 64) : Near (ofWord (UInt64.ofNat w)).bits.toNat w := by
    have hnear := near_ofWord (UInt64.ofNat w)
    rwa [UInt64.toNat_ofNat_of_lt' hw] at hnear
  have hfirst := value_strictMono.monotone
    ((hword hs).mono (hword (show t < 2 ^ 64 by omega)) (by exact_mod_cast hst))
  have hsecond := value_strictMono.monotone
    ((near_tenTo hn).mono (near_tenTo (show 288 + j ≤ 308 by omega))
      (pow_le_pow_right₀ (by norm_num) (show n ≤ 288 + j by omega)))
  have hprod := mul_le_mul hfirst hsecond (value_nonneg _) (value_nonneg _)
  exact ((nearest_mul (ofWord_lt _) (tenTo_lt hn)).mono
    (nearest_mul (ofWord_lt _) (tenTo_lt (by omega))) hprod).trans_lt hlimit

/-- A word times a power of ten that is not too large is read as a finite double. -/
theorem scale?_isSome {s : Nat} {p : Int} (hs : s < 2 ^ 64) (hv : (s : ℚ) * 10 ^ p ≤ limit) :
    ∃ r, scale? s p = some r ∧ r.bits.toNat < Format.double.infinity := by
  rcases Int.lt_or_le p 0 with hneg | hpos
  · exact ⟨_, if_pos hneg, scaleDown_lt 4 (ofWord_lt _) _⟩
  · obtain ⟨n, rfl⟩ := Int.eq_ofNat_of_zero_le hpos
    rw [zpow_natCast] at hv
    have hv : s * 10 ^ n ≤ limit := by exact_mod_cast hv
    unfold scale?
    rw [if_neg (by omega), Int.toNat_natCast]
    dsimp only
    split_ifs with h0 hlarge hfinite
    · exact ⟨_, rfl, ofWord_lt _⟩
    · have hpow : 10 ^ n ≤ s * 10 ^ n := Nat.le_mul_of_pos_left _ (Nat.pos_of_ne_zero h0)
      exact absurd (hpow.trans hv) (Nat.not_le.mpr (limit_lt (by omega)))
    · exact ⟨_, rfl, mul_tenTo_lt hs (by omega) hv⟩
    · exact absurd (isFinite_of_lt (mul_tenTo_lt hs (by omega) hv)) hfinite

/-- A short word times or over a short power of ten is read as the double nearest to it. -/
theorem scale?_exact {s k : Nat} {p : Int} (hs : s < 2 ^ 53) (hp : p.natAbs ≤ 22)
    (h : Near k (s * 10 ^ p)) (hk : k < Format.double.infinity) :
    ∃ r, scale? s p = some r ∧ r.bits.toNat = k := by
  have hsmall : (UInt64.ofNat s).toNat = s := UInt64.toNat_ofNat_of_lt' (hs.trans (by decide))
  have hword : Double.value (ofWord (UInt64.ofNat s)).bits.toNat = s := by
    rw [value_ofWord (by rwa [hsmall]), hsmall]
  have hunique {b : Nat} (hb : Nearest b (s * 10 ^ p)) : b = k :=
    le_antisymm (hb.mono (h.nearest hk) le_rfl) ((h.nearest hk).mono hb le_rfl)
  rcases Int.lt_or_le p 0 with hneg | hpos
  · obtain ⟨n, rfl⟩ : ∃ n : Nat, p = -n := ⟨p.natAbs, by omega⟩
    have hexact : Nearest ((ofWord (UInt64.ofNat s)).div (tenTo n)).bits.toNat
        (s * 10 ^ (-n : ℤ)) := by
      have hdiv := nearest_div (ofWord_lt (UInt64.ofNat s)) (tenTo_lt (n := n) (by omega))
        (tenTo_pos (by omega))
      rwa [hword, value_tenTo (by omega), div_eq_mul_inv, ← zpow_natCast, ← zpow_neg] at hdiv
    refine ⟨_, if_pos hneg, ?_⟩
    rw [Int.natAbs_neg, Int.natAbs_natCast, scaleDown, if_pos (by omega)]
    exact hunique hexact
  · obtain ⟨n, rfl⟩ := Int.eq_ofNat_of_zero_le hpos
    have hexact : Nearest ((ofWord (UInt64.ofNat s)).mul (tenTo n)).bits.toNat
        (s * 10 ^ (n : ℤ)) := by
      have hmul := nearest_mul (ofWord_lt (UInt64.ofNat s)) (tenTo_lt (n := n) (by omega))
      rwa [hword, value_tenTo (by omega), ← zpow_natCast] at hmul
    have hk' := hunique hexact
    unfold scale?
    rw [if_neg (by omega), Int.toNat_natCast]
    dsimp only
    split_ifs with h0 hlarge hfinite
    · subst h0
      refine ⟨_, rfl, hunique ?_⟩
      simpa using nearest_ofWord 0
    · omega
    · exact ⟨_, rfl, hk'⟩
    · exact absurd (isFinite_of_lt (by rw [hk']; exact hk)) hfinite

/-! ### Precision -/

section Precision

variable {s k n : Nat} {r : Double}

theorem close_word (h0 : 0 < s) (hs : s < 2 ^ 64) :
    Close 1 (Double.value (ofWord (UInt64.ofNat s)).bits.toNat) s := by
  have hnear := near_ofWord (UInt64.ofNat s)
  rw [UInt64.toNat_ofNat_of_lt' hs] at hnear
  exact hnear.close ((zpow_le_one_of_nonpos₀ one_le_two (by decide)).trans (by exact_mod_cast h0))

theorem close_tenTo (hn : n ≤ 308) :
    Close 1 (Double.value (tenTo n).bits.toNat) (10 ^ n) :=
  (near_tenTo hn).close
    ((zpow_le_one_of_nonpos₀ one_le_two (by decide)).trans (one_le_pow₀ (by norm_num)))

theorem near_mul_tenTo (h0 : 0 < s) (hs : s < 2 ^ 64) (hn : n ≤ 308)
    (hlt : ((ofWord (UInt64.ofNat s)).mul (tenTo n)).bits.toNat < Format.double.infinity) :
    ∃ w, Close 2 (s * 10 ^ n) w ∧ Near ((ofWord (UInt64.ofNat s)).mul (tenTo n)).bits.toNat w :=
  ⟨_, ((close_word h0 hs).mul (close_tenTo hn) (value_nonneg _) (Nat.cast_nonneg _)
    (value_nonneg _) (by positivity)).symm, (nearest_mul (ofWord_lt _) (tenTo_lt hn)).near hlt⟩

theorem tenTo_value_pos (hn : n ≤ 308) : 0 < Double.value (tenTo n).bits.toNat :=
  zero_lt_one.trans_le (one_le_tenTo hn)

theorem near_div_tenTo (h0 : 0 < s) (hs : s < 2 ^ 64) (hn : n ≤ 308) :
    ∃ w, Close 2 (s / 10 ^ n) w ∧ Near ((ofWord (UInt64.ofNat s)).div (tenTo n)).bits.toNat w :=
  ⟨_, ((close_word h0 hs).div (close_tenTo hn) (value_nonneg _) (Nat.cast_nonneg _)
    (tenTo_value_pos hn) (by positivity)).symm,
    (nearest_div (ofWord_lt _) (tenTo_lt hn) (tenTo_pos hn)).near (div_tenTo_lt (ofWord_lt _) hn)⟩

/-- A large enough word divided by the largest power of ten has a full significand. -/
theorem two_zpow_le_div (h3 : 3 ≤ s) (hs : s < 2 ^ 64) : (2 : ℚ) ^ (-1022 : ℤ) ≤
    Double.value (ofWord (UInt64.ofNat s)).bits.toNat / Double.value (tenTo 308).bits.toNat := by
  have hword : 3 ≤ Double.value (ofWord (UInt64.ofNat s)).bits.toNat := by
    obtain ⟨l, hl⟩ := exists_value (m := 3) (e := 0) (by decide) (by decide)
    rw [zpow_zero, mul_one, Nat.cast_ofNat] at hl
    have hnear := near_ofWord (UInt64.ofNat s)
    rw [UInt64.toNat_ofNat_of_lt' hs] at hnear
    rw [← hl]
    exact value_strictMono.monotone ((near_value l).mono hnear (by rw [hl]; exact_mod_cast h3))
  have hten : Double.value (tenTo 308).bits.toNat ≤ 3 * 2 ^ (1022 : ℤ) := by
    have hexp : (51 : Nat) + ((2045 : Nat) - 1074 : ℤ) = 1022 := rfl
    have hbound := value_eq (p := 2045) (r := 3 * 2 ^ 51) (by decide) (.inr (by decide))
    rw [Nat.cast_mul, Nat.cast_pow, Nat.cast_ofNat, Nat.cast_ofNat, mul_assoc, ← zpow_natCast,
      ← zpow_add₀ two_ne_zero, hexp] at hbound
    exact hbound ▸ value_strictMono.monotone tenTo_308_le
  rw [le_div_iff₀ (tenTo_value_pos le_rfl), zpow_neg, inv_mul_le_iff₀ (by positivity)]
  calc Double.value (tenTo 308).bits.toNat ≤ 3 * 2 ^ (1022 : ℤ) := hten
    _ ≤ 2 ^ (1022 : ℤ) * Double.value (ofWord (UInt64.ofNat s)).bits.toNat := by
      rw [mul_comm]
      exact mul_le_mul_of_nonneg_left hword (by positivity)

theorem near_div_twice (h3 : 3 ≤ s) (hs : s < 2 ^ 64) (hn : n ≤ 22) :
    ∃ w, Close 3 (s / 10 ^ 308 / 10 ^ n) w ∧
      Near (((ofWord (UInt64.ofNat s)).div (tenTo 308)).div (tenTo n)).bits.toNat w := by
  have hlt := div_tenTo_lt (ofWord_lt (UInt64.ofNat s)) (n := 308) le_rfl
  have hnear := (nearest_div (ofWord_lt (UInt64.ofNat s)) (tenTo_lt le_rfl)
    (tenTo_pos le_rfl)).near hlt
  have hfirst := (hnear.close (two_zpow_le_div h3 hs)).trans
    ((close_word (by omega) hs).div (close_tenTo le_rfl) (value_nonneg _) (Nat.cast_nonneg _)
      (tenTo_value_pos le_rfl) (by positivity))
  have hn308 : n ≤ 308 := by omega
  have hsecond := hfirst.div (close_of_eq (value_tenTo hn)) (value_nonneg _) (by positivity)
    (tenTo_value_pos hn308) (by positivity)
  exact ⟨_, hsecond.symm,
    (nearest_div hlt (tenTo_lt hn308) (tenTo_pos hn308)).near (div_tenTo_lt hlt hn308)⟩

/-- The least words divided by a larger power of ten are read as the double nearest to the
quotient. -/
theorem scale?_least : ∀ s < 3, 0 < s → ∀ j < 16, (scale? s (-(309 + j : Nat))).map (·.bits.toNat) =
    some (Format.double.round s (10 ^ (309 + j)) 0) := by
  decide +kernel

theorem near_scale?_least (h0 : 0 < s) (h3 : s < 3) {j : Nat} (hj : j < 16)
    (hr : scale? s (-(309 + j : Nat)) = some r) (hlt : r.bits.toNat < Format.double.infinity) :
    Near r.bits.toNat (s / 10 ^ (309 + j)) := by
  have hbits := scale?_least s h3 h0 j hj
  rw [hr, Option.map_some, Option.some_inj] at hbits
  have hround := nearest_round h0 (show 0 < 10 ^ (309 + j) by positivity) 0
  rw [zpow_zero, mul_one, Nat.cast_pow, Nat.cast_ofNat, ← hbits] at hround
  exact hround.near hlt

/-- A word times a power of ten that is not too small is read as the double nearest to a number that
is at most three roundings away. -/
theorem scale?_close {p : Int} (h0 : 0 < s) (hs : s < 2 ^ 64) (hp : -324 ≤ p)
    (hr : scale? s p = some r) (hlt : r.bits.toNat < Format.double.infinity) :
    ∃ c ≤ 3, ∃ w, Close c (s * 10 ^ p) w ∧ Near r.bits.toNat w := by
  rcases Int.lt_or_le p 0 with hneg | hpos
  · obtain ⟨n, rfl⟩ : ∃ n : Nat, p = -n := ⟨p.natAbs, by omega⟩
    have hscale : (s : ℚ) * 10 ^ (-n : ℤ) = s / 10 ^ n := by
      rw [zpow_neg, zpow_natCast, div_eq_mul_inv]
    rw [hscale]
    have hdown : scaleDown 4 (ofWord (UInt64.ofNat s)) n = r := by
      have hr := (if_pos hneg).symm.trans hr
      rwa [Int.natAbs_neg, Int.natAbs_natCast, Option.some_inj] at hr
    rw [scaleDown] at hdown
    split_ifs at hdown with hn hzero
    · subst hdown
      obtain ⟨w, hw, hnear⟩ := near_div_tenTo h0 hs hn
      exact ⟨2, by decide, w, hw, hnear⟩
    · have hword := (close_word h0 hs).ge
      have hvalue : Double.value Double.zero.bits.toNat = 0 := value_zero
      rw [hzero, hvalue, zero_mul] at hword
      exact absurd hword (not_le.mpr (by exact_mod_cast h0))
    · rcases Nat.lt_or_ge s 3 with hleast | h3
      · obtain ⟨j, rfl⟩ : ∃ j, n = 309 + j := ⟨n - 309, by omega⟩
        exact ⟨0, by decide, _, close_of_eq rfl, near_scale?_least h0 hleast (by omega) hr hlt⟩
      · obtain ⟨j, rfl⟩ : ∃ j, n = 308 + j := ⟨n - 308, by omega⟩
        rw [Nat.add_sub_cancel_left, scaleDown, if_pos (by omega)] at hdown
        subst hdown
        obtain ⟨w, hw, hnear⟩ := near_div_twice h3 hs (n := j) (by omega)
        rw [div_div, ← pow_add] at hw
        exact ⟨3, le_rfl, w, hw, hnear⟩
  · obtain ⟨n, rfl⟩ := Int.eq_ofNat_of_zero_le hpos
    unfold scale? at hr
    rw [if_neg (by omega), if_neg h0.ne', Int.toNat_natCast] at hr
    dsimp only at hr
    split_ifs at hr with hlarge hfinite
    obtain rfl := Option.some_inj.mp hr
    obtain ⟨w, hw, hnear⟩ := near_mul_tenTo h0 hs (n := n) (by omega) hlt
    exact ⟨2, by decide, w, by rwa [zpow_natCast], hnear⟩

end Precision

end Json.Numeral

/-! ### Stored doubles -/

namespace Double

variable {x : Double}

/-- The double that a stored double is read as, none if it is not read as one. -/
def reread (x : Double) : Option Double := Stored.read (Stored.write x)

/-- A double is stored as digits that make up a short word and a short power of ten. -/
def isShort (x : Double) : Bool :=
  (Json.Numeral.ofText? (x.text Layout.stored)).any fun n =>
    n.leading.1 < 2 ^ 53 ∧ n.leading.2.natAbs ≤ 22

def isNegative (x : Double) : Bool := Format.double.isNegative x.bits.toNat

/-- How many steps from double to double lead from one to another of the same sign. -/
def steps (x y : Double) : Nat := ((x.bits.toNat : ℤ) - y.bits.toNat).natAbs

theorem reread_eq_none (h : x.isFinite = false) : x.reread = none := by
  show Json.double? (if x.isFinite then _ else _) = none
  rw [h]
  rfl

theorem ext_toNat {y : Double} (h : y.bits.toNat = x.bits.toNat) : y = x := by
  obtain ⟨a⟩ := x
  obtain ⟨b⟩ := y
  exact congrArg mk (UInt64.toNat_inj.mp h)

theorem isNegative_withSign {negative : Bool} {k : Nat}
    (hx : x.bits.toNat = Format.double.withSign negative k) (hk : k < Format.double.infinity) :
    x.isNegative = negative := by
  have hsmall : k < 2 ^ 63 := hk.trans (by decide)
  show decide (2 ^ 63 ≤ x.bits.toNat) = negative
  rw [hx]
  cases negative
  · exact decide_eq_false (Nat.not_le.mpr hsmall)
  · exact decide_eq_true (Nat.le_add_right _ _)

theorem halfway_le_limit {k : Nat} (hk : k + 1 < Format.double.infinity) :
    halfway k ≤ Json.Numeral.limit := by
  have hlast := halfway_eq (p := 2045) (r := 2 ^ 53 - 2) (by decide) (.inr (by decide))
  have hle : k ≤ 2045 * 2 ^ 52 + (2 ^ 53 - 2) := by
    rw [infinity_eq] at hk
    omega
  have hexp : ((2045 : Nat) : ℤ) - 1074 = (970 : Nat) + 1 := rfl
  have hlimit : (Json.Numeral.limit : ℚ) = (2 ^ 54 - 3 : Nat) * (2 : Nat) ^ 970 := by
    unfold Json.Numeral.limit
    generalize 970 = e
    rw [Nat.cast_mul, Nat.cast_pow]
  refine (halfway_strictMono.monotone hle).trans (hlast.trans ?_).le
  rw [hlimit, hexp, zpow_add_one₀ two_ne_zero, zpow_natCast, Nat.cast_ofNat]
  generalize (2 : ℚ) ^ 970 = t
  norm_num
  ring

/-- A double under the sign of the literal. -/
theorem reread_of_scale {n : Numeral} {r : Double} (h : x.isFinite)
    (hn : Numeral.ofText? (x.text Layout.stored) = some n)
    (hr : Numeral.scale? n.leading.1 n.leading.2 = some r)
    (hlt : r.bits.toNat < Format.double.infinity) : ∃ y, x.reread = some y ∧ y.isFinite ∧
      y.bits.toNat = Format.double.withSign n.isNegative r.bits.toNat := by
  have hsmall : r.bits.toNat < 2 ^ 63 := hlt.trans (by decide)
  have hread : x.reread = some (if n.isNegative then r.neg else r) := by
    show Json.double? (if x.isFinite then _ else _) = _
    rw [if_pos h]
    show (Numeral.ofText? (x.text Layout.stored)).bind Numeral.double? = _
    rw [hn, Option.bind_some, Numeral.double?, Numeral.magnitude?_eq, hr]
    rfl
  refine ⟨_, hread, ?_⟩
  cases n.isNegative
  · exact ⟨isFinite_of_lt hlt, rfl⟩
  · have hneg := toNat_neg hsmall
    refine ⟨isFinite_of_magnitude ?_, hneg⟩
    rw [if_pos rfl, hneg]
    show (2 ^ 63 + r.bits.toNat) % 2 ^ 63 < _
    rwa [Nat.add_mod_left, Nat.mod_eq_of_lt hsmall]

/-- What a finite double is read as: a finite double of the same sign that is no more than three
steps away, and itself if it is short. -/
structure Recalls (x y : Double) : Prop where
  finite : y.isFinite
  sign : y.isNegative = x.isNegative
  steps : x.steps y ≤ 3
  short : x.isShort → y = x

theorem recalls_self (h : x.isFinite) : x.Recalls x :=
  ⟨h, rfl, by rw [Double.steps, sub_self]; decide, fun _ => rfl⟩

/-- Zero and the largest finite doubles are read as they are. -/
theorem reread_of_extreme {negative : Bool} {k : Nat}
    (hx : x.bits.toNat = Format.double.withSign negative k) (hk : k = 0 ∨ k = 0x7fefffffffffffff) :
    x.reread = some x := by
  have hself {y : Double} (hy : y.bits.toNat = Format.double.withSign negative k)
      (hread : y.reread = some y) : x.reread = some x := by
    rwa [ext_toNat (hx.trans hy.symm)]
  rcases hk with rfl | rfl <;> cases negative
  · exact hself (y := ⟨0⟩) rfl (by decide +kernel)
  · exact hself (y := ⟨0x8000000000000000⟩) rfl (by decide +kernel)
  · exact hself (y := ⟨0x7fefffffffffffff⟩) rfl (by decide +kernel)
  · exact hself (y := ⟨0xffefffffffffffff⟩) rfl (by decide +kernel)

theorem steps_withSign {y : Double} {negative : Bool} {k l : Nat}
    (hx : x.bits.toNat = Format.double.withSign negative k)
    (hy : y.bits.toNat = Format.double.withSign negative l) :
    x.steps y = ((k : ℤ) - l).natAbs := by
  have hwith (m : Nat) :
      Format.double.withSign negative m = (if negative then 2 ^ 63 else 0) + m := by
    cases negative
    · exact (Nat.zero_add m).symm
    · rfl
  rw [Double.steps, hx, hy, hwith, hwith]
  omega

theorem reread_of_isFinite (h : x.isFinite) : ∃ y, x.reread = some y ∧ x.Recalls y := by
  obtain ⟨n, k, -, hn, hnear, hlt, hbits, hword, hpower⟩ := stored_isFinite h
  by_cases hextreme : k = 0 ∨ k = 0x7fefffffffffffff
  · exact ⟨x, reread_of_extreme hbits hextreme, recalls_self h⟩
  · have hbelow : k + 1 < Format.double.infinity := by
      rw [infinity_eq] at hlt ⊢
      omega
    have h0 : 0 < n.leading.1 := by
      by_contra h0
      rw [Nat.eq_zero_of_not_pos h0, Nat.cast_zero, zero_mul, ← value_zero] at hnear
      exact hextreme (.inl (hnear.unique (near_value 0)))
    obtain ⟨r, hr, hrlt⟩ := Numeral.scale?_isSome (by omega)
      (hnear.above.1.trans (halfway_le_limit hbelow))
    obtain ⟨c, hc, w, hw, hrnear⟩ := Numeral.scale?_close h0 (by omega) hpower hr hrlt
    obtain ⟨y, hy, hfinite, hybits⟩ := reread_of_scale h hn hr hrlt
    refine ⟨y, hy, hfinite, ?_, ?_, fun hshort => ext_toNat ?_⟩
    · rw [isNegative_withSign hybits hrlt, isNegative_withSign hbits hlt]
    · have hup := hnear.le_add hrnear hw
      have hdown := hrnear.le_add hnear hw.symm
      rw [steps_withSign hbits hybits]
      omega
    · rw [isShort, hn, Option.any_some, decide_eq_true_eq] at hshort
      obtain ⟨r', hr', hk⟩ := Numeral.scale?_exact hshort.1 hshort.2 hnear hlt
      rw [hr, Option.some_inj] at hr'
      rw [hybits, hbits, hr', hk]

end Double
end SsaKit
