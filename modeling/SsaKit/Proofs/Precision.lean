import SsaKit.Proofs.Nearest

/-! How many places a few roundings lead away from the nearest double. -/
namespace SsaKit.Double

variable {b c k l : Nat} {v v' w w' : ℚ}

/-- What rounding to the nearest double multiplies a number with at most. -/
def spread : ℚ := 1 + 1 / 2 ^ 53

theorem one_lt_spread : 1 < spread := by norm_num [spread]

theorem spread_pos : 0 < spread := zero_lt_one.trans one_lt_spread

/-- Numbers that are no more than some roundings away from each other. -/
structure Close (c : Nat) (v w : ℚ) : Prop where
  le : v ≤ w * spread ^ c
  ge : w ≤ v * spread ^ c

theorem Close.symm (h : Close c v w) : Close c w v := ⟨h.ge, h.le⟩

theorem close_of_eq (h : v = w) : Close 0 v w := by
  rw [h]
  exact ⟨by simp, by simp⟩

theorem Close.trans {u : ℚ} (h : Close b u v) (h' : Close c v w) : Close (b + c) u w := by
  have hb : (0 : ℚ) ≤ spread ^ b := by have := spread_pos; positivity
  have hc : (0 : ℚ) ≤ spread ^ c := by have := spread_pos; positivity
  constructor
  · calc u ≤ v * spread ^ b := h.le
      _ ≤ w * spread ^ c * spread ^ b := mul_le_mul_of_nonneg_right h'.le hb
      _ = w * spread ^ (b + c) := by ring
  · calc w ≤ v * spread ^ c := h'.ge
      _ ≤ u * spread ^ b * spread ^ c := mul_le_mul_of_nonneg_right h.ge hc
      _ = u * spread ^ (b + c) := by ring

theorem Close.mul (h : Close b v w) (h' : Close c v' w') (hv : 0 ≤ v) (hw : 0 ≤ w) (hv' : 0 ≤ v')
    (hw' : 0 ≤ w') : Close (b + c) (v * v') (w * w') := by
  have hs := spread_pos
  constructor
  · calc v * v' ≤ w * spread ^ b * (w' * spread ^ c) := mul_le_mul h.le h'.le hv' (by positivity)
      _ = w * w' * spread ^ (b + c) := by ring
  · calc w * w' ≤ v * spread ^ b * (v' * spread ^ c) := mul_le_mul h.ge h'.ge hw' (by positivity)
      _ = v * v' * spread ^ (b + c) := by ring

theorem Close.inv (h : Close c v w) (hv : 0 < v) (hw : 0 < w) : Close c v⁻¹ w⁻¹ := by
  have hs := spread_pos
  constructor
  · rw [← div_eq_inv_mul, le_div_iff₀ hw, ← div_eq_inv_mul, div_le_iff₀ hv, mul_comm]
    exact h.ge
  · rw [← div_eq_inv_mul, le_div_iff₀ hv, ← div_eq_inv_mul, div_le_iff₀ hw, mul_comm]
    exact h.le

theorem Close.div (h : Close b v w) (h' : Close c v' w') (hv : 0 ≤ v) (hw : 0 ≤ w) (hv' : 0 < v')
    (hw' : 0 < w') : Close (b + c) (v / v') (w / w') := by
  rw [div_eq_mul_inv, div_eq_mul_inv]
  exact h.mul (h'.inv hv' hw') hv hw (inv_pos.mpr hv').le (inv_pos.mpr hw').le

/-! ### Neighbours -/

/-- The least double whose significand is full. -/
theorem value_normal : value (2 ^ 52) = 2 ^ (-1022 : ℤ) := by
  have hvalue := value_eq (p := 0) (r := 2 ^ 52) (by decide) (.inl rfl)
  rw [Nat.zero_mul, Nat.zero_add] at hvalue
  rw [hvalue, Nat.cast_pow, Nat.cast_ofNat, ← zpow_natCast, ← zpow_add₀ two_ne_zero]
  rfl

theorem value_spread (k : Nat) : value k * spread < value (k + 1) := by
  obtain ⟨p, r, rfl, hr, hp⟩ := exists_rung k
  have hnext := value_eq (p := p) (r := r + 1) (by omega) (by omega)
  have hshort : (r : ℚ) < 2 ^ 53 := by exact_mod_cast hr
  rw [add_assoc, hnext, value_eq hr.le hp, mul_right_comm]
  refine mul_lt_mul_of_pos_right ?_ (by positivity)
  rw [spread]
  push_cast
  linarith

theorem value_succ_le (hk : 2 ^ 52 ≤ k) : value (k + 1) ≤ value k * (1 + 2 / 2 ^ 53) := by
  obtain ⟨p, r, rfl, hr, hp⟩ := exists_rung k
  have hnext := value_eq (p := p) (r := r + 1) (by omega) (by omega)
  have hfull : (2 : ℚ) ^ 52 ≤ r := by exact_mod_cast (by omega : 2 ^ 52 ≤ r)
  rw [add_assoc, hnext, value_eq hr.le hp, mul_right_comm]
  refine mul_le_mul_of_nonneg_right ?_ (by positivity)
  push_cast
  linarith

/-- From half way to half way it is further than one rounding leads. -/
theorem halfway_spread (k : Nat) : halfway k * spread < halfway (k + 1) := by
  have hfirst := value_spread k
  have hsecond := value_spread (k + 1)
  rw [halfway, halfway]
  linarith

/-- A number that is not too small is one rounding away from the nearest double. -/
theorem Near.close (h : Near k v) (hv : 2 ^ (-1022 : ℤ) ≤ v) : Close 1 (value k) v := by
  have hfull := (near_value (2 ^ 52)).mono h (value_normal ▸ hv)
  have habove := h.above.1
  have hnext := value_succ_le hfull
  have hk := value_nonneg k
  rw [halfway] at habove
  refine ⟨?_, ?_⟩ <;> rw [pow_one, spread]
  · rcases Nat.lt_or_eq_of_le hfull with hlt | rfl
    · obtain ⟨j, rfl⟩ := Nat.exists_eq_add_one_of_ne_zero (Nat.ne_zero_of_lt hlt)
      have hbelow := (h.below j rfl).1
      have hprev := value_succ_le (Nat.le_of_lt_succ hlt)
      have hj := value_nonneg j
      rw [halfway] at hbelow
      linarith
    · rw [value_normal] at hk ⊢
      linarith
  · linarith

theorem halfway_spread_pow (k : Nat) : halfway k * spread ^ c ≤ halfway (k + c) := by
  induction c with
  | zero => simp
  | succ c ih =>
    rw [pow_succ, ← mul_assoc, ← add_assoc]
    exact (mul_le_mul_of_nonneg_right ih spread_pos.le).trans (halfway_spread _).le

/-- Numbers a few roundings away from each other have their nearest doubles as few places apart. -/
theorem Near.le_add (h : Near k v) (h' : Near l w) (hc : Close c v w) : l ≤ k + c := by
  have hs := spread_pos
  cases c with
  | zero =>
    have hv : v = w := le_antisymm (by simpa using hc.le) (by simpa using hc.ge)
    exact (h'.unique (hv ▸ h)).le
  | succ c =>
    by_contra hlt
    have hfar : w < halfway (k + (c + 1)) :=
      calc w ≤ v * spread ^ (c + 1) := hc.ge
        _ ≤ halfway k * spread ^ (c + 1) := mul_le_mul_of_nonneg_right h.above.1 (by positivity)
        _ = halfway k * spread ^ c * spread := by ring
        _ ≤ halfway (k + c) * spread := mul_le_mul_of_nonneg_right (halfway_spread_pow k) hs.le
        _ < halfway (k + (c + 1)) := halfway_spread _
    exact absurd (h'.halfway_le (Nat.lt_of_not_le hlt)) (not_le.mpr hfar)

end SsaKit.Double
