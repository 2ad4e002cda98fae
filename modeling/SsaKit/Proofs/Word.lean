import SsaKit.Operator

/-! Words cut to a width. -/
namespace SsaKit.Word

variable {bits : Nat} {a : UInt64}

theorem toNat_one_shiftLeft (h : bits < 64) : ((1 : UInt64) <<< UInt64.ofNat bits).toNat = 2 ^ bits := by
  have hb : bits < 2 ^ 64 := Nat.lt_trans h (by decide)
  rw [UInt64.toNat_shiftLeft, UInt64.toNat_ofNat_of_lt' hb, Nat.mod_eq_of_lt h, UInt64.toNat_one,
    Nat.one_shiftLeft]
  exact Nat.mod_eq_of_lt (Nat.pow_lt_pow_right (by decide) h)

theorem toNat_mask (bits : Nat) (a : UInt64) : (mask bits a).toNat = a.toNat % 2 ^ min bits 64 := by
  unfold mask
  split
  · rename_i h
    rw [Nat.min_eq_right h]
    exact (Nat.mod_eq_of_lt a.toNat_lt).symm
  · rename_i h
    have h := Nat.lt_of_not_le h
    rw [Nat.min_eq_left (Nat.le_of_lt h), UInt64.toNat_mod, toNat_one_shiftLeft h]

theorem mask_mask (bits : Nat) (a : UInt64) : mask bits (mask bits a) = mask bits a := by
  apply UInt64.toNat_inj.mp
  simp [toNat_mask]

theorem toNat_mask_lt (h : bits ≤ 64) : (mask bits a).toNat < 2 ^ bits := by
  rw [toNat_mask, Nat.min_eq_left h]
  exact Nat.mod_lt _ (Nat.two_pow_pos bits)

/-- A width beyond that of a word reads the word. -/
theorem signed_eq_bmod (hpos : 0 < bits) (a : UInt64) :
    signed bits a = Int.bmod a.toNat (2 ^ min bits 64) := by
  unfold signed
  split
  · rename_i hwide
    rw [Nat.min_eq_right (by omega), Int64.toInt, BitVec.toInt_eq_toNat_bmod]
    rfl
  · rw [Nat.min_eq_left (by omega)]

theorem signed_bounds (bits : Nat) (a : UInt64) : -2 ^ 63 ≤ signed bits a ∧ signed bits a < 2 ^ 63 := by
  unfold signed
  split
  · exact ⟨a.toInt64.le_toInt, a.toInt64.toInt_lt⟩
  · rename_i h
    have hpow : 2 ^ bits ≤ 2 ^ 63 := Nat.pow_le_pow_right (by decide) (by omega)
    have hpos := Nat.two_pow_pos bits
    have hlow := Int.le_bmod (x := a.toNat) hpos
    have hhigh := Int.bmod_lt (x := a.toNat) hpos
    omega

/-- A word within its width reads as itself in the lower half, and below zero in the upper half. -/
theorem signed_eq (hpos : 0 < bits) (ha : mask bits a = a) : signed bits a =
    if a.toNat < 2 ^ (min bits 64 - 1) then (a.toNat : Int)
    else a.toNat - (2 ^ min bits 64 : Nat) := by
  have halves : 2 ^ min bits 64 = 2 * 2 ^ (min bits 64 - 1) := by
    rw [← Nat.pow_succ', Nat.succ_eq_add_one, Nat.sub_add_cancel (by omega)]
  have hlt : a.toNat < 2 ^ min bits 64 := by
    rw [← ha, toNat_mask]
    exact Nat.mod_lt _ (Nat.two_pow_pos _)
  have hmod : (a.toNat : Int) % (2 ^ min bits 64 : Nat) = a.toNat :=
    Int.emod_eq_of_lt (by omega) (by omega)
  rw [signed_eq_bmod hpos, Int.bmod_def, hmod]
  split <;> split <;> omega

/-- A number that is not negative reads as the word that it is. -/
theorem toNat_signed (ha : mask bits a = a) (h : 0 ≤ signed bits a) :
    (signed bits a).toNat = a.toNat := by
  have whole {m : Nat} (hm : a.toNat < m) (h : 0 ≤ Int.bmod a.toNat m) :
      (Int.bmod a.toNat m).toNat = a.toNat := by
    have hmod : (a.toNat : Int) % m = a.toNat := Int.emod_eq_of_lt (by omega) (by omega)
    rw [Int.bmod_def, hmod] at h ⊢
    split
    · omega
    · rename_i hn
      rw [if_neg hn] at h
      omega
  unfold signed at h ⊢
  split
  · rename_i hwide
    rw [if_pos hwide] at h
    rw [Int64.toInt, BitVec.toInt_eq_toNat_bmod] at h ⊢
    exact whole a.toNat_lt h
  · rename_i hnarrow
    rw [if_neg hnarrow] at h
    refine whole ?_ h
    rw [← ha]
    exact toNat_mask_lt (by omega)

end SsaKit.Word

namespace SsaKit.BinaryOp

/-- The result of an operator is cut to its width. -/
theorem mask_onWords {op : BinaryOp} {bits : Nat} {a b r : UInt64}
    (h : op.onWords bits a b = .ok r) : Word.mask bits r = r := by
  unfold onWords at h
  dsimp only at h
  cases op with
  | udiv | sdiv | urem | srem =>
    dsimp only at h
    split at h
    · cases h
    · cases h
      exact Word.mask_mask bits _
  | fadd | fsub | fmul | fdiv | frem => cases h
  | _ =>
    cases h
    exact Word.mask_mask bits _

/-- No shift of at most 64 bits goes too far. -/
theorem not_overshifts {bits : Nat} (h : bits ≤ 64) (op : BinaryOp) (b : UInt64) :
    op.overshifts bits b = false := by
  simp only [overshifts, Bool.and_eq_false_iff, decide_eq_false_iff_not]
  omega

end SsaKit.BinaryOp
