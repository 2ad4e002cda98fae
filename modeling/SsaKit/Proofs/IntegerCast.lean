import SsaKit.Proofs.Acceptance
import SsaKit.Proofs.IntegerArithmetic
import SsaKit.Proofs.Operation

/-! What resizing does to the numbers that integers stand for, at widths on both sides of that of a
word. -/
namespace SsaKit

namespace Word

variable {bits a b : Nat} {word : UInt64}

theorem mask_eq_self (h : word.toNat < 2 ^ min bits 64) : mask bits word = word := by
  rw [← UInt64.toNat_inj, toNat_mask, Nat.mod_eq_of_lt h]

theorem mask_mask_of_le (hle : a ≤ b) (word : UInt64) : mask a (mask b word) = mask a word := by
  rw [← UInt64.toNat_inj, toNat_mask, toNat_mask, toNat_mask]
  exact Nat.mod_mod_of_dvd _ (pow_dvd_pow 2 (by omega))

theorem mask_ofInt_signed (hpos : 0 < a) (word : UInt64) :
    mask a (ofInt (signed a word)) = mask a word := by
  have hword : ((ofInt (signed a word)).toNat : Int) % 2 ^ min a 64 = word.toNat % 2 ^ min a 64 := by
    rw [ofInt_modEq (Nat.min_le_right a 64), signed_eq_bmod hpos]
    exact_mod_cast Int.bmod_emod
  rw [← UInt64.toNat_inj, toNat_mask, toNat_mask]
  exact_mod_cast hword

theorem signed_mask_ofInt (hpos : 0 < b) (z : Int) :
    signed b (mask b (ofInt z)) = Int.bmod z (2 ^ min b 64) := by
  have hword : ((mask b (ofInt z)).toNat : Int) = z % (2 ^ min b 64 : Nat) := by
    rw [toNat_mask]
    push_cast
    exact ofInt_modEq (Nat.min_le_right b 64) z
  rw [signed_eq_bmod hpos, hword, Int.emod_bmod]

/-- A number of the narrower width is one of the wider width. -/
theorem bmod_signed (hpos : 0 < a) (hle : a ≤ b) (word : UInt64) :
    Int.bmod (signed a word) (2 ^ min b 64) = signed a word := by
  have hnarrow : 2 ^ min a 64 = 2 * 2 ^ (min a 64 - 1) := by
    rw [← Nat.pow_succ', Nat.succ_eq_add_one, Nat.sub_add_cancel (by omega)]
  have hwide : (2 : Nat) ^ min a 64 ∣ 2 ^ min b 64 := pow_dvd_pow 2 (by omega)
  have hpow : 2 ^ min a 64 ≤ 2 ^ min b 64 := Nat.le_of_dvd (Nat.two_pow_pos _) hwide
  rw [signed_eq_bmod hpos]
  have hlow := Int.le_bmod (x := word.toNat) (m := 2 ^ min a 64) (Nat.two_pow_pos _)
  have hhigh := Int.bmod_lt (x := word.toNat) (m := 2 ^ min a 64) (Nat.two_pow_pos _)
  generalize Int.bmod word.toNat (2 ^ min a 64) = x at hlow hhigh ⊢
  exact Int.bmod_eq_of_le (by omega) (by omega)

/-- A word within a width reads as itself where it does not take up the sign. -/
theorem signed_eq_toNat_iff (hpos : 0 < bits) (hw : word.toNat < 2 ^ min bits 64) :
    signed bits word = word.toNat ↔ word.toNat < 2 ^ (min bits 64 - 1) := by
  rw [signed_eq hpos (mask_eq_self hw)]
  split <;> omega

end Word

namespace CastOp

open Word

variable {op : CastOp} {a b c : Nat} {word : UInt64}

theorem signed_resize_sext (hpos : 0 < a) (hle : a ≤ b) (word : UInt64) :
    signed b (sext.resize a b word) = signed a word := by
  rw [resize, signed_mask_ofInt (by omega), bmod_signed hpos hle]

/-- Behind zeros a number reads as itself, unless it is as wide as a word and the readings of the
wider width go by the word's own sign. -/
theorem signed_resize_zext (hlt : a < b) (hw : word.toNat < 2 ^ min a 64) :
    signed b (zext.resize a b word) = word.toNat ↔ a < 64 ∨ word.toNat < 2 ^ 63 := by
  have hpow : 2 ^ min a 64 ≤ 2 ^ min b 64 := Nat.pow_le_pow_right (by decide) (by omega)
  have hwide : word.toNat < 2 ^ min b 64 := by omega
  change signed b (mask b word) = word.toNat ↔ _
  rw [mask_eq_self hwide, signed_eq_toNat_iff (by omega) hwide]
  obtain ha | ha := Nat.lt_or_ge a 64
  · have hroom : 2 ^ min a 64 ≤ 2 ^ (min b 64 - 1) := Nat.pow_le_pow_right (by decide) (by omega)
    simp only [ha, true_or, iff_true]
    omega
  · have hmin : min b 64 - 1 = 63 := by omega
    simp only [Nat.not_lt.mpr ha, false_or, hmin]

/-- Cutting off what an extension put in front gives the number back. -/
theorem resize_back (hop : op = zext ∨ op = sext) (hpos : 0 < a) (hle : a ≤ b)
    (hw : word.toNat < 2 ^ min a 64) : trunc.resize b a (op.resize a b word) = word := by
  obtain rfl | rfl := hop
  · change mask a (mask b word) = word
    rw [mask_mask_of_le hle, mask_eq_self hw]
  · change mask a (mask b (ofInt (signed a word))) = word
    rw [mask_mask_of_le hle, mask_ofInt_signed hpos, mask_eq_self hw]

theorem resize_trunc (hle : c ≤ b) (word : UInt64) :
    trunc.resize b c (trunc.resize a b word) = trunc.resize a c word :=
  mask_mask_of_le hle word

end CastOp

namespace TypeTable

variable {t : TypeTable} {source target : TypeId} {a b : Nat} {op : CastOp} {word : UInt64}

theorem WellFormed.width_pos {id : TypeId} (ht : t.WellFormed) (he : t.entry id = .int a) : 0 < a := by
  have hid : t.contains id := contains_of_kind (k := .integer) (by rw [kind, he]; rfl) (by decide)
  have hfits := ht.fits id hid
  rw [he] at hfits
  exact hfits.1

theorem scalarBits_int {id : TypeId} (he : t.entry id = .int a) : t.scalarBits id = some a := by
  simp only [scalarBits, scalarBits.scalar, he]

theorem Shape.canonical {id : TypeId} (hd : t.Shape id (.int a word)) :
    word.toNat < 2 ^ min a 64 := by
  obtain ha | ha := Nat.le_total a 64
  · rw [Nat.min_eq_left ha]
    exact hd.2 ha
  · rw [Nat.min_eq_right ha]
    exact word.toNat_lt

theorem kind_int {id : TypeId} (he : t.entry id = .int a) : t.kind id = .integer := by
  rw [kind, he]
  rfl

/-- Integers are extended to wider ones. -/
theorem extension_legal (ha : t.entry source = .int a) (hb : t.entry target = .int b)
    (hop : op = .zext ∨ op = .sext) : Builder.isCastLegal t op source target ↔ a < b := by
  obtain rfl | rfl := hop <;>
    simp [Builder.isCastLegal, kind_int ha, kind_int hb, scalarBits_int ha, scalarBits_int hb]

/-- Integers are cut to narrower ones. -/
theorem truncation_legal (ha : t.entry source = .int a) (hb : t.entry target = .int b) :
    Builder.isCastLegal t .trunc source target ↔ b < a := by
  simp [Builder.isCastLegal, kind_int ha, kind_int hb, scalarBits_int ha, scalarBits_int hb]

end TypeTable

namespace Datum

open CastOp TypeTable Word

variable {t : TypeTable} {source target : TypeId} {a b : Nat} {word : UInt64}

theorem cast_int {op : CastOp} (hop : op = .trunc ∨ op = .zext ∨ op = .sext)
    (hb : t.entry target = .int b) :
    cast t op target (.int a word) = .ok (.int b (op.resize a b word)) := by
  rw [cast, hb]
  · obtain rfl | rfl | rfl := hop <;> rfl
  · simp

/-- An accepted extension can be undone, and the result has the sign that the operand had under
`sext`. Under `zext` it stands for the operand read without a sign exactly if that fits the positive
half of a word. Two truncations in a row are the one that leads as far. -/
theorem conversions_read (ht : t.WellFormed) (hd : t.Shape source (.int a word))
    (hb : t.entry target = .int b) :
    (Builder.isCastLegal t .zext source target →
      ∃ r, cast t .zext target (.int a word) = .ok (.int b r) ∧ t.Shape target (.int b r) ∧
        (signed b r = word.toNat ↔ a < 64 ∨ word.toNat < 2 ^ 63) ∧
        Builder.isCastLegal t .trunc target source ∧
        cast t .trunc source (.int b r) = .ok (.int a word)) ∧
    (Builder.isCastLegal t .sext source target →
      ∃ r, cast t .sext target (.int a word) = .ok (.int b r) ∧ t.Shape target (.int b r) ∧
        signed b r = signed a word ∧ Builder.isCastLegal t .trunc target source ∧
        cast t .trunc source (.int b r) = .ok (.int a word)) ∧
    (Builder.isCastLegal t .trunc source target →
      ∃ r, cast t .trunc target (.int a word) = .ok (.int b r) ∧ t.Shape target (.int b r) ∧
        ∀ last, Builder.isCastLegal t .trunc target last →
          Builder.isCastLegal t .trunc source last ∧
          cast t .trunc last (.int b r) = cast t .trunc last (.int a word)) := by
  have ha := hd.1
  have hpos := ht.width_pos ha
  have back {op : CastOp} (hop : op = .zext ∨ op = .sext) (hlt : a < b) :
      Builder.isCastLegal t .trunc target source ∧
        cast t .trunc source (.int b (op.resize a b word)) = .ok (.int a word) := by
    refine ⟨(truncation_legal hb ha).mpr hlt, ?_⟩
    rw [cast_int (.inl rfl) ha, resize_back hop hpos (Nat.le_of_lt hlt) hd.canonical]
  refine ⟨fun hc => ?_, fun hc => ?_, fun hc => ?_⟩
  · have hlt := (extension_legal ha hb (.inl rfl)).mp hc
    exact ⟨_, cast_int (.inr (.inl rfl)) hb, shape_resize hb, signed_resize_zext hlt hd.canonical,
      back (.inl rfl) hlt⟩
  · have hlt := (extension_legal ha hb (.inr rfl)).mp hc
    exact ⟨_, cast_int (.inr (.inr rfl)) hb, shape_resize hb,
      signed_resize_sext hpos (Nat.le_of_lt hlt) word, back (.inr rfl) hlt⟩
  · have hlt := (truncation_legal ha hb).mp hc
    refine ⟨_, cast_int (.inl rfl) hb, shape_resize hb, fun last hlast => ?_⟩
    obtain ⟨c, hcw⟩ : ∃ c, t.entry last = .int c := by
      have hk : t.kind last = .integer := by
        simp only [Builder.isCastLegal, Bool.and_eq_true, beq_iff_eq] at hlast
        exact hlast.1.2
      cases he : t.entry last <;> simp_all [kind, Ty.kind]
    have hlt' := (truncation_legal hb hcw).mp hlast
    refine ⟨(truncation_legal ha hcw).mpr (hlt'.trans hlt), ?_⟩
    rw [cast_int (.inl rfl) hcw, cast_int (.inl rfl) hcw, resize_trunc (Nat.le_of_lt hlt')]

end Datum

/-- A program that compares two extended numbers. -/
def widening : List Call :=
  [.types (.ofType (.int 64)),
    .types (.ofType (.int 128)),
    .types (.ofType (.int 1)),
    .constant (.integer ⟨0⟩ 0xffffffffffffffff),
    .constant (.integer ⟨0⟩ 0),
    .symbol (.declareFunction "main" ⟨2⟩ [] false),
    .layout (.appendBlock ⟨0⟩ "entry"),
    .setCursor (some { block := ⟨0⟩ }),
    .emission (.cast .zext ⟨0⟩ ⟨1⟩),
    .emission (.cast .zext ⟨1⟩ ⟨1⟩),
    .emission (.icmp .slt ⟨2⟩ ⟨3⟩),
    .emission (.ret ⟨4⟩)]

/-- The builder after those calls. -/
def widened : Builder := Builder.replay { module := { name := "widening" } } widening

theorem widened_attained : widened.Attained :=
  (Builder.Replays.reachable (by decide +kernel) (Builder.reachable_empty "widening")).attained

open Datum Word in
/-- Five stands for itself in 128 bits, and comes back. -/
theorem widened_five : widened.module.types.WellFormed ∧
    widened.module.types.Shape ⟨0⟩ (.int 64 5) ∧ widened.module.types.entry ⟨1⟩ = .int 128 ∧
    ∃ r, cast widened.module.types .zext ⟨1⟩ (.int 64 5) = .ok (.int 128 r) ∧ signed 128 r = 5 ∧
      cast widened.module.types .trunc ⟨0⟩ (.int 128 r) = .ok (.int 64 5) := by
  have ht : widened.module.types.WellFormed := widened_attained.sturdy.healthy.sound.types
  have hsource : widened.module.types.Shape ⟨0⟩ (.int 64 5) := ⟨by decide +kernel, fun _ => by decide⟩
  have htarget : widened.module.types.entry ⟨1⟩ = .int 128 := by decide +kernel
  obtain ⟨hzext, -, -⟩ := conversions_read ht hsource htarget
  obtain ⟨r, hr, -, hread, -, hback⟩ := hzext (by decide +kernel)
  exact ⟨ht, hsource, htarget, r, hr, hread.mpr (.inr (by decide)), hback⟩

/-- The greatest number of 64 bits is less than zero in 128 bits. -/
theorem widened_negative : widened.Attained ∧ widened.module.verify = .ok () ∧
    Word.signed 128 (CastOp.zext.resize 64 128 0xffffffffffffffff) = -1 ∧
    (⟨widened.module, .standard, {}⟩ : Setting).runFunction ⟨0⟩ [] = .ok (.int 1 1) :=
  ⟨widened_attained, by decide +kernel, by decide, by decide +kernel⟩

end SsaKit
