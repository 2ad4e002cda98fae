import SsaKit.Proofs.Shortest
import SsaKit.Proofs.Token

/-! The text that a decimal is stored as, and the number that it is read as. -/
namespace SsaKit.Json

open Number

/-! ### Literals -/

/-- The characters of a literal. -/
def isNumberChar (c : Char) : Prop := c.toNat < 0x80 ∧ isNumberByte (UInt8.ofNat c.toNat)

theorem isNumberChar_of_isDigit {c : Char} (h : c.isDigit) : isNumberChar c := by
  have hbound : 0x30 ≤ c.toNat ∧ c.toNat ≤ 0x39 := by
    simpa [Char.isDigit, UInt32.le_iff_toNat_le] using h
  have hall : ∀ k < 0x3a, 0x30 ≤ k → isNumberByte (UInt8.ofNat k) := by decide
  exact ⟨by omega, hall _ (by omega) hbound.1⟩

/-- The fraction of a literal with its point, nothing if there is none. -/
def pointed (fs : List Char) : List Char := if fs.isEmpty then [] else '.' :: fs

/-- The exponent of a literal with its mark and a sign, nothing if there is none. -/
def marked : Option Int → List Char
  | none => []
  | some (.ofNat n) => 'e' :: '+' :: Nat.toDigits 10 n
  | some (.negSucc n) => 'e' :: '-' :: Nat.toDigits 10 (n + 1)

theorem marked_head (exponent : Option Int) : ∀ c ∈ (marked exponent).head?, c = 'e' := by
  cases exponent with
  | none => nofun
  | some p => cases p <;> simp [marked]

theorem pointed_head {fs r : List Char} (hr : ∀ c ∈ r.head?, c.isDigit = false) :
    ∀ c ∈ (pointed fs ++ r).head?, c.isDigit = false := by
  cases fs with
  | nil => exact hr
  | cons f fs =>
    intro c hc
    obtain rfl : '.' = c := by simpa [pointed] using hc
    rfl

theorem natural?_toDigits (n : Nat) : natural? (Nat.toDigits 10 n) = some n := by
  have htake := takeDigits_append (r := []) (fun c (hc : c ∈ Nat.toDigits 10 n) => isDigit_of_mem hc)
    nofun
  rw [List.append_nil] at htake
  have hvalue := valueOf_toDigits n
  unfold natural?
  rw [htake]
  cases hds : (Nat.toDigits 10 n).map digit with
  | nil => exact absurd (List.map_eq_nil_iff.mp hds) Nat.toDigits_ne_nil
  | cons d ds => simpa only [hds, Option.some_inj] using hvalue

theorem exponent?_marked (exponent : Option Int) :
    Numeral.exponent? (marked exponent) = some exponent := by
  rcases exponent with _ | n | n
  · rfl
  · simp [marked, Numeral.exponent?, integer?, plusNatural?, natural?_toDigits]
  · simp [marked, Numeral.exponent?, integer?, natural?_toDigits, Int.negSucc_eq]

theorem fraction?_pointed {fs r : List Char} (h : ∀ c ∈ fs, c.isDigit)
    (hr : ∀ c ∈ r.head?, c = 'e') :
    Numeral.fraction? (pointed fs ++ r) = some (fs.map digit, r) := by
  have hdigit : ∀ c ∈ r.head?, c.isDigit = false := fun c hc => by rw [hr c hc]; rfl
  cases fs with
  | nil =>
    cases r with
    | nil => rfl
    | cons c r =>
      obtain rfl := hr c rfl
      rfl
  | cons c cs =>
    have htake := takeDigits_append h hdigit
    simp only [pointed, List.isEmpty_cons, Bool.false_eq_true, if_false, List.cons_append,
      Numeral.fraction?] at htake ⊢
    rw [htake]
    rfl

/-- Characters that are read as a literal whatever its sign. -/
structure Spells (cs : List Char) (n : Numeral) : Prop where
  chars : ∀ c ∈ cs, isNumberChar c
  reads : ∀ negative, Numeral.unsigned? negative cs = some { n with isNegative := negative }

theorem spells {ws fs : List Char} {exponent : Option Int} (hw : Whole ws)
    (hf : ∀ c ∈ fs, c.isDigit) : Spells (ws ++ (pointed fs ++ marked exponent))
      { isNegative := false, whole := ws.map digit, fraction := fs.map digit, exponent } where
  chars c hc := by
    have hmark : isNumberChar 'e' ∧ isNumberChar '+' ∧ isNumberChar '-' ∧ isNumberChar '.' := by
      unfold isNumberChar
      decide
    have hdigits (n : Nat) : ∀ c ∈ Nat.toDigits 10 n, isNumberChar c := fun c hc =>
      isNumberChar_of_isDigit (isDigit_of_mem hc)
    rcases List.mem_append.mp hc with hc | hc
    · exact isNumberChar_of_isDigit (hw.digits c hc)
    rcases List.mem_append.mp hc with hc | hc
    · cases fs with
      | nil => cases hc
      | cons f fs =>
        rcases List.mem_cons.mp hc with rfl | hc
        · exact hmark.2.2.2
        · exact isNumberChar_of_isDigit (hf c hc)
    · rcases exponent with _ | n | n
      · cases hc
      all_goals
        simp only [marked, List.mem_cons] at hc
        rcases hc with rfl | rfl | hc
      exacts [hmark.1, hmark.2.1, hdigits _ c hc, hmark.1, hmark.2.2.1, hdigits _ c hc]
  reads negative := by
    have hhead : ∀ c ∈ (pointed fs ++ marked exponent).head?, c.isDigit = false :=
      pointed_head fun c hc => by
        rw [marked_head exponent c hc]
        rfl
    rw [Numeral.unsigned?, hw.reads hhead]
    simp [fraction?_pointed hf (marked_head exponent), exponent?_marked]

variable {cs : List Char} {n : Numeral}

theorem Spells.ofText? (h : Spells cs n) (negative : Bool) :
    Numeral.ofText? ((if negative then "-" else "") ++ String.ofList cs) =
      some { n with isNegative := negative } := by
  cases negative with
  | true => simp [Numeral.ofText?, Numeral.ofChars?, h.reads]
  | false =>
    have hdash (r : List Char) : cs ≠ '-' :: r := by
      rintro rfl
      have := h.reads false
      simp [Numeral.unsigned?, Numeral.whole?, takeDigits, List.span_eq_takeWhile_dropWhile] at this
    have hplain : Numeral.ofChars? cs = Numeral.unsigned? false cs := by
      unfold Numeral.ofChars?
      split
      · exact absurd rfl (hdash _)
      · rfl
    simp [Numeral.ofText?, hplain, h.reads]

theorem Spells.literal (h : Spells cs n) (negative : Bool) :
    Literal ((if negative then "-" else "") ++ String.ofList cs) where
  chars c hc := by
    have hdash : isNumberChar '-' := by
      unfold isNumberChar
      decide
    rw [String.toList_append, String.toList_ofList] at hc
    rcases List.mem_append.mp hc with hc | hc
    · cases negative <;> simp at hc
      exact hc ▸ hdash
    · exact h.chars c hc
  reads := by rw [h.ofText?]; rfl

/-! ### Values -/

theorem valueOf_append (as bs : List Nat) :
    valueOf (as ++ bs) = valueOf as * 10 ^ bs.length + valueOf bs := by
  induction bs using List.reverseRecOn with
  | nil => simp [valueOf]
  | append_singleton bs b ih =>
    have hlast (cs : List Nat) : valueOf (cs ++ [b]) = 10 * valueOf cs + b := by simp [valueOf]
    rw [← List.append_assoc, hlast, ih, hlast, List.length_append, List.length_singleton, pow_succ]
    ring

theorem valueOf_replicate (n : Nat) : valueOf (List.replicate n 0) = 0 := by
  induction n with
  | zero => rfl
  | succ n ih => rw [List.replicate_succ', valueOf_append, ih]; rfl

/-! ### Stored decimals -/

/-- A literal that is put together from its digits, which make up a word, and a power of ten. -/
structure Writes (cs : List Char) (word : Nat) (power : Int) (ws fs : List Char)
    (exponent : Option Int) : Prop where
  text : cs = ws ++ (pointed fs ++ marked exponent)
  whole : Whole ws
  fraction : ∀ c ∈ fs, c.isDigit
  word : valueOf ((ws ++ fs).map digit) = word
  power : exponent.getD 0 - fs.length = power

section Layouts

variable {n : Nat}

theorem valueOf_zeros (k : Nat) : valueOf ((List.replicate k '0').map digit) = 0 := by
  rw [List.map_replicate]
  exact valueOf_replicate k

theorem isDigit_zeros {k : Nat} : ∀ c ∈ List.replicate k '0', c.isDigit := fun c hc => by
  rw [List.eq_of_mem_replicate hc]
  rfl

theorem writes_below {point : Int} (hp : point ≤ 0) :
    ∃ ws fs, Writes ("0." ++ zeros (-point).toNat ++ String.ofList (Nat.toDigits 10 n)).toList
      n (point - (Nat.toDigits 10 n).length) ws fs none := by
  refine ⟨['0'], List.replicate (-point).toNat '0' ++ Nat.toDigits 10 n, ?_,
    whole_zero, fun c hc => ?_, ?_, ?_⟩
  · simp [zeros, pointed, marked, Nat.toDigits_ne_nil]
  · rcases List.mem_append.mp hc with hc | hc
    · exact isDigit_zeros c hc
    · exact isDigit_of_mem hc
  · have hzero : valueOf (['0'].map digit) = 0 := rfl
    rw [List.map_append, List.map_append, valueOf_append, valueOf_append, valueOf_zeros,
      valueOf_toDigits, hzero, Nat.zero_mul, Nat.zero_mul, Nat.zero_add, Nat.zero_add]
  · rw [Option.getD_none, List.length_append, List.length_replicate]
    omega

theorem writes_whole (hn : 0 < n) (k : Nat) :
    ∃ ws fs, Writes (String.ofList (Nat.toDigits 10 n) ++ zeros k ++ ".0").toList
      (n * 10 ^ (k + 1)) (-1) ws fs none := by
  refine ⟨Nat.toDigits 10 n ++ List.replicate k '0', ['0'], ?_,
    whole_of_head hn (fun c hc => ?_) ?_, whole_zero.digits, ?_, rfl⟩
  · simp [zeros, pointed, marked]
  · rcases List.mem_append.mp hc with hc | hc
    · exact isDigit_of_mem hc
    · exact isDigit_zeros c hc
  · exact List.head?_append_of_ne_nil _ Nat.toDigits_ne_nil
  · have hzero : valueOf (['0'].map digit) = 0 := rfl
    rw [List.map_append, List.map_append, valueOf_append, valueOf_append, valueOf_zeros,
      valueOf_toDigits, hzero, List.length_map, List.length_replicate, List.length_map,
      List.length_singleton, pow_succ]
    ring

theorem writes_inside (hn : 0 < n) {point : Int} (hp : 0 < point)
    (hl : point < (Nat.toDigits 10 n).length) :
    ∃ ws fs, Writes (String.ofList ((Nat.toDigits 10 n).take point.toNat) ++ "." ++
        String.ofList ((Nat.toDigits 10 n).drop point.toNat)).toList
      n (point - (Nat.toDigits 10 n).length) ws fs none := by
  refine ⟨(Nat.toDigits 10 n).take point.toNat, (Nat.toDigits 10 n).drop point.toNat, ?_,
    whole_of_head hn (fun c hc => isDigit_of_mem (List.mem_of_mem_take hc)) ?_,
    fun c hc => isDigit_of_mem (List.mem_of_mem_drop hc), ?_, ?_⟩
  · have hne : ¬ (Nat.toDigits 10 n).length ≤ point.toNat := by omega
    simp [pointed, marked, hne]
  · rw [List.head?_take, if_neg (by omega)]
  · rw [List.take_append_drop, valueOf_toDigits]
  · rw [Option.getD_none, List.length_drop]
    omega

theorem toList_exponent (power : Int) :
    (if power < 0 then "e" ++ toString power else "e+" ++ toString power).toList =
      marked (some power) := by
  cases power with
  | ofNat k =>
    have hsign : ¬ Int.ofNat k < 0 := not_lt.mpr (Int.natCast_nonneg k)
    have hplain : toString (Int.ofNat k) = toString k := rfl
    rw [if_neg hsign, hplain, String.toList_append, Nat.toString_eq_repr, Nat.toList_repr]
    rfl
  | negSucc k =>
    have hminus : toString (Int.negSucc k) = "-" ++ toString (k + 1) := rfl
    rw [if_pos (by omega), hminus, String.toList_append, String.toList_append,
      Nat.toString_eq_repr, Nat.toList_repr]
    rfl

theorem writes_exponent (hn : 0 < n) (power : Int) :
    ∃ ws fs, Writes (Layout.stored.exponentText (Nat.toDigits 10 n) power).toList
      n (power + 1 - (Nat.toDigits 10 n).length) ws fs (some power) := by
  have hlength : 0 < (Nat.toDigits 10 n).length := List.length_pos_of_ne_nil Nat.toDigits_ne_nil
  refine ⟨(Nat.toDigits 10 n).take 1, (Nat.toDigits 10 n).drop 1, ?_,
    whole_of_head hn (fun c hc => isDigit_of_mem (List.mem_of_mem_take hc)) ?_,
    fun c hc => isDigit_of_mem (List.mem_of_mem_drop hc), ?_, ?_⟩
  · rw [← toList_exponent]
    simp only [Layout.exponentText, Layout.stored, pointed, String.toList_append,
      String.toList_ofList, List.append_assoc]
    split
    · rfl
    · rw [String.toList_append, String.toList_ofList, String.toList_ofList]
      rfl
  · rw [List.head?_take, if_neg (by omega)]
  · rw [List.take_append_drop, valueOf_toDigits]
  · rw [Option.getD_some, List.length_drop]
    omega

end Layouts

/-- A short decimal is stored as a literal of few digits that stands for the same number. -/
theorem writes_decimalText {d : Decimal} (hd : d.digits < 10 ^ 18) :
    ∃ word power ws fs exponent,
      Writes (Layout.stored.decimalText d).toList word power ws fs exponent ∧ word < 10 ^ 18 ∧
        min d.exponent (-1) ≤ power ∧ word * 10 ^ power = d.value := by
  obtain ⟨n, t⟩ := d
  rcases Nat.eq_zero_or_pos n with rfl | hn
  · exact ⟨0, -1, ['0'], ['0'], none,
      ⟨by simp [Layout.decimalText, Layout.stored, pointed, marked],
        whole_zero, whole_zero.digits, rfl, rfl⟩, by decide, min_le_right _ _,
      by simp [Decimal.value]⟩
  · have hlength : 0 < (Nat.toDigits 10 n).length := List.length_pos_of_ne_nil Nat.toDigits_ne_nil
    obtain ⟨point, hpoint⟩ : ∃ point, t = point - (Nat.toDigits 10 n).length :=
      ⟨t + (Nat.toDigits 10 n).length, by omega⟩
    subst hpoint
    simp only [Layout.decimalText, Layout.stored, hn.ne', if_false, sub_add_cancel,
      Decimal.value, decide_eq_true_eq]
    split_ifs with hplain
    · unfold Layout.positionalText
      split_ifs with hp hl
      · obtain ⟨ws, fs, h⟩ := writes_below (n := n) hp
        exact ⟨_, _, ws, fs, none, h, hd, min_le_left _ _, rfl⟩
      · obtain ⟨ws, fs, h⟩ := writes_whole hn (point.toNat - (Nat.toDigits 10 n).length)
        have hlt := (Nat.length_toDigits_le_iff (n := n) (by decide) hlength).mp le_rfl
        refine ⟨_, _, ws, fs, none, h, ?_, min_le_right _ _, ?_⟩
        · calc n * 10 ^ (point.toNat - (Nat.toDigits 10 n).length + 1)
              < 10 ^ (Nat.toDigits 10 n).length * 10 ^ (point.toNat - _ + 1) :=
                Nat.mul_lt_mul_of_pos_right hlt (by positivity)
            _ = 10 ^ (point.toNat + 1) := by rw [← pow_add]; congr 1; omega
            _ ≤ 10 ^ 18 := Nat.pow_le_pow_right (by decide) (by omega)
        · have hexp : point - (Nat.toDigits 10 n).length =
              (point.toNat - (Nat.toDigits 10 n).length : Nat) := by omega
          rw [hexp, zpow_natCast, zpow_neg_one, pow_succ]
          push_cast
          field_simp
      · obtain ⟨ws, fs, h⟩ := writes_inside hn (Int.not_le.mp hp) (Int.not_le.mp hl)
        exact ⟨_, _, ws, fs, none, h, hd, min_le_left _ _, rfl⟩
    · obtain ⟨ws, fs, h⟩ := writes_exponent hn (point - 1)
      rw [sub_add_cancel] at h
      exact ⟨_, _, ws, fs, some (point - 1), h, hd, min_le_left _ _, rfl⟩

/-! ### Leading digits -/

namespace Numeral

/-- Digits that fit a word are all taken. -/
theorem absorb_eq {significand : Nat} {ds : List Nat}
    (h : significand * 10 ^ ds.length + valueOf ds < 2 ^ 64) :
    absorb significand ds = (significand * 10 ^ ds.length + valueOf ds, []) := by
  induction ds generalizing significand with
  | nil => simp [absorb, valueOf]
  | cons d ds ih =>
    have hcons : valueOf (d :: ds) = d * 10 ^ ds.length + valueOf ds := by
      simpa [valueOf] using valueOf_append [d] ds
    have hall : significand * 10 ^ (d :: ds).length + valueOf (d :: ds) =
        (10 * significand + d) * 10 ^ ds.length + valueOf ds := by
      rw [hcons, List.length_cons, pow_succ]
      ring
    rw [hall] at h ⊢
    have hfits : 10 * significand + d ≤ (10 * significand + d) * 10 ^ ds.length :=
      Nat.le_mul_of_pos_right _ (by positivity)
    rw [absorb, if_pos (by omega), ih h]

/-- The word and the power of ten that a literal is computed from. -/
def leading (n : Numeral) : Nat × Int :=
  let (significand, skipped) := absorb 0 n.whole
  let (significand, rest) := absorb significand n.fraction
  (significand, skipped.length - (n.fraction.length - rest.length : Nat) + n.exponent.getD 0)

theorem magnitude?_eq (n : Numeral) : n.magnitude? = scale? n.leading.1 n.leading.2 := rfl

/-- The leading digits of a short literal are all that it has. -/
theorem leading_eq {n : Numeral} (h : valueOf (n.whole ++ n.fraction) < 2 ^ 64) :
    n.leading = (valueOf (n.whole ++ n.fraction), n.exponent.getD 0 - n.fraction.length) := by
  rw [valueOf_append] at h ⊢
  have hle : valueOf n.whole ≤ valueOf n.whole * 10 ^ n.fraction.length :=
    Nat.le_mul_of_pos_right _ (by positivity)
  have hwhole : absorb 0 n.whole = (valueOf n.whole, []) := by
    rw [absorb_eq (by omega), Nat.zero_mul, Nat.zero_add]
  rw [leading, hwhole]
  dsimp only
  rw [absorb_eq h]
  simp only [List.length_nil, Nat.sub_zero, Prod.mk.injEq, true_and]
  omega

end Numeral

/-- What a finite double is stored as: a literal under its sign, of few digits, which stands for a
number that the double is nearest to. -/
theorem stored_isFinite {x : Double} (h : x.isFinite) : ∃ n k,
    Literal (x.text Layout.stored) ∧ Numeral.ofText? (x.text Layout.stored) = some n ∧
      Double.Near k (n.leading.1 * 10 ^ n.leading.2) ∧ k < Format.double.infinity ∧
      x.bits.toNat = Format.double.withSign n.isNegative k ∧
      n.leading.1 < 10 ^ 18 ∧ -324 ≤ n.leading.2 := by
  obtain ⟨negative, d, k, htext, hnear, hlt, hbits, hdigits, hexponent⟩ :=
    Double.text_of_isFinite h Layout.stored
  obtain ⟨word, power, ws, fs, exponent, hwrites, hword, hpower, hvalue⟩ :=
    writes_decimalText hdigits
  have hspells := @spells ws fs exponent hwrites.whole hwrites.fraction
  rw [← hwrites.text] at hspells
  have hread := hspells.ofText? negative
  have hliteral := hspells.literal negative
  rw [String.ofList_toList, ← htext] at hread hliteral
  refine ⟨_, k, hliteral, hread, ?_⟩
  rw [Numeral.leading_eq] <;> dsimp only <;>
    rw [← List.map_append, hwrites.word]
  · rw [List.length_map, hwrites.power, hvalue]
    exact ⟨hnear, hlt, hbits, hword, by omega⟩
  · omega

end SsaKit.Json
