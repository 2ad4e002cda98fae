import SsaKit.Json.Basic
import Mathlib.Data.List.Basic
import Mathlib.Data.List.Induction
import Mathlib.Data.List.TakeDrop
import Mathlib.Data.List.TakeWhile

/-! Tokens that are written down are scanned again. -/
namespace SsaKit.Json

open Number

/-! ### Numbers -/

theorem isDigit_of_mem {n : Nat} {c : Char} (hc : c ∈ Nat.toDigits 10 n) : c.isDigit :=
  Nat.isDigit_of_mem_toDigits (by decide) (by decide) hc

theorem takeDigits_append {cs r : List Char} (h : ∀ c ∈ cs, c.isDigit)
    (hr : ∀ c ∈ r.head?, c.isDigit = false) : takeDigits (cs ++ r) = (cs.map digit, r) := by
  have hstop : r.takeWhile Char.isDigit = [] ∧ r.dropWhile Char.isDigit = r := by
    cases r with
    | nil => exact ⟨rfl, rfl⟩
    | cons c r => simp [hr c rfl]
  rw [takeDigits, List.span_eq_takeWhile_dropWhile, List.takeWhile_append_of_pos h,
    List.dropWhile_append_of_pos h, hstop.1, hstop.2, List.append_nil]

theorem digit_eq_zero {c : Char} (h : c.isDigit) (h0 : digit c = 0) : c = '0' := by
  have hbound : 0x30 ≤ c.toNat ∧ c.toNat ≤ 0x39 := by
    simpa [Char.isDigit, UInt32.le_iff_toNat_le] using h
  have h0 : c.toNat - 0x30 = 0 := h0
  refine Char.ext (UInt32.toNat_inj.mp ?_)
  show c.toNat = 0x30
  omega

theorem valueOf_toDigits (n : Nat) : valueOf ((Nat.toDigits 10 n).map digit) = n := by
  conv_rhs => rw [← Nat.ofDigitChars_toDigits (b := 10) (n := n) (by decide) (by decide)]
  rw [Nat.ofDigitChars_eq_foldl, valueOf, List.foldl_map]
  rfl

theorem digitChar_ne_zero : ∀ d < 10, 0 < d → Nat.digitChar d ≠ '0' := by decide

/-- A decimal numeral has no leading zero unless it is zero itself. -/
theorem head_toDigits {n : Nat} (hn : 0 < n) : (Nat.toDigits 10 n).head? ≠ some '0' := by
  induction n using Nat.strongRecOn with
  | ind n ih =>
    rcases Nat.lt_or_ge n 10 with hlt | hge
    · rw [Nat.toDigits_of_lt_base hlt, List.head?_cons, Ne, Option.some_inj]
      exact digitChar_ne_zero n hlt hn
    · rw [Nat.toDigits_of_base_le (by decide) hge, List.head?_append]
      have hrec := ih (n / 10) (by omega) (by omega)
      cases hd : (Nat.toDigits 10 (n / 10)).head? with
      | none => simp [Nat.toDigits_ne_nil] at hd
      | some c => simpa [hd] using hrec

/-- Digits that may stand for the whole part of a literal. -/
structure Whole (ws : List Char) : Prop where
  digits : ∀ c ∈ ws, c.isDigit
  ne_nil : ws ≠ []
  leading : ws.head? = some '0' → ws = ['0']

theorem Whole.reads {ws r : List Char} (h : Whole ws) (hr : ∀ c ∈ r.head?, c.isDigit = false) :
    Numeral.whole? (ws ++ r) = some (ws.map digit, r) := by
  unfold Numeral.whole?
  rw [takeDigits_append h.digits hr]
  cases ws with
  | nil => exact absurd rfl h.ne_nil
  | cons c cs =>
    split
    · rename_i heq
      simp at heq
    · rename_i d ds heq
      obtain ⟨hzero, hrest⟩ := List.cons.inj (Prod.mk.inj heq).1
      have hc := digit_eq_zero (h.digits c List.mem_cons_self) hzero
      obtain ⟨-, rfl⟩ := List.cons.inj (h.leading (by rw [hc]; rfl))
      cases hrest
    · rfl

/-- Digits that start like those of a number that is not zero. -/
theorem whole_of_head {n : Nat} (hn : 0 < n) {ws : List Char} (h : ∀ c ∈ ws, c.isDigit)
    (hhead : ws.head? = (Nat.toDigits 10 n).head?) : Whole ws where
  digits := h
  ne_nil hnil := by
    subst hnil
    exact Nat.toDigits_ne_nil (List.head?_eq_none_iff.mp hhead.symm)
  leading hzero := absurd (hhead ▸ hzero) (head_toDigits hn)

theorem whole_zero : Whole ['0'] where
  digits := List.forall_mem_singleton.mpr rfl
  ne_nil := nofun
  leading _ := rfl

theorem whole_toDigits (n : Nat) : Whole (Nat.toDigits 10 n) := by
  rcases Nat.eq_zero_or_pos n with rfl | hn
  · exact whole_zero
  · exact whole_of_head hn (fun c hc => isDigit_of_mem hc) rfl

theorem whole?_toDigits (n : Nat) :
    Numeral.whole? (Nat.toDigits 10 n) = some ((Nat.toDigits 10 n).map digit, []) := by
  have hread := (whole_toDigits n).reads (r := []) nofun
  rwa [List.append_nil] at hread

theorem ofText?_toString (n : Nat) : Numeral.ofText? (toString n) =
    some { isNegative := false, whole := (Nat.toDigits 10 n).map digit } := by
  have hchars : (toString n).toList = Nat.toDigits 10 n := Nat.toList_repr
  have hdash : ∀ cs, Nat.toDigits 10 n ≠ '-' :: cs := by
    intro cs h
    exact absurd (isDigit_of_mem (n := n) (h ▸ List.mem_cons_self)) (by decide)
  rw [Numeral.ofText?, hchars]
  unfold Numeral.ofChars?
  split
  · rename_i cs h
    exact absurd h (hdash cs)
  · simp [Numeral.unsigned?, whole?_toDigits, Numeral.fraction?, Numeral.exponent?]

theorem nat?_ofNat {n : Nat} (h : n < 2 ^ 64) : (Json.ofNat n).nat? = some n := by
  rw [Json.ofNat, Json.nat?, ofText?_toString]
  simpa [Numeral.nat?, valueOf_toDigits] using h

/-! ### Bytes of a text -/

theorem fromUTF8?_asBytes (s : String) : String.fromUTF8? ⟨(asBytes s).toArray⟩ = some s := by
  unfold String.fromUTF8?
  rw [asBytes, Array.toArray_toList, String.toUTF8_eq_toByteArray, dif_pos s.isValidUTF8]
  rfl

/-- The piece that an escaped byte is scanned as. -/
def piece (b : UInt8) : Piece :=
  match b with
  | 0x08 | 0x0c | 0x0a | 0x0d | 0x09 => .byte b
  | b => if b < 0x20 then .unit b.toNat else .byte b

theorem hexUnit?_hexByte : ∀ n < 0x20,
    hexUnit? 0x30 0x30 (hexByte (n / 16)) (hexByte (n % 16)) = some n := by decide

theorem scanText_plain {b : UInt8} (h22 : b = 0x22 → False) (h5c : b = 0x5c → False)
    (hb : ¬ b < 0x20) (ps : List Piece) (r : List UInt8) :
    scanText ps (b :: r) = scanText (.byte b :: ps) r := by
  have hplain : ¬ (b < 0x20 ∨ b = 0x5c) := fun h => h.elim hb h5c
  rw [scanText.eq_def]
  split
  case h_1 heq => exact (h22 (List.cons.inj heq).1).elim
  case h_2 heq => exact (h5c (List.cons.inj heq).1).elim
  case h_3 heq => exact (h5c (List.cons.inj heq).1).elim
  case h_4 heq =>
    obtain ⟨rfl, rfl⟩ := List.cons.inj heq
    rw [if_neg hplain]
  case h_5 heq => cases heq

theorem scanText_escape (b : UInt8) (ps : List Piece) (r : List UInt8) :
    scanText ps (escape b ++ r) = scanText (piece b :: ps) r := by
  unfold escape
  split
  case h_8 h22 h5c h08 h0c h0a h0d h09 =>
    have hpiece : piece b = if b < 0x20 then .unit b.toNat else .byte b := by
      unfold piece
      split <;> simp_all
    rw [hpiece]
    by_cases hb : b < 0x20
    · have hlt : b.toNat < 0x20 := UInt8.lt_iff_toNat_lt.mp hb
      simp [hb, scanText, hexUnit?_hexByte _ hlt]
    · simp only [hb, if_false, List.cons_append, List.nil_append]
      exact scanText_plain h22 h5c hb ps r
  all_goals simp [scanText, shortEscape?, piece]

theorem scanText_flatMap (bytes : List UInt8) (ps : List Piece) (r : List UInt8) :
    scanText ps (bytes.flatMap escape ++ 0x22 :: r) = some ((bytes.map piece).reverse ++ ps, r) := by
  induction bytes generalizing ps with
  | nil => simp [scanText]
  | cons b bytes ih =>
    rw [List.flatMap_cons, List.append_assoc, scanText_escape, ih]
    simp

theorem prependChar_of_lt {n : Nat} (h : n < 0x20) (bytes : List UInt8) :
    prependChar n bytes = UInt8.ofNat n :: bytes := by
  have hencode : ∀ n < 0x20, String.utf8EncodeChar (Char.ofNat n) = [UInt8.ofNat n] := by decide
  rw [prependChar, hencode n h]
  rfl

theorem assemble_piece (b : UInt8) (bytes : List UInt8) (ps : List Piece) :
    assemble bytes (piece b :: ps) = assemble (b :: bytes) ps := by
  have hpiece : piece b = .byte b ∨ piece b = .unit b.toNat ∧ b.toNat < 0x20 := by
    unfold piece
    split
    case h_6 =>
      by_cases hb : b < 0x20
      · exact .inr ⟨if_pos hb, UInt8.lt_iff_toNat_lt.mp hb⟩
      · exact .inl (if_neg hb)
    all_goals exact .inl rfl
  rcases hpiece with hp | ⟨hp, hlt⟩
  · rw [hp, assemble]
  · -- a control character is no surrogate, whatever stands before it
    rw [hp]
    cases ps with
    | nil => simp [assemble, prependChar_of_lt hlt, show ¬ 0xd800 ≤ b.toNat by omega]
    | cons p ps =>
      cases p <;>
        simp [assemble, prependChar_of_lt hlt, show ¬ 0xd800 ≤ b.toNat by omega,
          show ¬ 0xdc00 ≤ b.toNat by omega]

theorem assemble_pieces (bytes done : List UInt8) :
    assemble done (bytes.map piece).reverse = some (bytes ++ done) := by
  induction bytes using List.reverseRecOn generalizing done with
  | nil => rfl
  | append_singleton bytes b ih =>
    rw [List.map_append, List.reverse_append, List.map_singleton, List.reverse_singleton,
      List.singleton_append, assemble_piece, ih]
    simp

theorem contentOf_pieces (s : String) :
    contentOf ((asBytes s).map piece).reverse = some s := by
  simp [contentOf, assemble_pieces, fromUTF8?_asBytes]

/-! ### Scanning -/

/-- A number literal, in characters that only number literals are made of. -/
structure Literal (s : String) : Prop where
  chars : ∀ c ∈ s.toList, c.toNat < 0x80 ∧ isNumberByte (UInt8.ofNat c.toNat)
  reads : (Numeral.ofText? s).isSome

theorem literal_toString (n : Nat) : Literal (toString n) where
  chars c hc := by
    have hdigit : c.isDigit := isDigit_of_mem (n := n) (by rwa [← Nat.toList_repr])
    have hbound : 0x30 ≤ c.toNat ∧ c.toNat ≤ 0x39 := by
      simpa [Char.isDigit, UInt32.le_iff_toNat_le] using hdigit
    have hall : ∀ k < 0x3a, 0x30 ≤ k → isNumberByte (UInt8.ofNat k) := by decide
    exact ⟨by omega, hall _ (by omega) hbound.1⟩
  reads := by rw [ofText?_toString]; rfl

/-- The tokens that a value is written with. -/
def Token.Clear : Token → Prop
  | .number literal => Literal literal
  | .text content => content.isSome
  | _ => True

def Token.isNumber : Token → Bool
  | .number _ => true
  | _ => false

theorem asBytes_of_ascii {s : String} (h : ∀ c ∈ s.toList, c.toNat < 0x80) :
    asBytes s = s.toList.map fun c => UInt8.ofNat c.toNat := by
  have hencode : ∀ c ∈ s.toList, String.utf8EncodeChar c = [UInt8.ofNat c.toNat] := by
    intro c hc
    have hle : c.val.toNat ≤ 127 := Nat.le_of_lt_succ (h c hc)
    exact String.utf8EncodeChar_eq_singleton
      (Char.utf8Size_eq_one_iff.mpr (UInt32.le_iff_toNat_le.mpr hle))
  have hbytes : asBytes s = s.toList.flatMap String.utf8EncodeChar := by
    rw [asBytes, String.toUTF8_eq_toByteArray, ← String.utf8Encode_toList, List.utf8Encode,
      List.data_toByteArray]
  rw [hbytes, List.flatMap_congr hencode]
  exact List.flatMap_pure_eq_map _ _

theorem number?_asBytes {s : String} (h : Literal s) :
    number? (asBytes s) = some (.number s) := by
  have hback : ((asBytes s).map fun b => Char.ofNat b.toNat) = s.toList := by
    rw [asBytes_of_ascii fun c hc => (h.chars c hc).1, List.map_map]
    conv_rhs => rw [← List.map_id s.toList]
    refine List.map_congr_left fun c hc => ?_
    have hlt := (h.chars c hc).1
    show Char.ofNat (UInt8.ofNat c.toNat).toNat = c
    rw [UInt8.toNat_ofNat_of_lt' (by simp only [UInt8.size]; omega), Char.ofNat_toNat]
  obtain ⟨n, hn⟩ := Option.isSome_iff_exists.mp h.reads
  rw [number?, hback, String.ofList_toList, hn]
  rfl

/-- What follows a token; a number has to end somewhere. -/
def Ends (t : Token) (r : List UInt8) : Prop :=
  t.isNumber → ∀ b ∈ r.head?, isNumberByte b = false

theorem scanToken_number {s : String} (h : Literal s) {r : List UInt8}
    (hr : Ends (.number s) r) : scanToken (asBytes s ++ r) = some (.number s, r) := by
  have hbytes : ∀ b ∈ asBytes s, isNumberByte b := by
    rw [asBytes_of_ascii fun c hc => (h.chars c hc).1]
    simpa using fun c hc => (h.chars c hc).2
  have hspan : (asBytes s ++ r).span isNumberByte = (asBytes s, r) := by
    have hstop : r.takeWhile isNumberByte = [] ∧ r.dropWhile isNumberByte = r := by
      cases r with
      | nil => exact ⟨rfl, rfl⟩
      | cons b r => simp [hr rfl b rfl]
    rw [List.span_eq_takeWhile_dropWhile, List.takeWhile_append_of_pos hbytes,
      List.dropWhile_append_of_pos hbytes, hstop.1, hstop.2, List.append_nil]
  cases hs : asBytes s with
  | nil =>
    have hnone : number? (asBytes s) = none := by
      rw [hs]
      rfl
    rw [number?_asBytes h] at hnone
    cases hnone
  | cons b rest =>
    have hb := hbytes b (hs ▸ List.mem_cons_self)
    rw [← hs, scanToken.eq_def]
    split
    case h_11 => rw [hspan]; simp [number?_asBytes h]
    all_goals
      rename_i heq
      rw [hs] at heq
      obtain ⟨rfl, -⟩ := List.cons.inj heq
      exact absurd hb (by decide)

theorem scanToken_bytes {t : Token} (ht : t.Clear) {r : List UInt8} (hr : Ends t r) :
    scanToken (t.bytes ++ r) = some (t, r) := by
  cases t with
  | number s => exact scanToken_number ht hr
  | text content =>
    obtain ⟨s, rfl⟩ := Option.isSome_iff_exists.mp ht
    simp only [Token.bytes, quote, Option.getD_some, List.cons_append, List.append_assoc,
      List.nil_append, scanToken, scanText_flatMap, List.append_nil, Option.map_some,
      contentOf_pieces]
  | bool b => cases b <;> rfl
  | _ => rfl

/-- A token starts with a byte of its own, which is no blank. -/
theorem bytes_eq_cons {t : Token} (ht : t.Clear) :
    ∃ b rest, t.bytes = b :: rest ∧ isBlank b = false ∧ (t.isNumber = false → isNumberByte b = false) := by
  cases t with
  | number s =>
    cases hs : asBytes s with
    | nil =>
      have hnumber := number?_asBytes ht
      rw [hs] at hnumber
      cases hnumber
    | cons b rest =>
      have hb : isNumberByte b := by
        have hmem : b ∈ asBytes s := hs ▸ List.mem_cons_self
        rw [asBytes_of_ascii fun c hc => (ht.chars c hc).1] at hmem
        obtain ⟨c, hc, rfl⟩ := List.mem_map.mp hmem
        exact (ht.chars c hc).2
      refine ⟨b, rest, hs, ?_, nofun⟩
      by_contra hblank
      simp only [isBlank, Bool.not_eq_false, Bool.or_eq_true, decide_eq_true_eq] at hblank
      rcases hblank with ((rfl | rfl) | rfl) | rfl <;> exact absurd hb (by decide)
  | bool b => cases b <;> exact ⟨_, _, rfl, by decide, fun _ => by decide⟩
  | text _ => exact ⟨_, _, rfl, by decide, fun _ => by decide⟩
  | _ => exact ⟨_, _, rfl, by decide, fun _ => by decide⟩

/-- The bytes of the tokens are scanned as these tokens, whatever was scanned before. -/
def Scans (ts : List Token) : Prop :=
  ∀ fuel done, (ts.flatMap Token.bytes).length < fuel →
    scan fuel done (ts.flatMap Token.bytes) = some (done.reverse ++ ts)

theorem scans_nil : Scans [] := by
  intro fuel done hfuel
  obtain ⟨fuel, rfl⟩ := Nat.exists_eq_add_one_of_ne_zero (Nat.ne_of_gt hfuel)
  simp [scan]

/-- Two numbers in a row would be scanned as one. -/
theorem scans_cons {t : Token} {ts : List Token} (ht : t.Clear) (hts : ∀ u ∈ ts, u.Clear)
    (hnumber : t.isNumber → ∀ u ∈ ts.head?, u.isNumber = false) (h : Scans ts) :
    Scans (t :: ts) := by
  intro fuel done hfuel
  obtain ⟨b, rest, hb, hblank, -⟩ := bytes_eq_cons ht
  have hends : Ends t (ts.flatMap Token.bytes) := by
    intro hn c hc
    cases ts with
    | nil => cases hc
    | cons u ts =>
      obtain ⟨b, rest, hu, -, hb⟩ := bytes_eq_cons (hts u List.mem_cons_self)
      obtain rfl : b = c := by simpa [hu] using hc
      exact hb (hnumber hn u rfl)
  have hscan := scanToken_bytes ht hends
  rw [List.flatMap_cons] at hfuel ⊢
  rw [hb, List.cons_append] at hscan hfuel ⊢
  obtain ⟨fuel, rfl⟩ := Nat.exists_eq_add_one_of_ne_zero (show fuel ≠ 0 by omega)
  have hrest := h fuel (t :: done) (by
    rw [List.length_cons, List.length_append] at hfuel
    omega)
  rw [scan]
  simp [hblank, hscan, hrest]

theorem ofBytes?_of_scans {ts : List Token} (h : Scans ts) :
    Token.ofBytes? (ts.flatMap Token.bytes) = some ts :=
  h _ [] (Nat.lt_succ_self _)

end SsaKit.Json
