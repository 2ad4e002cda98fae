import SsaKit.Listing

/-! The bytes of a constant, written between quotes and read back. -/
namespace SsaKit.Module

/-- What an upper-case hexadecimal digit stands for. -/
def hexDigit? (c : Char) : Option Nat :=
  if '0' ≤ c ∧ c ≤ '9' then some (c.toNat - '0'.toNat)
  else if 'A' ≤ c ∧ c ≤ 'F' then some (c.toNat - 'A'.toNat + 10)
  else none

/-- Read what stands between the quotes. A backslash and two digits are one byte, and any other
ASCII character is its own. -/
def readBytes : List Char → Option (List UInt8)
  | [] => some []
  | '\\' :: high :: low :: rest => do
    let byte := 16 * (← hexDigit? high) + (← hexDigit? low)
    return UInt8.ofNat byte :: (← readBytes rest)
  | c :: rest => if c.toNat < 128 then (readBytes rest).map (UInt8.ofNat c.toNat :: ·) else none

/-- Characters that stand for themselves. -/
def IsPlain (c : Char) : Prop := ' ' ≤ c ∧ c ≤ '~' ∧ c ≠ '"' ∧ c ≠ '\\'

/-- Characters that stand for themselves, and backslashes with two digits behind each. -/
inductive Spelled : List Char → Prop
  | nil : Spelled []
  | plain {c : Char} {rest : List Char} : IsPlain c → Spelled rest → Spelled (c :: rest)
  | escape {high low : Char} {rest : List Char} : (hexDigit? high).isSome → (hexDigit? low).isSome →
    Spelled rest → Spelled ('\\' :: high :: low :: rest)

variable {m : Module} {v : ValueId} {data data' : List UInt8} {body rest : List Char} {c : Char}
  {byte : UInt8}

/-! ### One byte -/

theorem hexDigit?_digitChar : ∀ d < 16, hexDigit? (Nat.digitChar d).toUpper = some d := by decide

theorem plain_ascii : ∀ n < 128, (Char.ofNat n).toNat = n := by decide

theorem printable_of_hexDigit? (h : (hexDigit? c).isSome) : ' ' ≤ c ∧ c ≤ '~' ∧ c ≠ '"' := by
  have hbounds : '0' ≤ c ∧ c ≤ 'F' := by
    unfold hexDigit? at h
    split at h
    · rename_i hc
      exact ⟨hc.1, Char.le_trans hc.2 (by decide)⟩
    · split at h
      · rename_i hc
        exact ⟨Char.le_trans (by decide) hc.1, hc.2⟩
      · cases h
  obtain ⟨hlow, hhigh⟩ := hbounds
  refine ⟨Char.le_trans (by decide) hlow, Char.le_trans hhigh (by decide), ?_⟩
  rintro rfl
  exact absurd hlow (by decide)

/-- A byte is written as a character that stands for it, or as an escape. -/
theorem byteText_cases (byte : UInt8) :
    (∃ c, byteText byte = [c] ∧ IsPlain c ∧ c.toNat = byte.toNat) ∨
      ∃ high low, byteText byte = ['\\', high, low] ∧ hexDigit? high = some (byte.toNat / 16) ∧
        hexDigit? low = some (byte.toNat % 16) := by
  simp only [byteText]
  split
  · rename_i h
    obtain ⟨hlow, hhigh, hquote, hslash⟩ := h
    have hlow : 32 ≤ byte.toNat := UInt8.le_iff_toNat_le.mp hlow
    have hhigh : byte.toNat < 127 := UInt8.lt_iff_toNat_lt.mp hhigh
    have hcode := plain_ascii byte.toNat (by omega)
    refine .inl ⟨_, rfl, ⟨?_, ?_, hquote, hslash⟩, hcode⟩
    · show 32 ≤ (Char.ofNat byte.toNat).toNat
      omega
    · show (Char.ofNat byte.toNat).toNat ≤ 126
      omega
  · have hbyte : byte.toNat < 256 := byte.toNat_lt
    exact .inr ⟨_, _, rfl, hexDigit?_digitChar _ (by omega), hexDigit?_digitChar _ (by omega)⟩

theorem readBytes_byteText (byte : UInt8) (rest : List Char) :
    readBytes (byteText byte ++ rest) = (readBytes rest).map (byte :: ·) := by
  obtain ⟨c, htext, hplain, hcode⟩ | ⟨high, low, htext, hhigh, hlow⟩ := byteText_cases byte
  · have hascii : c.toNat < 128 := by
      have : c.toNat ≤ 126 := hplain.2.1
      omega
    rw [htext, List.singleton_append, readBytes, if_pos hascii, hcode, UInt8.ofNat_toNat]
    rintro high low rest' rfl -
    exact hplain.2.2.2 rfl
  · rw [htext]
    have hbyte : 16 * (byte.toNat / 16) + byte.toNat % 16 = byte.toNat := by omega
    simp only [List.cons_append, List.nil_append, readBytes, hhigh, hlow, bind, Option.bind, hbyte,
      UInt8.ofNat_toNat, pure]
    cases readBytes rest <;> rfl

theorem spelled_byteText (byte : UInt8) (h : Spelled rest) : Spelled (byteText byte ++ rest) := by
  obtain ⟨c, htext, hplain, -⟩ | ⟨high, low, htext, hhigh, hlow⟩ := byteText_cases byte
  · rw [htext]
    exact .plain hplain h
  · rw [htext]
    exact .escape (by simp [hhigh]) (by simp [hlow]) h

/-! ### All bytes -/

theorem Spelled.printable (h : Spelled body) : ∀ c ∈ body, ' ' ≤ c ∧ c ≤ '~' ∧ c ≠ '"' := by
  induction h with
  | nil => simp
  | plain hc _ ih => exact List.forall_mem_cons.mpr ⟨⟨hc.1, hc.2.1, hc.2.2.1⟩, ih⟩
  | escape hhigh hlow _ ih =>
    refine List.forall_mem_cons.mpr ⟨by decide, ?_⟩
    refine List.forall_mem_cons.mpr ⟨printable_of_hexDigit? hhigh, ?_⟩
    exact List.forall_mem_cons.mpr ⟨printable_of_hexDigit? hlow, ih⟩

theorem spelled_bytes (data : List UInt8) : Spelled (data.flatMap byteText) := by
  induction data with
  | nil => exact .nil
  | cons byte data ih => exact spelled_byteText byte ih

theorem readBytes_bytes (data : List UInt8) : readBytes (data.flatMap byteText) = some data := by
  induction data with
  | nil => rfl
  | cons byte data ih =>
    rw [List.flatMap_cons, readBytes_byteText, ih]
    rfl

theorem toList_bytesText (data : List UInt8) :
    (bytesText data).toList = ['c', '"'] ++ data.flatMap byteText ++ ['"'] := by
  simp [bytesText]

theorem bytesText_inj : bytesText data = bytesText data' ↔ data = data' := by
  refine ⟨fun h => ?_, congrArg bytesText⟩
  have hchars := congrArg String.toList h
  rw [toList_bytesText, toList_bytesText, List.append_left_inj, List.append_right_inj] at hchars
  have hread := congrArg readBytes hchars
  rw [readBytes_bytes, readBytes_bytes] at hread
  exact Option.some.inj hread

theorem operandText_bytes (names : Scope) (h : m.kindOf v = .bytes data) :
    m.operandText names v = bytesText data := by
  rw [operandText, operandText.render, h]

/-- Nothing is lost when a constant of bytes is written. Between the quotes stand printable characters
and escapes only, none of them a quote, from which the bytes are read back. So no other bytes have
the same text. -/
theorem bytes_recovered (names : Scope) (h : m.kindOf v = .bytes data) :
    (∃ body, (m.operandText names v).toList = ['c', '"'] ++ body ++ ['"'] ∧
      readBytes body = some data ∧ Spelled body ∧ ∀ c ∈ body, ' ' ≤ c ∧ c ≤ '~' ∧ c ≠ '"') ∧
    ∀ (m' : Module) (names' : Scope) (v' : ValueId) (data' : List UInt8),
      m'.kindOf v' = .bytes data' →
        (m'.operandText names' v' = m.operandText names v ↔ data' = data) := by
  have htext := operandText_bytes names h
  refine ⟨⟨data.flatMap byteText, ?_, readBytes_bytes data, spelled_bytes data,
    (spelled_bytes data).printable⟩, fun m' names' v' data' h' => ?_⟩
  · rw [htext, toList_bytesText]
  · rw [htext, operandText_bytes names' h']
    exact bytesText_inj

/-! ### An example -/

/-- Two constants: an escape as it looks, and the byte that it would stand for. -/
def lookalikes : Module where
  name := "lookalikes"
  types := .ofEntries #[.int 8, .array ⟨0⟩ 3, .array ⟨0⟩ 4]
  values := #[{ content := { type := ⟨1⟩, kind := .bytes [0x5c, 0x32, 0x32] } },
    { content := { type := ⟨2⟩, kind := .bytes [0x22, 0x00, 0x41, 0xff] } }]

theorem lookalikes_recovered : lookalikes.kindOf ⟨0⟩ = .bytes [0x5c, 0x32, 0x32] ∧
    lookalikes.operandText [] ⟨0⟩ = "c\"\\5C22\"" ∧
    lookalikes.operandText [] ⟨1⟩ = "c\"\\22\\00A\\FF\"" ∧
    lookalikes.operandText [] ⟨1⟩ ≠ lookalikes.operandText [] ⟨0⟩ := by
  have hkind : lookalikes.kindOf ⟨0⟩ = .bytes [0x5c, 0x32, 0x32] := rfl
  have hother : lookalikes.kindOf ⟨1⟩ = .bytes [0x22, 0x00, 0x41, 0xff] := rfl
  have hdiffer := (bytes_recovered [] hkind).2 lookalikes [] ⟨1⟩ _ hother
  refine ⟨hkind, ?_, ?_, fun h => absurd (hdiffer.mp h) (by decide)⟩
  · rw [operandText_bytes [] hkind]
    decide
  · rw [operandText_bytes [] hother]
    decide

end SsaKit.Module
