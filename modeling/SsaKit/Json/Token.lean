import SsaKit.Json.Numeral
/-!
Tokens of JSON text: scanning bytes into tokens and writing tokens as bytes. A string literal
whose content is no text, for a lone surrogate or bytes that are not UTF-8, is still a token.
-/
namespace SsaKit.Json

inductive Token where
  | openArray | closeArray | openObject | closeObject | comma | colon
  | null
  | bool (b : Bool)
  /-- A number as it is written. -/
  | number (literal : String)
  | text (content : Option String)

/-- One byte of a string literal, or one UTF-16 code unit written as an escape. -/
inductive Piece where
  | byte (b : UInt8)
  | unit (u : Nat)

def isBlank (b : UInt8) : Bool := b = 0x20 || b = 0x09 || b = 0x0a || b = 0x0d

def isNumberByte (b : UInt8) : Bool :=
  (0x30 ≤ b && b ≤ 0x39) || b = 0x2b || b = 0x2d || b = 0x2e || b = 0x65 || b = 0x45

def hexDigit? (b : UInt8) : Option Nat :=
  if 0x30 ≤ b ∧ b ≤ 0x39 then some (b.toNat - 0x30)
  else if 0x41 ≤ b ∧ b ≤ 0x46 then some (b.toNat - 0x41 + 10)
  else if 0x61 ≤ b ∧ b ≤ 0x66 then some (b.toNat - 0x61 + 10)
  else none

def hexUnit? (a b c d : UInt8) : Option Nat := do
  return (((← hexDigit? a) * 16 + (← hexDigit? b)) * 16 + (← hexDigit? c)) * 16 + (← hexDigit? d)

/-- The byte that a backslash and a letter stand for. -/
def shortEscape? (b : UInt8) : Option UInt8 :=
  match b with
  | 0x22 => some 0x22
  | 0x5c => some 0x5c
  | 0x2f => some 0x2f
  | 0x62 => some 0x08
  | 0x66 => some 0x0c
  | 0x6e => some 0x0a
  | 0x72 => some 0x0d
  | 0x74 => some 0x09
  | _ => none

/-- The pieces up to the closing quote, latest first, and the bytes after it. -/
def scanText (pieces : List Piece) : List UInt8 → Option (List Piece × List UInt8)
  | 0x22 :: r => some (pieces, r)
  | 0x5c :: 0x75 :: a :: b :: c :: d :: r =>
    match hexUnit? a b c d with
    | some u => scanText (.unit u :: pieces) r
    | none => none
  | 0x5c :: e :: r =>
    match shortEscape? e with
    | some b => scanText (.byte b :: pieces) r
    | none => none
  | b :: r => if b < 0x20 ∨ b = 0x5c then none else scanText (.byte b :: pieces) r
  | [] => none

/-- The bytes of a code point, put in front of those read so far. -/
def prependChar (code : Nat) (bytes : List UInt8) : List UInt8 :=
  String.utf8EncodeChar (Char.ofNat code) ++ bytes

/-- The content of a literal from its pieces, latest first. Two surrogates make one code point;
one alone makes none. -/
def assemble (bytes : List UInt8) : List Piece → Option (List UInt8)
  | [] => some bytes
  | .byte b :: r => assemble (b :: bytes) r
  | .unit low :: .unit high :: r =>
    if 0xdc00 ≤ low ∧ low < 0xe000 then
      if 0xd800 ≤ high ∧ high < 0xdc00 then
        assemble (prependChar (0x10000 + (high - 0xd800) * 0x400 + (low - 0xdc00)) bytes) r
      else none
    else if 0xd800 ≤ low ∧ low < 0xdc00 then none
    else assemble (prependChar low bytes) (.unit high :: r)
  | .unit u :: r =>
    if 0xd800 ≤ u ∧ u < 0xe000 then none else assemble (prependChar u bytes) r

def contentOf (pieces : List Piece) : Option String :=
  (assemble [] pieces).bind fun bytes => String.fromUTF8? ⟨bytes.toArray⟩

def number? (run : List UInt8) : Option Token :=
  let literal := String.ofList (run.map fun b => Char.ofNat b.toNat)
  (Numeral.ofText? literal).map fun _ => .number literal

/-- The token at the start of the bytes, and the bytes after it. -/
def scanToken : List UInt8 → Option (Token × List UInt8)
  | 0x5b :: r => some (.openArray, r)
  | 0x5d :: r => some (.closeArray, r)
  | 0x7b :: r => some (.openObject, r)
  | 0x7d :: r => some (.closeObject, r)
  | 0x2c :: r => some (.comma, r)
  | 0x3a :: r => some (.colon, r)
  | 0x6e :: 0x75 :: 0x6c :: 0x6c :: r => some (.null, r)
  | 0x74 :: 0x72 :: 0x75 :: 0x65 :: r => some (.bool true, r)
  | 0x66 :: 0x61 :: 0x6c :: 0x73 :: 0x65 :: r => some (.bool false, r)
  | 0x22 :: r => (scanText [] r).map fun (pieces, r) => (.text (contentOf pieces), r)
  | bytes =>
    let (run, r) := bytes.span isNumberByte
    (number? run).map fun token => (token, r)

/-- All tokens, put behind those read so far, latest first. Every token takes at least one byte, so
that `fuel` beyond the number of bytes is never used up. -/
def scan : Nat → List Token → List UInt8 → Option (List Token)
  | 0, _, _ => none
  | fuel + 1, tokens, bytes =>
    match bytes with
    | [] => some tokens.reverse
    | b :: r =>
      if isBlank b then scan fuel tokens r
      else match scanToken bytes with
        | some (token, r) => scan fuel (token :: tokens) r
        | none => none

/-- The tokens of a text, if it is made of tokens and blanks. -/
def Token.ofBytes? (bytes : List UInt8) : Option (List Token) := scan (bytes.length + 1) [] bytes

/-! ### Writing -/

def hexByte (n : Nat) : UInt8 := UInt8.ofNat (if n < 10 then 0x30 + n else 0x61 + (n - 10))

/-- A byte inside a string literal: quotes, backslashes and control characters are escaped. -/
def escape (b : UInt8) : List UInt8 :=
  match b with
  | 0x22 => [0x5c, 0x22]
  | 0x5c => [0x5c, 0x5c]
  | 0x08 => [0x5c, 0x62]
  | 0x0c => [0x5c, 0x66]
  | 0x0a => [0x5c, 0x6e]
  | 0x0d => [0x5c, 0x72]
  | 0x09 => [0x5c, 0x74]
  | b =>
    if b < 0x20 then [0x5c, 0x75, 0x30, 0x30, hexByte (b.toNat / 16), hexByte (b.toNat % 16)]
    else [b]

def asBytes (s : String) : List UInt8 := s.toUTF8.data.toList

/-- The literal of a text. -/
def quote (s : String) : List UInt8 := 0x22 :: ((asBytes s).flatMap escape ++ [0x22])

def Token.bytes : Token → List UInt8
  | openArray => [0x5b]
  | closeArray => [0x5d]
  | openObject => [0x7b]
  | closeObject => [0x7d]
  | comma => [0x2c]
  | colon => [0x3a]
  | null => asBytes "null"
  | bool b => asBytes (if b then "true" else "false")
  | number literal => asBytes literal
  | text content => quote (content.getD "")

end SsaKit.Json
