import SsaKit.Number.Digits
import SsaKit.Number.Format
/-!
Reading a decimal text as the nearest number of a binary format.
-/
namespace SsaKit.Number.Format

variable (f : Format)

/-- The magnitude nearest to `digits * 10 ^ power`. A power far outside the range of the format is
not computed. -/
def ofDecimal (digits : Nat) (power : Int) : Nat :=
  let bound : Int := 2 ^ f.exponent
  if digits = 0 then 0
  else if bound < power then f.infinity
  else if power + Nat.log2 digits < -bound then 0
  else f.round (digits * 10 ^ power.toNat) (10 ^ (-power).toNat) 0

/-- An exponent, or none at the end of the text. -/
def readPower? : List Char → Option Int
  | [] => some 0
  | mark :: cs => if mark = 'e' ∨ mark = 'E' then integer? cs else none

/-- Digits with at most one point among them, then an optional exponent. -/
def readMagnitude? (cs : List Char) : Option Nat := do
  let (whole, rest) := takeDigits cs
  let (fraction, rest) := match rest with
    | '.' :: rest => takeDigits rest
    | rest => ([], rest)
  guard ¬(whole = [] ∧ fraction = [])
  let power ← readPower? rest
  return f.ofDecimal (valueOf (whole ++ fraction)) (power - fraction.length)

/-- Infinity and NaN by name, in any case; every other text is a number. -/
def readUnsigned? (cs : List Char) : Option Nat :=
  match String.ofList (cs.map Char.toLower) with
  | "inf" | "infinity" => some f.infinity
  | "nan" => some f.quietNaN
  | _ => f.readMagnitude? cs

/-- The bit pattern that a text with an optional sign stands for. -/
def readText? (text : String) : Option Nat :=
  match text.toList with
  | '-' :: cs => (f.readUnsigned? cs).map (f.withSign true)
  | '+' :: cs => f.readUnsigned? cs
  | cs => f.readUnsigned? cs

end SsaKit.Number.Format
