import SsaKit.Number.Digits
import SsaKit.Number.Double
/-!
Number literals: what one says, read as a natural number or as a double. A double is computed from
the leading digits that fit a word and one power of ten, so it may differ from the nearest double
in its last place.
-/
namespace SsaKit.Json

open Number

/-- A decimal literal by its digits. No literal has an empty fraction. -/
structure Numeral where
  isNegative : Bool
  whole : List Nat
  fraction : List Nat := []
  exponent : Option Int := none

namespace Numeral

/-- A whole part has no leading zero. -/
def whole? (cs : List Char) : Option (List Nat × List Char) :=
  match takeDigits cs with
  | ([], _) => none
  | (0 :: _ :: _, _) => none
  | r => some r

def fraction? : List Char → Option (List Nat × List Char)
  | '.' :: cs => match takeDigits cs with
    | ([], _) => none
    | r => some r
  | cs => some ([], cs)

def exponent? : List Char → Option (Option Int)
  | [] => some none
  | mark :: cs => if mark = 'e' ∨ mark = 'E' then (integer? cs).map some else none

def unsigned? (isNegative : Bool) (cs : List Char) : Option Numeral := do
  let (whole, cs) ← whole? cs
  let (fraction, cs) ← fraction? cs
  let exponent ← exponent? cs
  return { isNegative, whole, fraction, exponent }

/-- Reads all of a literal. -/
def ofChars? : List Char → Option Numeral
  | '-' :: cs => unsigned? true cs
  | cs => unsigned? false cs

def ofText? (literal : String) : Option Numeral := ofChars? literal.toList

/-- The natural number below `2 ^ 64` that a literal without sign, fraction and exponent says. -/
def nat? (n : Numeral) : Option Nat :=
  let value := valueOf n.whole
  if n.isNegative = false ∧ n.fraction = [] ∧ n.exponent = none ∧ value < 2 ^ 64 then some value
  else none

/-- Append digits as long as the result fits a word; the digits from the first that does not are
left over. -/
def absorb (significand : Nat) : List Nat → Nat × List Nat
  | [] => (significand, [])
  | d :: ds =>
    if 10 * significand + d < 2 ^ 64 then absorb (10 * significand + d) ds
    else (significand, d :: ds)

/-- The double nearest to a power of ten. -/
def tenTo (n : Nat) : Double := Double.ofMagnitude false (Format.double.round (10 ^ n) 1 0)

/-- Divide by a power of ten, at most `10 ^ 308` at a time. -/
def scaleDown : Nat → Double → Nat → Double
  | 0, x, _ => x
  | fuel + 1, x, n =>
    if n ≤ 308 then x.div (tenTo n)
    else if x = .zero then x
    else scaleDown fuel (x.div (tenTo 308)) (n - 308)

/-- A word times a power of ten, if that is finite. Three divisions bring every word to zero. -/
def scale? (significand : Nat) (power : Int) : Option Double :=
  let x := Double.ofWord (UInt64.ofNat significand)
  if power < 0 then some (scaleDown 4 x power.natAbs)
  else if significand = 0 then some x
  else if 308 < power then none
  else
    let r := x.mul (tenTo power.toNat)
    if r.isFinite then some r else none

def magnitude? (n : Numeral) : Option Double :=
  let (significand, skipped) := absorb 0 n.whole
  let (significand, rest) := absorb significand n.fraction
  let power : Int := skipped.length - (n.fraction.length - rest.length : Nat)
  scale? significand (power + n.exponent.getD 0)

/-- The double that a literal says; none when it is too large. -/
def double? (n : Numeral) : Option Double :=
  n.magnitude?.map fun x => if n.isNegative then x.neg else x

end Numeral
end SsaKit.Json
