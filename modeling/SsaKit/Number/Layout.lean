import SsaKit.Number.Format
import SsaKit.Number.Shortest
/-!
How a number is written down: positional or with an exponent, and with which marks.
-/
namespace SsaKit.Number

/-- The choices of one written form. `plain` gives the powers of ten of the first digit that are
written without an exponent, none standing for all of them. -/
structure Layout where
  tie : Tie
  plain : Option (Int × Int)
  wholeTail : String
  exponentMark : String

/-- Never an exponent, and whole numbers without a point. -/
def Layout.positional : Layout := ⟨.up, none, "", "e"⟩

/-- Always a point or an exponent; plain from 0.0001 up to 10^16. -/
def Layout.listing : Layout := ⟨.up, some (-4, 15), ".0", "e"⟩

/-- Always a point or an exponent; plain from 0.00001 up to 10^16, and a sign on each exponent. -/
def Layout.stored : Layout := ⟨.even, some (-5, 15), ".0", "e+"⟩

def zeros (n : Nat) : String := String.ofList (List.replicate n '0')

namespace Layout

variable (l : Layout)

/-- Digits with the point after the first `point` of them, or zeros where there are none. -/
def positionalText (digits : List Char) (point : Int) : String :=
  if point ≤ 0 then "0." ++ zeros (-point).toNat ++ String.ofList digits
  else if (digits.length : Int) ≤ point then
    String.ofList digits ++ zeros (point.toNat - digits.length) ++ l.wholeTail
  else String.ofList (digits.take point.toNat) ++ "." ++ String.ofList (digits.drop point.toNat)

/-- One digit before the point, and the power of ten that it counts. -/
def exponentText (digits : List Char) (power : Int) : String :=
  let tail := digits.drop 1
  String.ofList (digits.take 1) ++ (if tail.isEmpty then "" else "." ++ String.ofList tail) ++
    (if power < 0 then "e" ++ toString power else l.exponentMark ++ toString power)

def decimalText (d : Decimal) : String :=
  let digits := Nat.toDigits 10 d.digits
  if d.digits = 0 then "0" ++ l.wholeTail
  else
    let power := d.exponent + digits.length - 1
    let isPlain := match l.plain with
      | none => true
      | some (low, high) => low ≤ power ∧ power ≤ high
    if isPlain then l.positionalText digits (power + 1) else l.exponentText digits power

/-- The text of a bit pattern of a format. -/
def text (f : Format) (bits : Nat) : String :=
  let sign (negative : Bool) := if negative then "-" else ""
  match f.read bits with
  | .nan => "NaN"
  | .infinite negative => sign negative ++ "inf"
  | .finite negative significand exponent =>
    let narrow := significand = 2 ^ f.fraction ∧ f.least < exponent
    sign negative ++
      (if significand = 0 then l.decimalText ⟨0, 0⟩
       else l.decimalText (shortest l.tie significand exponent narrow))

end Layout
end SsaKit.Number
