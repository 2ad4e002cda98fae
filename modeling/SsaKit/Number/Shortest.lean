import SsaKit.Word
/-!
The fewest decimal digits that still round to a given binary number.
-/
namespace SsaKit.Number

/-- Which of two equally near digit strings is taken. -/
inductive Tie where
  | up | even
deriving DecidableEq

/-- The decimal `digits * 10 ^ exponent`. -/
structure Decimal where
  digits : Nat
  exponent : Int
deriving DecidableEq

/-- The numbers that round to one binary number, as multiples of one power of ten: from `low` to
`high` around `value`, the ends included when `closed`. -/
structure Window where
  low : Nat
  value : Nat
  high : Nat
  closed : Bool
  scale : Int

namespace Window

/-- The window of `significand * 2 ^ exponent`. The gap below is half as wide when `narrow`. -/
def of (significand : Nat) (exponent : Int) (narrow : Bool) : Window :=
  let power := exponent - 2
  let unit := 2 ^ power.toNat * 5 ^ (-power).toNat
  { low := (4 * significand - if narrow then 1 else 2) * unit
    value := 4 * significand * unit
    high := (4 * significand + 2) * unit
    closed := significand % 2 = 0
    scale := min 0 power }

def holds (w : Window) (n : Nat) : Bool :=
  if w.closed then w.low ≤ n ∧ n ≤ w.high else w.low < n ∧ n < w.high

/-- The multiple of `step` nearest to the value among its two neighbours in the window. -/
def pick (w : Window) (tie : Tie) (step : Nat) : Option Nat :=
  let below := w.value / step
  let above := below + 1
  match w.holds (below * step), w.holds (above * step) with
  | false, false => none
  | true, false => some below
  | false, true => some above
  | true, true =>
    let down := w.value - below * step
    let up := above * step - w.value
    if down < up then some below
    else if up < down then some above
    else match tie with
      | .up => some above
      | .even => some (if below % 2 = 0 then below else above)

/-- Coarsest steps first: the first power of ten with a multiple in the window. -/
def search (w : Window) (tie : Tie) : Nat → Decimal
  | 0 => ⟨w.value, w.scale⟩
  | k + 1 => match w.pick tie (10 ^ (k + 1)) with
    | some digits => ⟨digits, w.scale + (k + 1 : Nat)⟩
    | none => search w tie k

end Window

/-- Number of decimal digits. -/
def digitCount (n : Nat) : Nat := (Nat.toDigits 10 n).length

/-- Divide out factors of ten, at most `fuel` of them. -/
def Decimal.strip : Nat → Decimal → Decimal
  | 0, d => d
  | fuel + 1, d =>
    if d.digits ≠ 0 ∧ d.digits % 10 = 0 then strip fuel ⟨d.digits / 10, d.exponent + 1⟩ else d

/-- The shortest decimal that rounds to `significand * 2 ^ exponent`, and of those the nearest. -/
def shortest (tie : Tie) (significand : Nat) (exponent : Int) (narrow : Bool) : Decimal :=
  let w := Window.of significand exponent narrow
  (w.search tie (digitCount w.value)).strip (digitCount w.value)

end SsaKit.Number
