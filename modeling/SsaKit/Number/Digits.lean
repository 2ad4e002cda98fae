/-!
Runs of decimal digits.
-/
namespace SsaKit.Number

def digit (c : Char) : Nat := c.toNat - '0'.toNat

/-- The digits at the start, and what follows them. -/
def takeDigits (cs : List Char) : List Nat × List Char :=
  let r := cs.span Char.isDigit
  (r.1.map digit, r.2)

def valueOf (digits : List Nat) : Nat := digits.foldl (fun n d => 10 * n + d) 0

/-- The number that a text of digits alone says. -/
def natural? (cs : List Char) : Option Nat :=
  match takeDigits cs with
  | ([], _) => none
  | (ds, []) => some (valueOf ds)
  | _ => none

/-- A natural number after an optional plus sign. -/
def plusNatural? : List Char → Option Nat
  | '+' :: cs => natural? cs
  | cs => natural? cs

/-- A natural number after an optional sign. -/
def integer? : List Char → Option Int
  | '-' :: cs => (natural? cs).map fun n => -n
  | cs => (plusNatural? cs).map fun n => n

end SsaKit.Number
