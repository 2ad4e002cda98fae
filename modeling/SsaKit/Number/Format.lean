import SsaKit.Word
/-!
Binary interchange formats: reading a bit pattern as an exact number and rounding an exact
quotient to the nearest pattern, halves to the even one.
-/
namespace SsaKit.Number

/-- A format with `fraction` stored significand bits and `exponent` exponent bits. -/
structure Format where
  fraction : Nat
  exponent : Nat

def Format.single : Format := ⟨23, 8⟩
def Format.double : Format := ⟨52, 11⟩

/-- What a bit pattern stands for; a finite one is `significand * 2 ^ exponent`. -/
inductive Reading where
  | nan
  | infinite (negative : Bool)
  | finite (negative : Bool) (significand : Nat) (exponent : Int)

namespace Format

variable (f : Format)

def signBit : Nat := 2 ^ (f.fraction + f.exponent)

def bias : Nat := 2 ^ (f.exponent - 1) - 1

/-- The power of two that the last significand bit of a subnormal counts. -/
def least : Int := 1 - (f.bias : Int) - f.fraction

def infinity : Nat := (2 ^ f.exponent - 1) * 2 ^ f.fraction

/-- The quiet NaN with no payload. -/
def quietNaN : Nat := f.infinity + 2 ^ (f.fraction - 1)

def isNegative (bits : Nat) : Bool := f.signBit ≤ bits

def magnitude (bits : Nat) : Nat := bits % f.signBit

def isNaN (bits : Nat) : Bool := f.infinity < f.magnitude bits

def read (bits : Nat) : Reading :=
  let field := f.magnitude bits / 2 ^ f.fraction
  let fraction := bits % 2 ^ f.fraction
  if f.isNaN bits then .nan
  else if f.magnitude bits = f.infinity then .infinite (f.isNegative bits)
  else if field = 0 then .finite (f.isNegative bits) fraction f.least
  else .finite (f.isNegative bits) (fraction + 2 ^ f.fraction) (f.least + field - 1)

def withSign (negative : Bool) (magnitude : Nat) : Nat :=
  if negative then f.signBit + magnitude else magnitude

/-- The quotient of `num` and `den`, rounded to the nearest integer, halves to the even one. -/
def nearest (num den : Nat) : Nat :=
  let q := num / den
  let r := num % den
  if 2 * r < den ∨ (2 * r = den ∧ q % 2 = 0) then q else q + 1

/-- The magnitude nearest to `num / den * 2 ^ shift`; from half a step above the largest finite
number on it is infinity. -/
def round (num den : Nat) (shift : Int) : Nat :=
  if num = 0 then 0
  else
    let guess : Int := Nat.log2 num - Nat.log2 den
    let low := if num * 2 ^ (-guess).toNat < den * 2 ^ guess.toNat then guess - 1 else guess
    let place := max f.least (low + shift - f.fraction)
    let step := shift - place
    let steps := nearest (num * 2 ^ step.toNat) (den * 2 ^ (-step).toNat)
    min f.infinity ((place - f.least).toNat * 2 ^ f.fraction + steps)

end Format
end SsaKit.Number
