import SsaKit.Number.Layout
/-!
Double and single precision numbers as bit patterns. Arithmetic is that of the host; a NaN operand
passes through, the first one if there are two, and an invalid operation gives the negative NaN.
-/
namespace SsaKit

open Number

structure Double where
  bits : UInt64
deriving DecidableEq

structure Single where
  bits : UInt32
deriving DecidableEq

namespace Double

def ofFloat (x : Float) : Double := ⟨x.toBits⟩

def toFloat (x : Double) : Float := Float.ofBits x.bits

def read (x : Double) : Reading := Format.double.read x.bits.toNat

def isNaN (x : Double) : Bool := Format.double.isNaN x.bits.toNat

def isFinite (x : Double) : Bool :=
  match x.read with
  | .finite _ _ _ => true
  | _ => false

def zero : Double := ⟨0⟩
def negZero : Double := ⟨0x8000000000000000⟩

/-- The result of an invalid operation. -/
def invalid : Double := ⟨0xfff8000000000000⟩

/-- The NaN that an operation passes on for a NaN operand. -/
def quiet (x : Double) : Double := ⟨x.bits ||| 0x0008000000000000⟩

def ofMagnitude (negative : Bool) (magnitude : Nat) : Double :=
  ⟨UInt64.ofNat (Format.double.withSign negative magnitude)⟩

/-- An operation of the host on one number. -/
def map (op : Float → Float) (x : Double) : Double :=
  let r := op x.toFloat
  if r.isNaN then (if x.isNaN then x.quiet else invalid) else ofFloat r

/-- An operation of the host on two numbers. -/
def map₂ (op : Float → Float → Float) (x y : Double) : Double :=
  let r := op x.toFloat y.toFloat
  if r.isNaN then (if x.isNaN then x.quiet else if y.isNaN then y.quiet else invalid)
  else ofFloat r

def add : Double → Double → Double := map₂ (· + ·)
def sub : Double → Double → Double := map₂ (· - ·)
def mul : Double → Double → Double := map₂ (· * ·)
def div : Double → Double → Double := map₂ (· / ·)

/-- The exact remainder of the division truncated toward zero, with the sign of the dividend. -/
def rem (x y : Double) : Double :=
  if x.isNaN then x.quiet
  else if y.isNaN then y.quiet
  else match x.read, y.read with
    | .finite negative m e, .finite _ n d =>
      if n = 0 then invalid
      else
        let place := min e d
        let r := (m * 2 ^ (e - place).toNat) % (n * 2 ^ (d - place).toNat)
        ofMagnitude negative (Format.double.round r 1 place)
    | .finite _ _ _, _ => x
    | _, _ => invalid

def neg (x : Double) : Double := ⟨x.bits ^^^ 0x8000000000000000⟩

def abs (x : Double) : Double := ⟨x.bits &&& 0x7fffffffffffffff⟩

/-- The nearest double to a natural number below `2 ^ 64`. -/
def ofWord (n : UInt64) : Double := ofFloat n.toFloat

/-- The nearest double to an integer of 64 bits. -/
def ofInt (n : Int) : Double :=
  let magnitude := ofWord (UInt64.ofNat n.natAbs)
  if n < 0 then magnitude.neg else magnitude

/-- The value without its fraction, kept between two bounds; NaN counts as 0. -/
def truncate (low high : Int) (x : Double) : Int :=
  match x.read with
  | .nan => 0
  | .infinite negative => if negative then low else high
  | .finite negative m e =>
    let size : Int := (m * 2 ^ e.toNat / 2 ^ (-e).toNat : Nat)
    max low (min high (if negative then -size else size))

/-- Conversion to an unsigned word, cut off at its ends. -/
def toWord (x : Double) : UInt64 := UInt64.ofNat (x.truncate 0 (2 ^ 64 - 1)).toNat

/-- Conversion to a signed word, cut off at its ends. -/
def toSignedWord (x : Double) : Int := x.truncate (-2 ^ 63) (2 ^ 63 - 1)

def text (l : Layout) (x : Double) : String := l.text Format.double x.bits.toNat

end Double

namespace Single

def zero : Single := ⟨0⟩

def read (x : Single) : Reading := Format.single.read x.bits.toNat

def isNaN (x : Single) : Bool := Format.single.isNaN x.bits.toNat

/-- The single nearest to a double. A NaN keeps its sign and the upper part of its payload. -/
def ofDouble (x : Double) : Single :=
  match x.read with
  | .nan =>
    let payload := x.bits.toNat % 2 ^ 52 / 2 ^ 29
    ⟨UInt32.ofNat (Format.single.withSign (Format.double.isNegative x.bits.toNat)
      (Format.single.quietNaN ||| payload))⟩
  | .infinite negative => ⟨UInt32.ofNat (Format.single.withSign negative Format.single.infinity)⟩
  | .finite negative m e =>
    ⟨UInt32.ofNat (Format.single.withSign negative (Format.single.round m 1 e))⟩

/-- Every single is a double. -/
def toDouble (x : Single) : Double :=
  match x.read with
  | .nan =>
    let payload := x.bits.toNat % 2 ^ 23 * 2 ^ 29
    Double.ofMagnitude (Format.single.isNegative x.bits.toNat)
      (Format.double.quietNaN ||| payload)
  | .infinite negative => Double.ofMagnitude negative Format.double.infinity
  | .finite negative m e => Double.ofMagnitude negative (Format.double.round m 1 e)

def text (l : Layout) (x : Single) : String := l.text Format.single x.bits.toNat

end Single

/-- The double that a single precision slot holds for a given one. -/
def Double.toSinglePrecision (x : Double) : Double := (Single.ofDouble x).toDouble

end SsaKit
