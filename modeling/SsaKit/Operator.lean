import SsaKit.Mnemonic
import SsaKit.Word
import SsaKit.Number.Double
/-!
The operators, predicates and conversions of instructions, with their meaning on integers of a
given width and on doubles.
-/
namespace SsaKit

inductive BinaryOp where
  | add | sub | mul | udiv | sdiv | urem | srem | shl | lshr | ashr | and | or | xor
  | fadd | fsub | fmul | fdiv | frem
deriving DecidableEq

inductive IntPredicate where
  | eq | ne | ugt | uge | ult | ule | sgt | sge | slt | sle
deriving DecidableEq

inductive FloatPredicate where
  | oeq | ogt | oge | olt | ole | one | ord | ueq | ugt | uge | ult | ule | une | uno
deriving DecidableEq

inductive CastOp where
  | bitcast | trunc | zext | sext | fptoui | fptosi | uitofp | sitofp | fpext | fptrunc
deriving DecidableEq

namespace BinaryOp

def all : List BinaryOp :=
  [add, sub, mul, udiv, sdiv, urem, srem, shl, lshr, ashr, and, or, xor,
   fadd, fsub, fmul, fdiv, frem]

def name : BinaryOp → String
  | add => "add" | sub => "sub" | mul => "mul"
  | udiv => "udiv" | sdiv => "sdiv" | urem => "urem" | srem => "srem"
  | shl => "shl" | lshr => "lshr" | ashr => "ashr"
  | and => "and" | or => "or" | xor => "xor"
  | fadd => "fadd" | fsub => "fsub" | fmul => "fmul" | fdiv => "fdiv" | frem => "frem"

instance : Mnemonic BinaryOp := ⟨all, name, "binary operator"⟩

def isFloat : BinaryOp → Bool
  | fadd | fsub | fmul | fdiv | frem => true
  | _ => false

/-- The operators that fail on a zero divisor. -/
def isDivision : BinaryOp → Bool
  | udiv | sdiv | urem | srem => true
  | _ => false

/-- Why an operator has no result. -/
inductive Failure where
  | divisionByZero
  | notInteger (op : BinaryOp)
  | notFloat (op : BinaryOp)
deriving DecidableEq

/-- The result of an operator on integers of a width, in the low bits of a word. -/
def onWords (op : BinaryOp) (bits : Nat) (lhs rhs : UInt64) : Except Failure UInt64 :=
  let a := Word.mask bits lhs
  let b := Word.mask bits rhs
  let keep (value : UInt64) := Except.ok (Word.mask bits value)
  let divide (value : Unit → UInt64) := if b = 0 then .error .divisionByZero else keep (value ())
  match op with
  | add => keep (a + b)
  | sub => keep (a - b)
  | mul => keep (a * b)
  | udiv => divide fun _ => a / b
  | urem => divide fun _ => a % b
  | sdiv => divide fun _ => Word.ofInt ((Word.signed bits a).tdiv (Word.signed bits b))
  | srem => divide fun _ => Word.ofInt ((Word.signed bits a).tmod (Word.signed bits b))
  | shl => keep (if b.toNat < bits then a <<< b else 0)
  | lshr => keep (if b.toNat < bits then a >>> b else 0)
  | ashr => keep (Word.ofInt (Word.signed bits a >>> min b.toNat (min (bits - 1) 63)))
  | and => keep (a &&& b)
  | or => keep (a ||| b)
  | xor => keep (a ^^^ b)
  | op => .error (.notInteger op)

/-- A shift within the width by more than a word has bits. -/
def overshifts (op : BinaryOp) (bits : Nat) (rhs : UInt64) : Bool :=
  let amount := (Word.mask bits rhs).toNat
  (op = shl || op = lshr) && 64 ≤ amount && amount < bits

def onDoubles (op : BinaryOp) (lhs rhs : Double) : Except Failure Double :=
  match op with
  | fadd => .ok (lhs.add rhs)
  | fsub => .ok (lhs.sub rhs)
  | fmul => .ok (lhs.mul rhs)
  | fdiv => .ok (lhs.div rhs)
  | frem => .ok (lhs.rem rhs)
  | op => .error (.notFloat op)

end BinaryOp

namespace IntPredicate

def all : List IntPredicate := [eq, ne, ugt, uge, ult, ule, sgt, sge, slt, sle]

def name : IntPredicate → String
  | eq => "eq" | ne => "ne"
  | ugt => "ugt" | uge => "uge" | ult => "ult" | ule => "ule"
  | sgt => "sgt" | sge => "sge" | slt => "slt" | sle => "sle"

instance : Mnemonic IntPredicate := ⟨all, name, "integer predicate"⟩

def isSigned : IntPredicate → Bool
  | sgt | sge | slt | sle => true
  | _ => false

/-- The predicate on two numbers given by their unsigned and their signed readings. -/
@[inline] def holds (p : IntPredicate) (ul ur : UInt64) (sl sr : Int) : Bool :=
  match p with
  | eq => ul = ur
  | ne => ul ≠ ur
  | ugt => ur < ul
  | uge => ur ≤ ul
  | ult => ul < ur
  | ule => ul ≤ ur
  | sgt => sr < sl
  | sge => sr ≤ sl
  | slt => sl < sr
  | sle => sl ≤ sr

/-- The predicate on integers of a width. -/
def onWords (p : IntPredicate) (bits : Nat) (lhs rhs : UInt64) : Bool :=
  let a := Word.mask bits lhs
  let b := Word.mask bits rhs
  p.holds a b (Word.signed bits a) (Word.signed bits b)

end IntPredicate

namespace FloatPredicate

def all : List FloatPredicate :=
  [oeq, ogt, oge, olt, ole, one, ord, ueq, ugt, uge, ult, ule, une, uno]

def name : FloatPredicate → String
  | oeq => "oeq" | ogt => "ogt" | oge => "oge" | olt => "olt" | ole => "ole"
  | one => "one" | ord => "ord"
  | ueq => "ueq" | ugt => "ugt" | uge => "uge" | ult => "ult" | ule => "ule"
  | une => "une" | uno => "uno"

instance : Mnemonic FloatPredicate := ⟨all, name, "float predicate"⟩

/-- With a NaN operand the ordered predicates fail and the unordered ones hold. -/
def holds (p : FloatPredicate) (lhs rhs : Double) : Bool :=
  let unordered := lhs.isNaN || rhs.isNaN
  let x := lhs.toFloat
  let y := rhs.toFloat
  match p with
  | oeq => !unordered && x == y
  | ogt => !unordered && decide (y < x)
  | oge => !unordered && decide (y ≤ x)
  | olt => !unordered && decide (x < y)
  | ole => !unordered && decide (x ≤ y)
  | one => !unordered && !(x == y)
  | ord => !unordered
  | ueq => unordered || x == y
  | ugt => unordered || decide (y < x)
  | uge => unordered || decide (y ≤ x)
  | ult => unordered || decide (x < y)
  | ule => unordered || decide (x ≤ y)
  | une => unordered || !(x == y)
  | uno => unordered

end FloatPredicate

namespace CastOp

def all : List CastOp :=
  [bitcast, trunc, zext, sext, fptoui, fptosi, uitofp, sitofp, fpext, fptrunc]

def name : CastOp → String
  | bitcast => "bitcast" | trunc => "trunc" | zext => "zext" | sext => "sext"
  | fptoui => "fptoui" | fptosi => "fptosi" | uitofp => "uitofp" | sitofp => "sitofp"
  | fpext => "fpext" | fptrunc => "fptrunc"

instance : Mnemonic CastOp := ⟨all, name, "conversion"⟩

/-- Resizing of an integer: `sext` copies the sign, every other conversion fills with zeros. -/
def resize (op : CastOp) (source target : Nat) (value : UInt64) : UInt64 :=
  match op with
  | sext => Word.mask target (Word.ofInt (Word.signed source value))
  | _ => Word.mask target value

end CastOp
end SsaKit
