import SsaKit.Number.Double
import SsaKit.Word
/-!
Scalars that cross the border between a program and its host. A reader gives nothing for a box of
another kind.
-/
namespace SsaKit

inductive Box where
  | int (bits : Nat) (word : UInt64)
  | single (number : Single)
  | double (number : Double)
  /-- An opaque address; zero is null. -/
  | pointer (address : UInt64)
  | void
deriving DecidableEq

namespace Box

/-- An integer cut to a width. -/
def ofWord (bits : Nat) (word : UInt64) : Box := int bits (Word.mask bits word)

def ofInt (bits : Nat) (number : Int) : Box := ofWord bits (Word.ofInt number)

def toInt? : Box → Option Int
  | int bits word => some (Word.signed bits word)
  | _ => none

def toWord? : Box → Option UInt64
  | int _ word => some word
  | _ => none

def toSingle? : Box → Option Single
  | single number => some number
  | _ => none

def toDouble? : Box → Option Double
  | double number => some number
  | _ => none

def toPointer? : Box → Option UInt64
  | pointer address => some address
  | _ => none

def isVoid : Box → Bool
  | void => true
  | _ => false

def hexText (n : Nat) : String := "0x" ++ String.ofList (Nat.toDigits 16 n)

/-- The text for a reader of results. -/
def text : Box → String
  | int bits word =>
    if bits = 1 then toString (decide (word ≠ 0)) else toString (Word.signed bits word)
  | single number => number.text .positional
  | double number => number.text .positional
  | pointer address => if address = 0 then "null" else hexText address.toNat
  | void => "void"

/-- The text in error messages, which shows the kind of the box. -/
def detail : Box → String
  | int bits word => s!"Int \x7b bits: {bits}, value: {word} \x7d"
  | single number => "Float(" ++ number.text .listing ++ ")"
  | double number => "Double(" ++ number.text .listing ++ ")"
  | pointer address => s!"Pointer({address})"
  | void => "Void"

end Box
end SsaKit
