import SsaKit.Machine.Fault
import SsaKit.SymbolTable
/-!
The host of a run. It has the functions that a call to a function without a body runs, provides
memory, and decides what becomes of arithmetic that overflows. The standard table of functions holds
a few routines on integers and doubles.
-/
namespace SsaKit

abbrev HostFunction := List Box → Except Fault Box

namespace Host

/-- Bytes that the host keeps for one value. -/
def cellBytes : Nat := 40

/-- The most bytes that a usual host gives to one request. -/
@[noinline] def grantedBytes : Nat := 2 ^ 35

/-- The most bytes that a request can ask for. -/
@[noinline] def requestBytes : Nat := 2 ^ 63 - 1

end Host

structure Host extends SymbolTable HostFunction where
  /-- Whether the host has this many bytes for one request. -/
  grants : Nat → Bool := (· ≤ Host.grantedBytes)
  /-- Whether an overflow ends the program. Otherwise the result is wrapped around. -/
  isChecked : Bool := true

namespace Host

def single (name : String) : List Box → Except Fault Box
  | [arg] => .ok arg
  | args => .error (.hostArity name 1 args.length)

def double (name : String) : Box → Except Fault Double
  | .double number => .ok number
  | .single number => .ok number.toDouble
  | arg => .error (.hostArgument name arg)

/-- The magnitude of an integer, cut to its own width. -/
def absolute (name : String) : HostFunction := fun args => do
  match ← single name args with
  | .int bits word => return .ofInt bits (Word.signed bits word).natAbs
  | arg => throw (.hostArgument name arg)

/-- Rounding to a whole number leaves every NaN as it is. -/
def wholly (op : Float → Float) (x : Double) : Double := if x.isNaN then x else x.map op

def unary (name : String) (op : Double → Double) : HostFunction := fun args => do
  return .double (op (← double name (← single name args)))

def power : HostFunction
  | [base, exponent] => do
    let x ← double "pow" base
    let y ← double "pow" exponent
    return .double (x.map₂ Float.pow y)
  | args => .error (.hostArity "pow" 2 args.length)

/-- A half goes away from zero. -/
def standard : Host :=
  { entries :=
    (["abs", "labs", "llabs"].map fun name => (name, absolute name)) ++
    ([("fabs", Double.abs),
      ("sin", Double.map Float.sin),
      ("cos", Double.map Float.cos),
      ("tan", Double.map Float.tan),
      ("sqrt", Double.map Float.sqrt),
      ("exp", Double.map Float.exp),
      ("log", Double.map Float.log),
      ("floor", wholly Float.floor),
      ("ceil", wholly Float.ceil),
      ("round", Double.map Float.round)].map fun (name, op) => (name, unary name op)) ++
    [("pow", power)] }

/-- Why the host cannot provide that many cells. -/
def refusal (h : Host) (count : Nat) : Option Refusal :=
  if requestBytes < count * cellBytes then some .capacity
  else if count = 0 ∨ h.grants (count * cellBytes) then none
  else some .memory

/-- The sum of two offsets of 64 bits. -/
def sum (h : Host) (a b : Int) : Except Fault Int :=
  if -2 ^ 63 ≤ a + b ∧ a + b < 2 ^ 63 then .ok (a + b)
  else if h.isChecked then .error (.crash .overflow)
  else .ok ((a + b).bmod (2 ^ 64))

def call (h : Host) (name : String) (args : List Box) : Except Fault Box :=
  match h.find? name with
  | some function => function args
  | none => .error (.unresolved name)

end Host
end SsaKit
