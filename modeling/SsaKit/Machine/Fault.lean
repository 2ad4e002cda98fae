import SsaKit.Machine.Box
import SsaKit.Machine.Datum
import SsaKit.Operator
/-!
What can stop a run. Limits, traps and broken control flow are told apart by their constructor.
Most of it is reported as an error; a crash is not, for it takes the whole program down.
-/
namespace SsaKit

/-- Why the host does not provide memory. -/
inductive Refusal where
  | capacity
  | memory
deriving DecidableEq

def Refusal.text : Refusal → String
  | capacity =>
    "memory allocation failed because the computed capacity exceeded the collection's maximum"
  | memory => "memory allocation failed because the memory allocator returned an error"

/-- What a program does not survive: members of an aggregate that the host has no memory for, or
arithmetic on offsets and shifts that overflows where this is checked. -/
inductive Crash where
  | memory (refusal : Refusal)
  | overflow
deriving DecidableEq

inductive Fault where
  -- refused before the run
  | noFunction (name : String)
  | removedEntry
  | arity (function : String) (expected found : Nat)
  | badArgument (index : Nat) (function : String) (arg : Box) (type : String)
  -- limits
  | callDepth (limit : Nat) (function : String)
  | stepLimit (limit : Nat)
  | memoryLimit (count : Nat) (type : String) (limit : Nat)
  | hostMemory (count : Nat) (type : String) (refusal : Refusal)
  -- control flow
  | removedCallee
  | noBody (function : String)
  | noTerminator (block function : String)
  | phiInEntry (function : String)
  | noIncoming (block predecessor : String)
  | latePhi (block : String)
  | notInstruction
  | unreachable (function : String)
  | notProducing (opcode : String)
  -- values
  | undefined (value : Nat)
  | notConstant (value : Nat)
  | removedGlobal (value : Nat)
  -- memory
  | loadNull
  | storeNull
  | pointerNull
  | released (allocation : Nat)
  | dangling (allocation : Nat)
  | outOfBounds (target : Pointer)
  | negativeCount
  | negativeIndex (index : Int)
  -- shapes
  | expectedInt (found : Datum)
  | expectedPointer (found : Datum)
  | expectedFloat (found : Datum)
  | expectedAggregate (found : Datum)
  | member (index count : Nat)
  | lengths
  | selectLengths
  | cannotApply (op : BinaryOp) (lhs rhs : Datum)
  | cannotCompare (lhs rhs : Datum)
  | cannotCast (op : CastOp) (value : Datum)
  | unsupportedCast (op : CastOp) (type : String)
  | unsupportedBitcast (value : Datum) (type : Ty)
  -- arithmetic
  | arithmetic (failure : BinaryOp.Failure)
  -- the border to the host
  | unresolved (name : String)
  | hostArity (name : String) (expected found : Nat)
  | hostArgument (name : String) (arg : Box)
  | hostResult (name : String) (result : Box) (type : String)
  | aggregateAtBorder
  | host (error : Error)
  -- the end of the program
  | crash (reason : Crash)

namespace Fault

/-- The error that a fault is reported as, if the program goes on to report it. -/
def report : Fault → Except Crash Error
  | noFunction name => .ok <| .argument s!"no function named '{name}'"
  | removedEntry => .ok <| .invalidState "cannot run a removed function"
  | arity function expected found =>
    .ok <| .argument s!"'{function}' expects {expected} arguments, got {found}"
  | badArgument index function arg type =>
    .ok <| .argument s!"argument {index} of '{function}': cannot pass {arg.detail} as {type}"
  | notInstruction => .ok <| .invalidState "non-instruction linked in a block"
  | notProducing opcode => .ok <| .invalidState s!"'{opcode}' is not a value-producing instruction"
  | callDepth limit function =>
    .ok <| .execution s!"call depth limit of {limit} exceeded in '{function}'"
  | stepLimit limit => .ok <| .execution s!"step limit of {limit} exceeded"
  | memoryLimit count type limit =>
    .ok <| .execution s!"allocation of {count} x {type} exceeds the memory limit of {limit} cells"
  | hostMemory count type refusal =>
    .ok <| .execution s!"cannot allocate {count} x {type}: {refusal.text}"
  | removedCallee => .ok <| .execution "call to a removed function"
  | noBody function => .ok <| .execution s!"'{function}' has no body"
  | noTerminator block function =>
    .ok <| .execution s!"block '{block}' of '{function}' has no terminator"
  | phiInEntry function => .ok <| .execution s!"phi in entry block of '{function}'"
  | noIncoming block predecessor =>
    .ok <| .execution s!"phi in '{block}' has no entry for predecessor '{predecessor}'"
  | latePhi block => .ok <| .execution s!"phi after a non-phi instruction in '{block}'"
  | unreachable function => .ok <| .execution s!"reached unreachable in '{function}'"
  | undefined value => .ok <| .execution s!"value %{value} used before it is defined"
  | notConstant value => .ok <| .execution s!"value %{value} is not a constant"
  | removedGlobal value => .ok <| .execution s!"use of removed global %{value}"
  | loadNull => .ok <| .execution "load from null pointer"
  | storeNull => .ok <| .execution "store to null pointer"
  | pointerNull => .ok <| .execution "getelementptr on a null pointer"
  | released allocation => .ok <| .execution s!"access to released stack slot #{allocation}"
  | dangling allocation => .ok <| .execution s!"dangling pointer to #{allocation}"
  | outOfBounds p => .ok <|
    .execution (s!"out-of-bounds access at #{p.allocation}[{p.index}]" ++ Pointer.pathText p.path)
  | negativeCount => .ok <| .execution "negative array allocation size"
  | negativeIndex index => .ok <| .execution s!"negative element index {index}"
  | expectedInt found => .ok <| .execution s!"expected an integer, found {found.detail}"
  | expectedPointer found => .ok <| .execution s!"expected a pointer, found {found.detail}"
  | expectedFloat found => .ok <| .execution s!"expected a float, found {found.detail}"
  | expectedAggregate found => .ok <| .execution s!"expected an aggregate, found {found.detail}"
  | member index count =>
    .ok <| .execution s!"element index {index} out of range for {count} elements"
  | lengths => .ok <| .execution "vector operands differ in length"
  | selectLengths => .ok <| .execution "select operands differ in length"
  | cannotApply op lhs rhs =>
    .ok <| .execution s!"cannot apply {op.name} to {lhs.detail} and {rhs.detail}"
  | cannotCompare lhs rhs => .ok <| .execution s!"cannot compare {lhs.detail} and {rhs.detail}"
  | cannotCast op value => .ok <| .execution s!"cannot apply {op.name} to {value.detail}"
  | unsupportedCast op type => .ok <| .execution s!"unsupported {op.name} to {type}"
  | unsupportedBitcast value type =>
    .ok <| .execution s!"unsupported bitcast of {value.detail} to {TypeTable.detail type}"
  | arithmetic .divisionByZero => .ok <| .execution "integer division by zero"
  | arithmetic (.notInteger op) => .ok <| .execution s!"{op.name} is not an integer operator"
  | arithmetic (.notFloat op) => .ok <| .execution s!"{op.name} is not a float operator"
  | unresolved name => .ok <| .execution s!"unresolved external function '{name}'"
  | hostArity name expected found =>
    .ok <| .execution s!"external '{name}' expects {expected} arguments, got {found}"
  | hostArgument name arg => .ok <| .execution s!"external '{name}' cannot take {arg.detail}"
  | hostResult name result type =>
    .ok <| .execution s!"external '{name}' returned {result.detail}, expected {type}"
  | aggregateAtBorder => .ok <| .execution "aggregate values cannot cross the engine boundary"
  | host error => .ok error
  | crash reason => .error reason

/-- The faults that come from the limits of a run. -/
def isLimit : Fault → Bool
  | callDepth _ _ | stepLimit _ | memoryLimit _ _ _ | hostMemory _ _ _ => true
  | _ => false

end Fault
end SsaKit
