import SsaKit.Instruction
import SsaKit.Linkage
/-!
Values: constants, arguments, globals and the results of instructions. A value is known by its
handle; two equal constants made one after the other are two values.
-/
namespace SsaKit

/-- Storage of a module, with what it holds at first. -/
structure Global where
  valueType : TypeId
  initializer : Option ValueId := none
  linkage : Linkage := .external
  isConstant : Bool := false
deriving DecidableEq

inductive ValueKind where
  /-- The low bits of the word, as many as the type is wide. -/
  | int (word : UInt64)
  | float (number : Double)
  | null
  | undef
  | aggregate (elements : List ValueId)
  | bytes (data : List UInt8)
  | argument (function : FunctionId) (index : Nat)
  | global (data : Global)
  | instruction (i : Instruction)
deriving DecidableEq

instance : Inhabited ValueKind := ⟨.undef⟩

structure Value where
  type : TypeId
  name : Option String := none
  kind : ValueKind
deriving Inhabited

namespace ValueKind

def isConstant : ValueKind → Bool
  | argument _ _ | instruction _ => false
  | _ => true

def instruction? : ValueKind → Option Instruction
  | instruction i => some i
  | _ => none

def global? : ValueKind → Option Global
  | global g => some g
  | _ => none

/-- Elements of an aggregate, the initial content of a global, or what an instruction reads. -/
def operands : ValueKind → List ValueId
  | aggregate elements => elements
  | global g => g.initializer.toList
  | instruction i => i.operands
  | _ => []

end ValueKind
end SsaKit
