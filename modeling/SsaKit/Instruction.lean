import SsaKit.Handle
import SsaKit.Operator
/-!
Instructions: what they read, where they may go, and which of them must be kept.
-/
namespace SsaKit

inductive Instruction where
  | binary (op : BinaryOp) (lhs rhs : ValueId)
  | icmp (pred : IntPredicate) (lhs rhs : ValueId)
  | fcmp (pred : FloatPredicate) (lhs rhs : ValueId)
  | alloca (allocated : TypeId) (count : Option ValueId)
  | load (ptr : ValueId)
  | store (value ptr : ValueId)
  | elementPtr (base : ValueId) (indices : List ValueId)
  | branch (dest : BlockId)
  | condBranch (cond : ValueId) (thenDest elseDest : BlockId)
  | switch (value : ValueId) (default : BlockId) (cases : List (ValueId × BlockId))
  | phi (incoming : List (BlockId × ValueId))
  | call (callee : FunctionId) (args : List ValueId)
  | ret (value : Option ValueId)
  | unreachable
  | cast (op : CastOp) (value : ValueId)
  | extractValue (aggregate : ValueId) (index : Nat)
  | insertValue (aggregate element : ValueId) (index : Nat)
  | extractElement (vector index : ValueId)
  | insertElement (vector element index : ValueId)
  | shuffle (lhs rhs mask : ValueId)
  | select (cond thenValue elseValue : ValueId)
deriving DecidableEq

namespace Instruction

def opcode : Instruction → String
  | binary op _ _ => op.name
  | icmp _ _ _ => "icmp"
  | fcmp _ _ _ => "fcmp"
  | alloca _ _ => "alloca"
  | load _ => "load"
  | store _ _ => "store"
  | elementPtr _ _ => "getelementptr"
  | branch _ | condBranch _ _ _ => "br"
  | switch _ _ _ => "switch"
  | phi _ => "phi"
  | call _ _ => "call"
  | ret _ => "ret"
  | unreachable => "unreachable"
  | cast op _ => op.name
  | extractValue _ _ => "extractvalue"
  | insertValue _ _ _ => "insertvalue"
  | extractElement _ _ => "extractelement"
  | insertElement _ _ _ => "insertelement"
  | shuffle _ _ _ => "shufflevector"
  | select _ _ _ => "select"

def isTerminator : Instruction → Bool
  | branch _ | condBranch _ _ _ | switch _ _ _ | ret _ | unreachable => true
  | _ => false

def isPhi : Instruction → Bool
  | phi _ => true
  | _ => false

/-- Instructions that stay when nobody reads their result. A division may fail. -/
def hasSideEffects : Instruction → Bool
  | store _ _ | call _ _ => true
  | binary op _ _ => op.isDivision
  | i => i.isTerminator

/-- The values read, in the order they are written. -/
def operands : Instruction → List ValueId
  | binary _ lhs rhs | icmp _ lhs rhs | fcmp _ lhs rhs => [lhs, rhs]
  | alloca _ count => count.toList
  | load ptr => [ptr]
  | store value ptr => [value, ptr]
  | elementPtr base indices => base :: indices
  | branch _ | unreachable => []
  | condBranch cond _ _ => [cond]
  | switch value _ cases => value :: cases.map (·.1)
  | phi incoming => incoming.map (·.2)
  | call _ args => args
  | ret value => value.toList
  | cast _ value => [value]
  | extractValue aggregate _ => [aggregate]
  | insertValue aggregate element _ => [aggregate, element]
  | extractElement vector index => [vector, index]
  | insertElement vector element index => [vector, element, index]
  | shuffle lhs rhs mask => [lhs, rhs, mask]
  | select cond thenValue elseValue => [cond, thenValue, elseValue]

/-- Do a step with each value read, in the order they are written, and put what it gives in the
place of that value. -/
def traverseOperands {m : Type → Type} [Monad m] (f : ValueId → m ValueId) :
    Instruction → m Instruction
  | binary op lhs rhs => return binary op (← f lhs) (← f rhs)
  | icmp pred lhs rhs => return icmp pred (← f lhs) (← f rhs)
  | fcmp pred lhs rhs => return fcmp pred (← f lhs) (← f rhs)
  | alloca allocated count => return alloca allocated (← count.mapM f)
  | load ptr => return load (← f ptr)
  | store value ptr => return store (← f value) (← f ptr)
  | elementPtr base indices => return elementPtr (← f base) (← indices.mapM f)
  | branch dest => return branch dest
  | condBranch cond thenDest elseDest => return condBranch (← f cond) thenDest elseDest
  | switch value default cases =>
    return switch (← f value) default (← cases.mapM fun c => return (← f c.1, c.2))
  | phi incoming => return phi (← incoming.mapM fun c => return (c.1, ← f c.2))
  | call callee args => return call callee (← args.mapM f)
  | ret value => return ret (← value.mapM f)
  | unreachable => return unreachable
  | cast op value => return cast op (← f value)
  | extractValue aggregate index => return extractValue (← f aggregate) index
  | insertValue aggregate element index =>
    return insertValue (← f aggregate) (← f element) index
  | extractElement vector index => return extractElement (← f vector) (← f index)
  | insertElement vector element index =>
    return insertElement (← f vector) (← f element) (← f index)
  | shuffle lhs rhs mask => return shuffle (← f lhs) (← f rhs) (← f mask)
  | select cond thenValue elseValue =>
    return select (← f cond) (← f thenValue) (← f elseValue)

/-- The blocks control may go to next. -/
def successors : Instruction → List BlockId
  | branch dest => [dest]
  | condBranch _ thenDest elseDest => [thenDest, elseDest]
  | switch _ default cases => default :: cases.map (·.2)
  | _ => []

theorem hasSideEffects_of_isTerminator {i : Instruction} (h : i.isTerminator) :
    i.hasSideEffects := by
  cases i <;> simp_all [isTerminator, hasSideEffects]

end Instruction
end SsaKit
