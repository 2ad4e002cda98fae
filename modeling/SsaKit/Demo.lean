import SsaKit.Builder.Aggregate
import SsaKit.Builder.Arithmetic
import SsaKit.Builder.Control
import SsaKit.Builder.Memory
import SsaKit.Verify
/-!
Sample programs, each made with the builder and verified.
-/
namespace SsaKit

open Builder SsaKit.Module

structure Demo where
  name : String
  description : String
  program : Emit Unit

namespace Demo

/-- Declare a function with named parameters. -/
def declare (name : String) (result : TypeId) (params : List (String × TypeId)) :
    Emit FunctionId := do
  let f ← onModule (declareFunction name result (params.map (·.2)) false)
  onModule (setParamNames f (params.map (·.1)))
  return f

/-- The parameters of a function of two. -/
def pairOf (f : FunctionId) : Emit (ValueId × ValueId) := do
  match (← readModule).params f with
  | [a, b] => return (a, b)
  | params => throw (.argument s!"expected 2 parameters, found {params.length}")

/-- The parameter of a function of one. -/
def singleOf (f : FunctionId) : Emit ValueId := do
  match (← readModule).params f with
  | [a] => return a
  | params => throw (.argument s!"expected 1 parameter, found {params.length}")

def max : Emit Unit := do
  let i32 ← onTypes (TypeTable.int 32)
  let f ← declare "max" i32 [("a", i32), ("b", i32)]
  let (a, b) ← pairOf f
  let entry ← onModule (appendBlock f "entry")
  let left ← onModule (appendBlock f "left")
  let right ← onModule (appendBlock f "right")
  let exit ← onModule (appendBlock f "exit")
  build entry do
    let greater ← icmp .sgt a b
    let _ ← named greater "greater"
    let _ ← condBr greater left right
  build left do
    let _ ← br exit
  build right do
    let _ ← br exit
  build exit do
    let result ← phi i32 [(left, a), (right, b)]
    let _ ← named result "result"
    let _ ← ret result

/-- Half of the product of sum and difference. -/
def halfProduct (i32 : TypeId) : Emit Unit := do
  let f ← declare "arith" i32 [("x", i32), ("y", i32)]
  let (x, y) ← pairOf f
  let entry ← onModule (appendBlock f "entry")
  build entry do
    let two ← onModule (constInt i32 2)
    let sum ← binary .add x y
    let difference ← binary .sub x y
    let product ← binary .mul sum difference
    let result ← binary .sdiv product two
    let _ ← ret result

/-- The length of a vector, by a square root that the host supplies. -/
def norm (double : TypeId) : Emit Unit := do
  let sqrt ← onModule (declareFunction "sqrt" double [double] false)
  let f ← declare "norm" double [("x", double), ("y", double)]
  let (x, y) ← pairOf f
  let entry ← onModule (appendBlock f "entry")
  build entry do
    let xx ← binary .fmul x x
    let yy ← binary .fmul y y
    let sum ← binary .fadd xx yy
    let root ← call sqrt [sum]
    let _ ← ret root

def arith : Emit Unit := do
  let i32 ← onTypes (TypeTable.int 32)
  let double ← onTypes (TypeTable.intern .double)
  halfProduct i32
  norm double

def fib : Emit Unit := do
  let i32 ← onTypes (TypeTable.int 32)
  let f ← declare "fib" i32 [("n", i32)]
  let n ← singleOf f
  let entry ← onModule (appendBlock f "entry")
  let header ← onModule (appendBlock f "loop")
  let body ← onModule (appendBlock f "body")
  let exit ← onModule (appendBlock f "exit")
  let zero ← onModule (constInt i32 0)
  let one ← onModule (constInt i32 1)
  build entry do
    let _ ← br header
  let (i, current, next) ← build header do
    let i ← phi i32 [(entry, zero)]
    let current ← phi i32 [(entry, zero)]
    let next ← phi i32 [(entry, one)]
    let done ← icmp .sge i n
    let _ ← condBr done exit body
    return (i, current, next)
  build body do
    let following ← binary .add current next
    let step ← binary .add i one
    onModule (addIncoming i body step)
    onModule (addIncoming current body next)
    onModule (addIncoming next body following)
    let _ ← br header
  build exit do
    let _ ← ret current

def factorial : Emit Unit := do
  let i64 ← onTypes (TypeTable.int 64)
  let f ← declare "factorial" i64 [("n", i64)]
  let n ← singleOf f
  let entry ← onModule (appendBlock f "entry")
  let base ← onModule (appendBlock f "base")
  let recurse ← onModule (appendBlock f "recurse")
  let one ← onModule (constInt i64 1)
  build entry do
    let small ← icmp .sle n one
    let _ ← condBr small base recurse
  build base do
    let _ ← ret one
  build recurse do
    let smaller ← binary .sub n one
    let part ← call f [smaller]
    let result ← binary .mul n part
    let _ ← ret result

def structSum : Emit Unit := do
  let i32 ← onTypes (TypeTable.int 32)
  let double ← onTypes (TypeTable.intern .double)
  let pair ← onTypes (TypeTable.namedStruct "pair" [i32, double] false)
  let f ← declare "pair_sum" double [("count", i32), ("scale", double)]
  let (count, scale) ← pairOf f
  let entry ← onModule (appendBlock f "entry")
  build entry do
    let slot ← alloca pair
    let countField ← structPtr slot 0
    let _ ← store count countField
    let scaleField ← structPtr slot 1
    let _ ← store scale scaleField
    let storedCount ← load countField
    let storedScale ← load scaleField
    let widened ← cast .sitofp storedCount double
    let result ← binary .fadd widened storedScale
    let _ ← ret result
  let total ← onModule (addGlobal i32 "pair_total")
  let zero ← onModule (constInt i32 0)
  onModule (setInitializer total zero)
  onModule (setGlobalLinkage total .internal)

def all : List Demo :=
  [⟨"max", "max(i32, i32) with a diamond and a phi", max⟩,
   ⟨"arith", "integer and floating point arithmetic, sqrt through an external", arith⟩,
   ⟨"fib", "iterative fibonacci loop over back-edge phis", fib⟩,
   ⟨"factorial", "recursive i64 factorial", factorial⟩,
   ⟨"struct-sum", "stack struct written and read through struct_gep", structSum⟩]

def find (name : String) : Except Error Demo :=
  match all.find? (·.name == name) with
  | some demo => .ok demo
  | none =>
    let known := ", ".intercalate (all.map Demo.name)
    .error (.argument s!"unknown demo '{name}' (available: {known})")

/-- The module of a demo. -/
def module (d : Demo) : Except Error Module := do
  let (outcome, b) := Attempt.outcome d.program { module := { name := d.name } }
  outcome
  b.module.verify
  return b.module

end Demo
end SsaKit
