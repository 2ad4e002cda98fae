import SsaKit.Stored.Basic
import SsaKit.Value
/-!
The stored form of values and instructions.
-/
namespace SsaKit

open Stored

def BinaryOp.tag : BinaryOp → String
  | add => "Add" | sub => "Sub" | mul => "Mul"
  | udiv => "UDiv" | sdiv => "SDiv" | urem => "URem" | srem => "SRem"
  | shl => "Shl" | lshr => "LShr" | ashr => "AShr"
  | and => "And" | or => "Or" | xor => "Xor"
  | fadd => "FAdd" | fsub => "FSub" | fmul => "FMul" | fdiv => "FDiv" | frem => "FRem"

def IntPredicate.tag : IntPredicate → String
  | eq => "Eq" | ne => "Ne"
  | ugt => "Ugt" | uge => "Uge" | ult => "Ult" | ule => "Ule"
  | sgt => "Sgt" | sge => "Sge" | slt => "Slt" | sle => "Sle"

def FloatPredicate.tag : FloatPredicate → String
  | oeq => "Oeq" | ogt => "Ogt" | oge => "Oge" | olt => "Olt" | ole => "Ole"
  | one => "One" | ord => "Ord"
  | ueq => "Ueq" | ugt => "Ugt" | uge => "Uge" | ult => "Ult" | ule => "Ule"
  | une => "Une" | uno => "Uno"

def CastOp.tag : CastOp → String
  | bitcast => "BitCast" | trunc => "Trunc" | zext => "ZExt" | sext => "SExt"
  | fptoui => "FpToUi" | fptosi => "FpToSi" | uitofp => "UiToFp" | sitofp => "SiToFp"
  | fpext => "FpExt" | fptrunc => "FpTrunc"

def Linkage.tag : Linkage → String
  | external => "External"
  | availableExternally => "AvailableExternally"
  | linkOnceAny => "LinkOnceAny"
  | linkOnceOdr => "LinkOnceOdr"
  | weakAny => "WeakAny"
  | weakOdr => "WeakOdr"
  | appending => "Appending"
  | internal => "Internal"
  | hidden => "Private"
  | externalWeak => "ExternalWeak"
  | common => "Common"

instance : Stored BinaryOp := tagged BinaryOp.tag
instance : Stored IntPredicate := tagged IntPredicate.tag
instance : Stored FloatPredicate := tagged FloatPredicate.tag
instance : Stored CastOp := tagged CastOp.tag
instance : Stored Linkage := tagged Linkage.tag

namespace Instruction

def write : Instruction → Json
  | binary op lhs rhs => holding "Binary" (.record
    [("op", Stored.write op), ("lhs", Stored.write lhs), ("rhs", Stored.write rhs)])
  | icmp pred lhs rhs => holding "ICmp" (.record
    [("pred", Stored.write pred), ("lhs", Stored.write lhs), ("rhs", Stored.write rhs)])
  | fcmp pred lhs rhs => holding "FCmp" (.record
    [("pred", Stored.write pred), ("lhs", Stored.write lhs), ("rhs", Stored.write rhs)])
  | alloca allocated count => holding "Alloca" (.record
    [("allocated", Stored.write allocated), ("count", Stored.write count)])
  | load ptr => holding "Load" (.record [("ptr", Stored.write ptr)])
  | store value ptr => holding "Store" (.record
    [("value", Stored.write value), ("ptr", Stored.write ptr)])
  | elementPtr base indices => holding "GetElementPtr" (.record
    [("base", Stored.write base), ("indices", Stored.write indices)])
  | branch dest => holding "Branch" (.record [("dest", Stored.write dest)])
  | condBranch cond thenDest elseDest => holding "CondBranch" (.record
    [("cond", Stored.write cond), ("then_dest", Stored.write thenDest),
      ("else_dest", Stored.write elseDest)])
  | switch value default cases => holding "Switch" (.record
    [("value", Stored.write value), ("default", Stored.write default),
      ("cases", Stored.write cases)])
  | phi incoming => holding "Phi" (.record [("incoming", Stored.write incoming)])
  | call callee args => holding "Call" (.record
    [("callee", Stored.write callee), ("args", Stored.write args)])
  | ret value => holding "Return" (Stored.write value)
  | unreachable => .ofString "Unreachable"
  | cast op value => holding "Cast" (.record
    [("op", Stored.write op), ("value", Stored.write value)])
  | extractValue aggregate index => holding "ExtractValue" (.record
    [("aggregate", Stored.write aggregate), ("index", .ofNat index)])
  | insertValue aggregate element index => holding "InsertValue" (.record
    [("aggregate", Stored.write aggregate), ("element", Stored.write element),
      ("index", .ofNat index)])
  | extractElement vector index => holding "ExtractElement" (.record
    [("vector", Stored.write vector), ("index", Stored.write index)])
  | insertElement vector element index => holding "InsertElement" (.record
    [("vector", Stored.write vector), ("element", Stored.write element),
      ("index", Stored.write index)])
  | shuffle lhs rhs mask => holding "ShuffleVector" (.record
    [("lhs", Stored.write lhs), ("rhs", Stored.write rhs), ("mask", Stored.write mask)])
  | select cond thenValue elseValue => holding "Select" (.record
    [("cond", Stored.write cond), ("then_value", Stored.write thenValue),
      ("else_value", Stored.write elseValue)])

def read (j : Json) : Option Instruction := do
  match ← variant? j with
  | ("Unreachable", payload) => unit unreachable payload
  | (tag, some payload) => match tag with
    | "Binary" =>
      let [op, lhs, rhs] ← fields? ["op", "lhs", "rhs"] payload | none
      return binary (← field op) (← field lhs) (← field rhs)
    | "ICmp" =>
      let [pred, lhs, rhs] ← fields? ["pred", "lhs", "rhs"] payload | none
      return icmp (← field pred) (← field lhs) (← field rhs)
    | "FCmp" =>
      let [pred, lhs, rhs] ← fields? ["pred", "lhs", "rhs"] payload | none
      return fcmp (← field pred) (← field lhs) (← field rhs)
    | "Alloca" =>
      let [allocated, count] ← fields? ["allocated", "count"] payload | none
      return alloca (← field allocated) (← field count)
    | "Load" =>
      let [ptr] ← fields? ["ptr"] payload | none
      return load (← field ptr)
    | "Store" =>
      let [value, ptr] ← fields? ["value", "ptr"] payload | none
      return store (← field value) (← field ptr)
    | "GetElementPtr" =>
      let [base, indices] ← fields? ["base", "indices"] payload | none
      return elementPtr (← field base) (← field indices)
    | "Branch" =>
      let [dest] ← fields? ["dest"] payload | none
      return branch (← field dest)
    | "CondBranch" =>
      let [cond, thenDest, elseDest] ← fields? ["cond", "then_dest", "else_dest"] payload | none
      return condBranch (← field cond) (← field thenDest) (← field elseDest)
    | "Switch" =>
      let [value, default, cases] ← fields? ["value", "default", "cases"] payload | none
      return switch (← field value) (← field default) (← field cases)
    | "Phi" =>
      let [incoming] ← fields? ["incoming"] payload | none
      return phi (← field incoming)
    | "Call" =>
      let [callee, args] ← fields? ["callee", "args"] payload | none
      return call (← field callee) (← field args)
    | "Return" => (Stored.read payload).map ret
    | "Cast" =>
      let [op, value] ← fields? ["op", "value"] payload | none
      return cast (← field op) (← field value)
    | "ExtractValue" =>
      let [aggregate, index] ← fields? ["aggregate", "index"] payload | none
      return extractValue (← field aggregate) (← index.bind narrow?)
    | "InsertValue" =>
      let [aggregate, element, index] ← fields? ["aggregate", "element", "index"] payload | none
      return insertValue (← field aggregate) (← field element) (← index.bind narrow?)
    | "ExtractElement" =>
      let [vector, index] ← fields? ["vector", "index"] payload | none
      return extractElement (← field vector) (← field index)
    | "InsertElement" =>
      let [vector, element, index] ← fields? ["vector", "element", "index"] payload | none
      return insertElement (← field vector) (← field element) (← field index)
    | "ShuffleVector" =>
      let [lhs, rhs, mask] ← fields? ["lhs", "rhs", "mask"] payload | none
      return shuffle (← field lhs) (← field rhs) (← field mask)
    | "Select" =>
      let [cond, thenValue, elseValue] ← fields? ["cond", "then_value", "else_value"] payload
        | none
      return select (← field cond) (← field thenValue) (← field elseValue)
    | _ => none
  | _ => none

end Instruction

instance : Stored Instruction := { write := Instruction.write, read := Instruction.read }

instance : Stored Global where
  write g := .record
    [("value_type", write g.valueType), ("initializer", write g.initializer),
      ("linkage", write g.linkage), ("is_constant", write g.isConstant)]
  read j := do
    let [valueType, initializer, linkage, isConstant] ←
      fields? ["value_type", "initializer", "linkage", "is_constant"] j | none
    return {
      valueType := ← field valueType
      initializer := ← field initializer
      linkage := ← field linkage
      isConstant := ← field isConstant }

namespace ValueKind

def write : ValueKind → Json
  | int word => holding "ConstInt" (Stored.write word)
  | float number => holding "ConstFloat" (Stored.write number)
  | null => .ofString "ConstNull"
  | undef => .ofString "Undef"
  | aggregate elements => holding "ConstAggregate" (Stored.write elements)
  | bytes data => holding "ConstString" (Stored.write data)
  | argument function index => holding "Argument" (.record
    [("function", Stored.write function), ("index", Stored.write index)])
  | global data => holding "Global" (Stored.write data)
  | instruction i => holding "Instruction" (Stored.write i)

def read (j : Json) : Option ValueKind := do
  match ← variant? j with
  | ("ConstNull", payload) => unit null payload
  | ("Undef", payload) => unit undef payload
  | ("ConstInt", some payload) => (Stored.read payload).map int
  | ("ConstFloat", some payload) => (Stored.read payload).map float
  | ("ConstAggregate", some payload) => (Stored.read payload).map aggregate
  | ("ConstString", some payload) => (Stored.read payload).map bytes
  | ("Argument", some payload) =>
    let [function, index] ← fields? ["function", "index"] payload | none
    return argument (← field function) (← field index)
  | ("Global", some payload) => (Stored.read payload).map global
  | ("Instruction", some payload) => (Stored.read payload).map instruction
  | _ => none

end ValueKind

instance : Stored ValueKind := { write := ValueKind.write, read := ValueKind.read }

end SsaKit
