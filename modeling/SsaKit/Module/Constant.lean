import SsaKit.Module.Basic
/-!
Constants and names. Every constant is checked against its type when it is made.
-/
namespace SsaKit.Module

/-- Rename a value; an empty name clears it. Two globals never share a name. -/
def setName (v : ValueId) (text : String) : Edit Unit := do
  let m ← get
  let name := nameOf text
  if (m.global? v).isSome then
    if let some new := name then
      if (m.globalNames.find? new).any (· ≠ v) then
        throw (.typeConflict new "another global already has this name")
    let cleared := match (m.value v).name with
      | some old => m.globalNames.erase old
      | none => m.globalNames
    let globalNames := match name with
      | some new => cleared.insert new v
      | none => cleared
    modify fun m => { m with globalNames }
  Edit.setName v name

/-- Refuse a type of another kind. -/
def expectKind (type : TypeId) (kind : Ty.Kind) (what : String) : Edit Unit := do
  let m ← get
  unless m.types.kind type = kind do
    throw (.type s!"{what} requires {kind.name} type, found {m.types.text type}")

/-- An integer constant, cut to the width of its type. -/
def constWord (type : TypeId) (word : UInt64) : Edit ValueId := do
  expectKind type .integer "integer constant"
  let m ← get
  let bits := (m.types.intWidth type).getD 64
  if 64 < bits then
    throw (.argument s!"integer constants wider than 64 bits are not supported (i{bits})")
  Edit.pushValue type (.int (Word.mask bits word))

def constInt (type : TypeId) (number : Int) : Edit ValueId := constWord type (Word.ofInt number)

def constBool (b : Bool) : Edit ValueId := do
  let type ← Edit.onTypes (TypeTable.intern (.int 1))
  Edit.pushValue type (.int (if b then 1 else 0))

/-- A float constant, rounded to the precision of its type. -/
def constFloat (type : TypeId) (number : Double) : Edit ValueId := do
  expectKind type .float "float constant"
  let m ← get
  let isSingle := m.types.entry type = .float
  Edit.pushValue type (.float (if isSingle then number.toSinglePrecision else number))

def constNull (type : TypeId) : Edit ValueId := do
  expectKind type .pointer "null constant"
  Edit.pushValue type .null

def undef (type : TypeId) : Edit ValueId := do
  let m ← get
  unless m.types.isSized type do
    throw (.argument s!"undef of unsized type {m.types.text type}")
  Edit.pushValue type .undef

def mismatch (m : Module) (expected found : TypeId) : Error :=
  .typeMismatch (m.types.text expected) (m.types.text found)

/-- Constants of the expected types, one each. -/
def checkElements (expected : List TypeId) (elements : List ValueId) : Edit Unit := do
  let m ← get
  unless expected.length = elements.length do
    throw (.argument s!"expected {expected.length} elements, got {elements.length}")
  (expected.zip elements).forM fun (want, element) => do
    unless m.isConstant element do
      throw (.argument "aggregate elements must be constants")
    unless m.typeOf element = want do
      throw (mismatch m want (m.typeOf element))

/-- Values made one after the other, up to the first failure. -/
def generate (count : Nat) (generator : Nat → Edit ValueId) : Edit (List ValueId) :=
  (List.range count).mapM generator

def constArray (element : TypeId) (elements : List ValueId) : Edit ValueId := do
  let type ← Edit.onTypes (TypeTable.array element elements.length)
  checkElements (elements.map fun _ => element) elements
  Edit.pushValue type (.aggregate elements)

def constArrayWith (element : TypeId) (count : Nat) (generator : Nat → Edit ValueId) :
    Edit ValueId := do
  constArray element (← generate count generator)

def constVector (type : TypeId) (elements : List ValueId) : Edit ValueId := do
  expectKind type .vector "vector constant"
  let m ← get
  let length := (m.types.entry type).length.getD 0
  unless elements.length = length do
    throw (.argument
      s!"vector {m.types.text type} needs {length} elements, got {elements.length}")
  match (m.types.entry type).element with
  | none => throw (.invalidState "vector type without element type")
  | some element =>
    checkElements (elements.map fun _ => element) elements
    Edit.pushValue type (.aggregate elements)

def constVectorWith (type : TypeId) (generator : Nat → Edit ValueId) : Edit ValueId := do
  expectKind type .vector "vector constant"
  let m ← get
  constVector type (← generate ((m.types.entry type).length.getD 0) generator)

/-- A constant of the anonymous struct that its elements make up. -/
def constStruct (elements : List ValueId) (isPacked : Bool) : Edit ValueId := do
  let m ← get
  match elements.find? (!m.isConstant ·) with
  | some bad => throw (.argument s!"struct element {bad.index} is not a constant")
  | none =>
    let type ← Edit.onTypes (TypeTable.struct (elements.map m.typeOf) isPacked)
    Edit.pushValue type (.aggregate elements)

def constStructWith (count : Nat) (isPacked : Bool) (generator : Nat → Edit ValueId) :
    Edit ValueId := do
  constStruct (← generate count generator) isPacked

/-- A constant of a struct type that exists already. -/
def constNamedStruct (type : TypeId) (elements : List ValueId) : Edit ValueId := do
  expectKind type .struct "struct constant"
  let m ← get
  if (m.types.entry type).isOpaque then
    throw (.invalidState s!"struct {m.types.text type} has no body")
  checkElements ((m.types.entry type).fields.getD []) elements
  Edit.pushValue type (.aggregate elements)

/-- The bytes of a text, with a zero byte at the end if asked for. -/
def constString (text : String) (isTerminated : Bool) : Edit ValueId := do
  let data := text.toUTF8.toList ++ if isTerminated then [0] else []
  let byte ← Edit.onTypes (TypeTable.intern (.int 8))
  let type ← Edit.onTypes (TypeTable.array byte data.length)
  Edit.pushValue type (.bytes data)

end SsaKit.Module
