import SsaKit.Module.Constant
/-!
Functions and globals: the two kinds of symbols a module declares by name.
-/
namespace SsaKit.Module

/-! ### Globals -/

def globalData (v : ValueId) : Edit Global := do
  let m ← get
  match m.global? v with
  | some g => return g
  | none => throw (.argument "value is not a global variable")

/-- Declare storage for a value. A name declared before gives the same global again, provided that
the types agree. -/
def addGlobal (valueType : TypeId) (name : String) : Edit ValueId := do
  let m ← get
  unless m.types.isSized valueType do
    throw (.argument s!"global '{name}' has unsized type {m.types.text valueType}")
  match m.globalNames.find? name with
  | some existing =>
    let g ← globalData existing
    if g.valueType = valueType then return existing
    throw (.typeConflict name
      s!"global already declared as {m.types.text g.valueType}, requested {m.types.text valueType}")
  | none =>
    let type ← Edit.onTypes (TypeTable.pointer valueType)
    let v ← Edit.pushValue type (.global { valueType })
    Edit.setName v (some name)
    modify fun m =>
      { m with globals := m.globals ++ [v], globalNames := m.globalNames.insert name v }
    return v

def findGlobal? (m : Module) (name : String) : Option ValueId := m.globalNames.find? name

/-- Set the content that a global starts with: a constant of its value type. -/
def setInitializer (v init : ValueId) : Edit Unit := do
  let g ← globalData v
  let m ← get
  unless m.isConstant init do
    throw (.argument "global initializer must be a constant")
  unless m.typeOf init = g.valueType do
    throw (mismatch m g.valueType (m.typeOf init))
  Edit.setKind v (.global { g with initializer := some init })

def setGlobalLinkage (v : ValueId) (linkage : Linkage) : Edit Unit := do
  let g ← globalData v
  Edit.setKind v (.global { g with linkage })

def setGlobalConstant (v : ValueId) (isConstant : Bool) : Edit Unit := do
  let g ← globalData v
  Edit.setKind v (.global { g with isConstant })

/-- Take a global off the list and free its name. -/
def removeGlobal (v : ValueId) : Edit Unit := do
  let _ ← globalData v
  modify fun m =>
    { m with
      globals := m.globals.filter (· ≠ v)
      globalNames := match (m.value v).name with
        | some name => m.globalNames.erase name
        | none => m.globalNames }

/-- An internal constant that holds a text and a zero byte. -/
def globalString (name text : String) : Edit ValueId := do
  let init ← constString text true
  let m ← get
  let v ← addGlobal (m.typeOf init) name
  setInitializer v init
  setGlobalLinkage v .internal
  setGlobalConstant v true
  return v

/-! ### Functions -/

/-- The parameters of a new function, one value each. -/
def pushParams (f : FunctionId) (types : List TypeId) : Edit (List ValueId) :=
  types.zipIdx.mapM fun (type, index) => Edit.pushValue type (.argument f index)

/-- Declare a function of a given type. A name declared before gives the same function again,
provided that the types agree. -/
def addFunction (name : String) (type : TypeId) : Edit FunctionId := do
  let m ← get
  match (m.types.entry type).params with
  | none => throw (.type s!"'{name}' needs a function type, found {m.types.text type}")
  | some paramTypes =>
    match m.functionNames.find? name with
    | some existing =>
      let existingType := (m.function existing).type
      if existingType = type then return existing
      throw (.typeConflict name
        s!"function already declared as {m.types.text existingType}, requested {m.types.text type}")
    | none =>
      if name.isEmpty then throw (.argument "function name must not be empty")
      let f : FunctionId := ⟨m.functions.size⟩
      let params ← pushParams f paramTypes
      modify fun m =>
        { m with
          functions := m.functions.push { name, type, params }
          functionNames := m.functionNames.insert name f }
      return f

def declareFunction (name : String) (result : TypeId) (params : List TypeId) (isVariadic : Bool) :
    Edit FunctionId := do
  addFunction name (← Edit.onTypes (TypeTable.function result params isVariadic))

def findFunction? (m : Module) (name : String) : Option FunctionId := m.functionNames.find? name

/-- Name the leading parameters in order; an empty name clears one. -/
def setParamNames (f : FunctionId) (names : List String) : Edit Unit := do
  let m ← get
  ((m.params f).zip names).forM fun (v, name) => Edit.setName v (nameOf name)

def setLinkage (f : FunctionId) (linkage : Linkage) : Edit Unit :=
  Edit.modifyFunction f fun data => { data with linkage }

end SsaKit.Module
