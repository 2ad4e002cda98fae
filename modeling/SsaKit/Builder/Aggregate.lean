import SsaKit.Builder.Basic
/-!
Emission of operations on structs, arrays and vectors.
-/
namespace SsaKit.Builder

/-- The type of a member of a struct or array. -/
def memberType (m : Module) (opcode : String) (type : TypeId) (index : Nat) :
    Except Error TypeId :=
  let outside (count : Nat) : Except Error TypeId :=
    .error (.index index s!"{m.types.text type} has {count} elements")
  match m.types.entry type with
  | .struct _ fields _ =>
    let fields := fields.getD []
    match fields[index]? with
    | some field => .ok field
    | none => outside fields.length
  | .array element length => if index < length then .ok element else outside length
  | _ => .error (.type s!"{opcode} requires a struct or array, found {m.types.text type}")

def extractValue (aggregate : ValueId) (index : Nat) : Emit ValueId := do
  let m ← readModule
  let type ← Attempt.ofExcept (memberType m "extractvalue" (m.typeOf aggregate) index)
  insert type (.extractValue aggregate index)

def insertValue (aggregate element : ValueId) (index : Nat) : Emit ValueId := do
  let m ← readModule
  let type := m.typeOf aggregate
  let member ← Attempt.ofExcept (memberType m "insertvalue" type index)
  unless member = m.typeOf element do
    throw (m.mismatch member (m.typeOf element))
  insert type (.insertValue aggregate element index)

def extractElement (vector index : ValueId) : Emit ValueId := do
  let type ← expectKind "extractelement" vector .vector
  let _ ← expectInteger "extractelement index" index
  let m ← readModule
  insert (scalarOf m type) (.extractElement vector index)

def insertElement (vector element index : ValueId) : Emit ValueId := do
  let type ← expectKind "insertelement" vector .vector
  let _ ← expectInteger "insertelement index" index
  let m ← readModule
  unless scalarOf m type = m.typeOf element do
    throw (m.mismatch (scalarOf m type) (m.typeOf element))
  insert type (.insertElement vector element index)

/-- Lanes picked from two vectors, one after the other, by a constant. -/
def shuffle (lhs rhs mask : ValueId) : Emit ValueId := do
  let type ← sameType "shufflevector" lhs rhs
  let _ ← expectKind "shufflevector" lhs .vector
  let maskType ← expectKind "shufflevector mask" mask .vector
  let m ← readModule
  unless m.types.intWidth (scalarOf m maskType) = some 32 do
    throw (.type
      s!"shufflevector mask must be a vector of i32, found {m.types.text maskType}")
  unless m.isConstant mask do
    throw (.argument "shufflevector mask must be a constant")
  let length := (m.types.entry maskType).length.getD 1
  let result ← onTypes (TypeTable.vector (scalarOf m type) length)
  insert result (.shuffle lhs rhs mask)

/-- One of two values. A vector of conditions picks lane by lane from vectors as long as it. -/
def select (cond thenValue elseValue : ValueId) : Emit ValueId := do
  let type ← sameType "select" thenValue elseValue
  let m ← readModule
  let condType := m.typeOf cond
  unless m.types.intWidth (scalarOf m condType) = some 1 do
    let bit ← onTypes (TypeTable.intern (.int 1))
    let m ← readModule
    throw (m.mismatch bit condType)
  if m.types.kind condType = .vector then
    unless m.types.kind type = .vector ∧
        (m.types.entry type).length = (m.types.entry condType).length do
      let expected ← boolLike type
      let m ← readModule
      throw (m.mismatch expected condType)
  insert type (.select cond thenValue elseValue)

end SsaKit.Builder
