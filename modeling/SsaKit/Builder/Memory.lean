import SsaKit.Builder.Basic
/-!
Emission of stack slots, loads, stores and pointer arithmetic.
-/
namespace SsaKit.Builder

def allocate (allocated : TypeId) (count : Option ValueId) : Emit ValueId := do
  let m ← readModule
  unless m.types.isSized allocated do
    throw (.type s!"cannot allocate unsized type {m.types.text allocated}")
  insert (← onTypes (TypeTable.pointer allocated)) (.alloca allocated count)

/-- A slot for one value. -/
def alloca (type : TypeId) : Emit ValueId := allocate type none

/-- A slot for as many values as `count` says. -/
def arrayAlloca (type : TypeId) (count : ValueId) : Emit ValueId := do
  let _ ← expectInteger "array alloca" count
  allocate type (some count)

/-- What a pointer points to. -/
def pointee (m : Module) (type : TypeId) : TypeId := (m.types.entry type).element.getD type

def load (ptr : ValueId) : Emit ValueId := do
  let ptrType ← expectKind "load" ptr .pointer
  let m ← readModule
  let type := pointee m ptrType
  unless m.types.isSized type do
    throw (.type s!"cannot load unsized type {m.types.text type}")
  insert type (.load ptr)

def store (v ptr : ValueId) : Emit ValueId := do
  let ptrType ← expectKind "store" ptr .pointer
  let m ← readModule
  unless pointee m ptrType = m.typeOf v do
    throw (m.mismatch (pointee m ptrType) (m.typeOf v))
  insert (← void) (.store v ptr)

/-- The type found one index further inside a type. Fields are picked by constants, read as
unsigned numbers. -/
def stepInto (m : Module) (type : TypeId) (index : ValueId) : Except Error TypeId :=
  match m.types.entry type with
  | .struct _ fields _ =>
    match m.constWord? index with
    | none => .error (.type "struct field index must be a constant")
    | some word =>
      let fields := fields.getD []
      match fields[word.toNat]? with
      | some field => .ok field
      | none => .error (.index word.toInt64.toInt
          s!"{m.types.text type} has {fields.length} fields")
  | .array element _ | .vector element _ => .ok element
  | _ => .error (.type s!"cannot index into {m.types.text type}")

/-- A pointer reached from `base`: the first index steps from one pointee to the next, the others
go inside. -/
def elementPtr (base : ValueId) (indices : List ValueId) : Emit ValueId := do
  let baseType ← expectKind "getelementptr" base .pointer
  if indices.isEmpty then
    throw (.argument "getelementptr needs at least one index")
  indices.forM fun index => discard (expectInteger "getelementptr index" index)
  let m ← readModule
  let target ← Attempt.ofExcept ((indices.drop 1).foldlM (stepInto m) (pointee m baseType))
  insert (← onTypes (TypeTable.pointer target)) (.elementPtr base indices)

/-- A pointer to a field of the struct that `base` points to. -/
def structPtr (base : ValueId) (field : Nat) : Emit ValueId := do
  let type ← onTypes (TypeTable.intern (.int 32))
  let zero ← onModule (Module.constInt type 0)
  let index ← onModule (Module.constWord type (UInt64.ofNat field))
  elementPtr base [zero, index]

end SsaKit.Builder
