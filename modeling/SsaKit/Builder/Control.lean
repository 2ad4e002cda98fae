import SsaKit.Builder.Basic
/-!
Emission of branches, merges, calls and returns.
-/
namespace SsaKit.Builder

def br (dest : BlockId) : Emit ValueId := do
  insert (← void) (.branch dest)

def condBr (cond : ValueId) (thenDest elseDest : BlockId) : Emit ValueId := do
  let m ← readModule
  unless m.types.intWidth (m.typeOf cond) = some 1 do
    let bit ← onTypes (TypeTable.intern (.int 1))
    let m ← readModule
    throw (m.mismatch bit (m.typeOf cond))
  insert (← void) (.condBranch cond thenDest elseDest)

/-- The keys are different constants of the type they are compared with. -/
def checkKeys (m : Module) (type : TypeId) : List UInt64 → List ValueId → Except Error Unit
  | _, [] => .ok ()
  | seen, key :: keys =>
    if m.typeOf key ≠ type then .error (m.mismatch type (m.typeOf key))
    else match m.constWord? key with
      | none => .error (.argument "switch case keys must be integer constants")
      | some word =>
        if seen.contains word then .error (.argument s!"duplicate switch case {word}")
        else checkKeys m type (word :: seen) keys

def switch (v : ValueId) (default : BlockId) (cases : List (ValueId × BlockId)) :
    Emit ValueId := do
  let type ← expectInteger "switch" v
  let m ← readModule
  Attempt.ofExcept (checkKeys m type [] (cases.map (·.1)))
  insert (← void) (.switch v default cases)

/-- Every value has the type of the phi, and no block comes twice. -/
def checkIncoming (m : Module) (type : TypeId) :
    List BlockId → List (BlockId × ValueId) → Except Error Unit
  | _, [] => .ok ()
  | seen, (b, v) :: rest =>
    if m.typeOf v ≠ type then .error (m.mismatch type (m.typeOf v))
    else if seen.contains b then .error (m.duplicatePredecessor b)
    else checkIncoming m type (b :: seen) rest

def phi (type : TypeId) (incoming : List (BlockId × ValueId)) : Emit ValueId := do
  let m ← readModule
  Attempt.ofExcept (checkIncoming m type [] incoming)
  insert type (.phi incoming)

/-- Whether a function can be called with a number of arguments. -/
def takes (params args : Nat) (isVariadic : Bool) : Bool :=
  params = args || (isVariadic && params < args)

def call (callee : FunctionId) (args : List ValueId) : Emit ValueId := do
  let m ← readModule
  if m.isRemoved callee then throw (.invalidState "call to a removed function")
  let type := m.types.entry (m.function callee).type
  let params := type.params.getD []
  unless takes params.length args.length type.isVariadic do
    throw (.argument
      s!"'{m.functionName callee}' expects {params.length} arguments, got {args.length}")
  if let some (param, arg) := (params.zip args).find? fun (param, arg) => m.typeOf arg ≠ param then
    throw (m.mismatch param (m.typeOf arg))
  insert (m.resultType callee) (.call callee args)

def ret (v : ValueId) : Emit ValueId := do
  let f ← currentFunction "ret"
  let m ← readModule
  unless m.resultType f = m.typeOf v do
    throw (m.mismatch (m.resultType f) (m.typeOf v))
  insert (← void) (.ret (some v))

def retVoid : Emit ValueId := do
  let f ← currentFunction "ret"
  let none ← void
  let m ← readModule
  unless m.resultType f = none do
    throw (m.mismatch (m.resultType f) none)
  insert none (.ret .none)

def unreachable : Emit ValueId := do
  insert (← void) .unreachable

end SsaKit.Builder
