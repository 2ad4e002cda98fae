import SsaKit.Module.Basic
/-!
The rules a function has to keep before it is run: control stays inside, every block ends with its
only terminator, phis come first and name each predecessor once, and operands are at hand.
-/
namespace SsaKit.Module

variable (m : Module)

/-- The blocks of a function that control may leave towards a block. -/
def predecessors (f : FunctionId) (b : BlockId) : List BlockId :=
  (m.blocksOf f).filter fun p => (m.successors p).contains b

/-- Each predecessor is named, nothing else is, and nothing twice. -/
def mergesAll (f : FunctionId) (b : BlockId) (incoming : List (BlockId × ValueId)) : Bool :=
  let sources := incoming.map (·.1)
  let expected := m.predecessors f b
  sources.all expected.contains && expected.all sources.contains && decide sources.Nodup

/-- Why an operand cannot be read in a function. -/
def operandFault (f : FunctionId) (v : ValueId) : Option String :=
  match m.kindOf v with
  | .argument owner _ =>
    if owner = f then none else some s!"argument of '{m.functionName owner}' used here"
  | .instruction _ =>
    if (m.blockOf? v).bind m.functionOf? = some f then none
    else some s!"operand {v.index} is not an instruction of this function"
  | .global _ =>
    if m.globalNames.values.contains v then none
    else some s!"operand {v.index} refers to a removed global"
  | _ => none

def checkSuccessors (f : FunctionId) (b : BlockId) : Except String Unit :=
  match (m.successors b).find? fun s => m.functionOf? s ≠ some f with
  | some s => .error s!"block {m.label b} branches to {m.label s} outside the function"
  | none => .ok ()

def checkOperands (f : FunctionId) (b : BlockId) (i : Instruction) : Except String Unit :=
  match i.operands.findSome? (m.operandFault f) with
  | some fault => .error s!"in block {m.label b}: {fault}"
  | none => .ok ()

/-- One instruction of a block, given the last one and whether only phis came before. -/
def checkInstruction (f : FunctionId) (b : BlockId) (last : ValueId) (afterPhis : Bool)
    (v : ValueId) : Except String Unit := do
  match m.instruction? v with
  | none => throw s!"block {m.label b} holds a non-instruction"
  | some i =>
    if i.isTerminator && v ≠ last then
      throw s!"block {m.label b} has a terminator before its end"
    if !i.isTerminator && v = last then
      throw s!"block {m.label b} does not end with a terminator"
    if let .phi incoming := i then
      unless afterPhis do throw s!"phi after a non-phi in block {m.label b}"
      unless m.mergesAll f b incoming do
        throw s!"phi in block {m.label b} does not list each predecessor exactly once"
    if let .call callee _ := i then
      if m.isRemoved callee then throw s!"block {m.label b} calls a removed function"
    m.checkOperands f b i

def checkInstructions (f : FunctionId) (b : BlockId) (last : ValueId) :
    Bool → List ValueId → Except String Unit
  | _, [] => .ok ()
  | afterPhis, v :: rest => do
    m.checkInstruction f b last afterPhis v
    checkInstructions f b last (afterPhis && (m.instruction? v).any Instruction.isPhi) rest

def checkBlock (f : FunctionId) (b : BlockId) : Except String Unit :=
  match (m.block b).chain.last with
  | none => .error s!"block {m.label b} is empty"
  | some last => m.checkInstructions f b last true (m.instructions b)

/-- Every branch of the function first, then every block. -/
def checkFunction (f : FunctionId) : Except String Unit := do
  (m.blocksOf f).forM (m.checkSuccessors f)
  (m.blocksOf f).forM (m.checkBlock f)

def verifyFunction (f : FunctionId) : Except Error Unit :=
  (m.checkFunction f).mapError (.verification (m.functionName f))

/-- All live functions, in the order of their declaration. -/
def verify : Except Error Unit := m.liveFunctions.forM m.verifyFunction

end SsaKit.Module
