import SsaKit.Module.Symbol
/-!
The order of blocks in functions and of instructions in blocks, and the replacement of uses.
-/
namespace SsaKit.Module

/-! ### Blocks -/

def pushBlock (name : String) : Edit BlockId :=
  modifyGet fun m =>
    (⟨m.blocks.size⟩, { m with blocks := m.blocks.push { content := { name := nameOf name } } })

/-- A new block at the end of a function. -/
def appendBlock (f : FunctionId) (name : String) : Edit BlockId := do
  let b ← pushBlock name
  Edit.relinkBlocks f fun c a => c.pushBack a f b
  return b

/-- A new block right before another one, unless that one is in no function. -/
def insertBlockBefore (anchor : BlockId) (name : String) : Edit (Option BlockId) := do
  let m ← get
  match m.functionOf? anchor with
  | none => return none
  | some f =>
    let b ← pushBlock name
    Edit.relinkBlocks f fun c a => c.insertBefore a f anchor b
    return some b

def setBlockName (b : BlockId) (name : String) : Edit Unit :=
  Edit.modifyBlock b fun data => { data with name := nameOf name }

/-- Empty a block and take it out of its function. -/
def removeBlock (b : BlockId) : Edit Unit := do
  let m ← get
  (m.instructions b).forM fun v => Edit.relink b fun c a => c.unlink a v
  if let some f := m.functionOf? b then
    Edit.relinkBlocks f fun c a => c.unlink a b

/-- Delete a function with its body, unless another live function still calls it. -/
def removeFunction (f : FunctionId) : Edit Unit := do
  let m ← get
  if m.isRemoved f then return
  if let some caller := (m.callers f).find? (· ≠ f) then
    throw (.invalidState
      s!"'{m.functionName f}' is still called from '{m.functionName caller}'")
  (m.blocksOf f).forM removeBlock
  Edit.modifyFunction f fun data => { data with isRemoved := true }
  modify fun m => { m with functionNames := m.functionNames.erase (m.functionName f) }

/-! ### Instructions -/

/-- Link an instruction before an anchor, or at the end of the block. -/
def linkInstruction (b : BlockId) (before : Option ValueId) (v : ValueId) : Edit Unit :=
  Edit.relink b fun c a => match before with
    | some anchor => c.insertBefore a b anchor v
    | none => c.pushBack a b v

/-- Make an instruction and link it. -/
def insertInstruction (b : BlockId) (before : Option ValueId) (type : TypeId) (i : Instruction) :
    Edit ValueId := do
  let v ← Edit.pushValue type (.instruction i)
  linkInstruction b before v
  return v

def checkDetached (v : ValueId) : Edit Unit := do
  let m ← get
  unless m.isInstruction v do
    throw (.argument s!"value {v.index} is not an instruction")
  if (m.blockOf? v).isSome then
    throw (.invalidState s!"instruction {v.index} already belongs to a block")

/-- Link a detached instruction at the end of a block. -/
def appendInstruction (b : BlockId) (v : ValueId) : Edit Unit := do
  checkDetached v
  linkInstruction b none v

/-- Link a detached instruction right before another one. -/
def insertInstructionBefore (anchor v : ValueId) : Edit Unit := do
  checkDetached v
  let m ← get
  match m.blockOf? anchor with
  | some b => linkInstruction b (some anchor) v
  | none => throw (.invalidState "anchor instruction is not in a block")

/-- Take an instruction out of its block. -/
def detachInstruction (v : ValueId) : Edit Unit := do
  let m ← get
  if let some b := m.blockOf? v then
    Edit.relink b fun c a => c.unlink a v

/-- Take an instruction that nobody reads out of its block. -/
def eraseInstruction (v : ValueId) : Edit Unit := do
  let m ← get
  if let some user := (m.users v).head? then
    throw (.invalidState
      s!"cannot erase instruction {v.index}: still used by {user.index}")
  detachInstruction v

/-! ### Uses -/

/-- Where `old` is read, read `new`, and count it. -/
def swap (old new v : ValueId) : StateM Nat ValueId := do
  if v = old then
    modify (· + 1)
    return new
  else
    return v

/-- Swap the reads of a value, if it is an instruction. -/
def swapIn (old new : ValueId) (value : Value) : StateM Nat Value := do
  match value.kind with
  | .instruction i =>
    return { value with kind := .instruction (← i.traverseOperands (swap old new)) }
  | _ => return value

/-- Replace every read of `old` in an instruction, linked or not, and count them. -/
def replaceAllUses (old new : ValueId) : Edit Nat := do
  let m ← get
  unless m.typeOf old = m.typeOf new do
    throw (mismatch m (m.typeOf old) (m.typeOf new))
  modifyGet fun m =>
    let (values, count) := StateT.run (m.values.mapM fun node => do
      let content ← swapIn old new node.content
      return { node with content }) 0
    (count, { m with values })

/-! ### Merging values -/

def duplicatePredecessor (m : Module) (b : BlockId) : Error :=
  .argument s!"phi already has an incoming value from '{m.label b}'"

/-- Add what a phi takes when control comes from a block. -/
def addIncoming (v : ValueId) (b : BlockId) (incoming : ValueId) : Edit Unit := do
  let m ← get
  unless m.typeOf v = m.typeOf incoming do
    throw (mismatch m (m.typeOf v) (m.typeOf incoming))
  match m.instruction? v with
  | some (.phi entries) =>
    if entries.any (·.1 = b) then throw (m.duplicatePredecessor b)
    Edit.setKind v (.instruction (.phi (entries ++ [(b, incoming)])))
  | _ => throw (.argument "value is not a phi node")

/-- Drop what a phi takes from a block, and count it. -/
def removeIncoming (v : ValueId) (b : BlockId) : Edit Nat := do
  let m ← get
  match m.instruction? v with
  | some (.phi entries) =>
    let kept := entries.filter (·.1 ≠ b)
    Edit.setKind v (.instruction (.phi kept))
    return entries.length - kept.length
  | _ => throw (.argument "value is not a phi node")

end SsaKit.Module
