import SsaKit.Attempt
import SsaKit.Chain
import SsaKit.SymbolTable
import SsaKit.TypeTable
import SsaKit.Value
/-!
Modules: the owner of all types, values, blocks and functions, and the questions that can be asked
of one. Handles stay valid for the life of the module; nothing is ever taken out of an arena.
-/
namespace SsaKit

structure Block where
  name : Option String := none
  chain : Chain .value := {}
deriving Inhabited

structure Function where
  name : String
  type : TypeId
  params : List ValueId
  linkage : Linkage := .external
  chain : Chain .block := {}
  isRemoved : Bool := false

instance : Inhabited Function := ⟨{ name := "", type := ⟨0⟩, params := [] }⟩

structure Module where
  name : String
  types : TypeTable := {}
  values : Arena .value .block Value := #[]
  blocks : Arena .block .function Block := #[]
  functions : Array Function := #[]
  functionNames : SymbolTable FunctionId := {}
  globals : List ValueId := []
  globalNames : SymbolTable ValueId := {}

/-- An empty name is no name. -/
def nameOf (text : String) : Option String := if text.isEmpty then none else some text

namespace Module

variable (m : Module)

/-! ### Values -/

/-- The entry of a value; a handle from elsewhere reads as undefined. -/
def value (v : ValueId) : Value :=
  match m.values[v.index]? with
  | some node => node.content
  | none => default

def kindOf (v : ValueId) : ValueKind := (m.value v).kind

def typeOf (v : ValueId) : TypeId := (m.value v).type

def isConstant (v : ValueId) : Bool := (m.kindOf v).isConstant

def instruction? (v : ValueId) : Option Instruction := (m.kindOf v).instruction?

def isInstruction (v : ValueId) : Bool := (m.instruction? v).isSome

def operands (v : ValueId) : List ValueId := (m.kindOf v).operands

/-- The block that an instruction is linked into. -/
def blockOf? (v : ValueId) : Option BlockId := m.values.parent? v

def constWord? (v : ValueId) : Option UInt64 :=
  match m.kindOf v with
  | .int word => some word
  | _ => none

/-- An integer constant read at its own width. -/
def constSigned? (v : ValueId) : Option Int := do
  let word ← m.constWord? v
  let bits ← m.types.intWidth (m.typeOf v)
  return Word.signed bits word

def constFloat? (v : ValueId) : Option Double :=
  match m.kindOf v with
  | .float number => some number
  | _ => none

/-- Number of elements of an aggregate or of a string of bytes. -/
def elementCount? (v : ValueId) : Option Nat :=
  match m.kindOf v with
  | .aggregate elements => some elements.length
  | .bytes data => some data.length
  | _ => none

/-! ### Blocks -/

def block (b : BlockId) : Block :=
  match m.blocks[b.index]? with
  | some node => node.content
  | none => default

/-- The function that a block is linked into. -/
def functionOf? (b : BlockId) : Option FunctionId := m.blocks.parent? b

/-- The instructions of a block in program order. -/
def instructions (b : BlockId) : List ValueId := (m.block b).chain.toList m.values

/-- The last instruction, if it ends control flow. -/
def terminator? (b : BlockId) : Option ValueId :=
  (m.block b).chain.last.filter fun v => (m.instruction? v).any Instruction.isTerminator

def successors (b : BlockId) : List BlockId :=
  (((m.terminator? b).bind m.instruction?).map Instruction.successors).getD []

/-- The name of a block, or its number. -/
def label (b : BlockId) : String := (m.block b).name.getD s!"bb{b.index}"

/-! ### Functions -/

def function (f : FunctionId) : Function := m.functions.getD f.index default

def functionName (f : FunctionId) : String := (m.function f).name

def isRemoved (f : FunctionId) : Bool := (m.function f).isRemoved

/-- The blocks of a function in layout order. -/
def blocksOf (f : FunctionId) : List BlockId := (m.function f).chain.toList m.blocks

/-- The block that control enters first. -/
def entry? (f : FunctionId) : Option BlockId := (m.function f).chain.first

/-- A function without blocks is resolved outside the module. -/
def isDeclaration (f : FunctionId) : Bool := (m.function f).chain.length = 0

/-- All functions that were not removed, in the order of their declaration. -/
def liveFunctions : List FunctionId :=
  ((List.range m.functions.size).map Handle.mk).filter fun f => !m.isRemoved f

/-- How many functions can be found by name. -/
def functionCount : Nat := m.functionNames.size

def definedFunctions : List FunctionId := m.liveFunctions.filter fun f => !m.isDeclaration f

def resultType (f : FunctionId) : TypeId :=
  let type := (m.function f).type
  (m.types.entry type).result.getD type

def params (f : FunctionId) : List ValueId := (m.function f).params

/-- A parameter by its position; negative positions count from the end. -/
def param? (f : FunctionId) (position : Int) : Option ValueId :=
  let params := m.params f
  let position := if position < 0 then params.length + position else position
  if position < 0 then none else params[position.toNat]?

def linkage (f : FunctionId) : Linkage := (m.function f).linkage

/-- The instructions linked into a function. -/
def instructionsOf (f : FunctionId) : List ValueId := (m.blocksOf f).flatMap m.instructions

def isCallTo (callee : FunctionId) (v : ValueId) : Bool :=
  match m.instruction? v with
  | some (.call c _) => c = callee
  | _ => false

/-- The live functions that call a function. -/
def callers (callee : FunctionId) : List FunctionId :=
  m.liveFunctions.filter fun f => (m.instructionsOf f).any (m.isCallTo callee)

def reads (used user : ValueId) : Bool :=
  (m.instruction? user).any fun i => i.operands.contains used

/-- The instructions linked into live functions that read a value. -/
def users (v : ValueId) : List ValueId :=
  (m.liveFunctions.flatMap m.instructionsOf).filter (m.reads v)

/-! ### Globals -/

def global? (v : ValueId) : Option Global := (m.kindOf v).global?

def isListed (v : ValueId) : Bool := m.globals.contains v

end Module

/-! ### Editing -/

/-- A step that builds or changes a module. -/
abbrev Edit := Attempt Module

namespace Edit

variable {α : Type}

def onTypes (step : Attempt TypeTable α) : Edit α :=
  step.onPart Module.types fun m types => { m with types }

/-- Put a new value into the arena, outside of every block. -/
def pushValue (type : TypeId) (kind : ValueKind) : Edit ValueId :=
  modifyGet fun m =>
    (⟨m.values.size⟩, { m with values := m.values.push { content := { type, kind } } })

def modifyValue (v : ValueId) (f : Value → Value) : Edit Unit :=
  modify fun m => { m with values := m.values.modifyContent v f }

def setKind (v : ValueId) (kind : ValueKind) : Edit Unit :=
  modifyValue v fun value => { value with kind }

def setName (v : ValueId) (name : Option String) : Edit Unit :=
  modifyValue v fun value => { value with name }

def modifyBlock (b : BlockId) (f : Block → Block) : Edit Unit :=
  modify fun m => { m with blocks := m.blocks.modifyContent b f }

def modifyFunction (f : FunctionId) (change : Function → Function) : Edit Unit :=
  modify fun m => { m with functions := m.functions.modify f.index change }

/-- Change the chain of instructions of a block. -/
def relink (b : BlockId)
    (change : Chain .value → Arena .value .block Value → Chain .value × Arena .value .block Value) :
    Edit Unit :=
  modify fun m =>
    let r := change (m.block b).chain m.values
    { m with values := r.2, blocks := m.blocks.modifyContent b fun c => { c with chain := r.1 } }

/-- Change the chain of blocks of a function. -/
def relinkBlocks (f : FunctionId)
    (change : Chain .block → Arena .block .function Block →
      Chain .block × Arena .block .function Block) : Edit Unit :=
  modify fun m =>
    let r := change (m.function f).chain m.blocks
    { m with
      blocks := r.2
      functions := m.functions.modify f.index fun c => { c with chain := r.1 } }

end Edit
end SsaKit
