import SsaKit.Module.Basic
/-!
What is asked of a module that comes from outside: every handle points into its arena, and every
chain followed from its head ends at its tail after its recorded length.
-/
namespace SsaKit

namespace Chain

variable {kind owner : Entity} {α : Type}

/-- The members of a chain in order, if it is as long as it says and ends where it says. -/
def members? (c : Chain kind) (a : Arena kind owner α) : Option (List (Handle kind)) :=
  let seen := follow a.next? (min a.size c.length + 1) c.first
  if seen.length = c.length ∧ seen.length ≤ a.size ∧ seen.getLast? = c.last then some seen
  else none

end Chain

namespace Module

variable (m : Module)

def hasValue (v : ValueId) : Bool := v.index < m.values.size
def hasBlock (b : BlockId) : Bool := b.index < m.blocks.size
def hasFunction (f : FunctionId) : Bool := f.index < m.functions.size

/-- The types that a value mentions beside its own. -/
def mentionedTypes : ValueKind → List TypeId
  | .global g => [g.valueType]
  | .instruction (.alloca allocated _) => [allocated]
  | _ => []

/-- The blocks that a value mentions. -/
def mentionedBlocks : ValueKind → List BlockId
  | .instruction (.phi incoming) => incoming.map (·.1)
  | .instruction i => i.successors
  | _ => []

/-- The functions that a value mentions. -/
def mentionedFunctions : ValueKind → List FunctionId
  | .argument f _ => [f]
  | .instruction (.call callee _) => [callee]
  | _ => []

/-- An argument stands where its function lists it. -/
def isListedArgument (v : ValueId) : ValueKind → Bool
  | .argument f position => (m.params f)[position]? = some v
  | _ => true

def broken {α : Type} (index : Nat) (message : String) : Except Error α :=
  .error (.index index message)

def checkValue (index : Nat) (node : Node .value .block Value) : Except Error Unit := do
  let kind := node.content.kind
  unless (node.content.type :: mentionedTypes kind).all m.types.contains do
    broken index "value refers to an unknown type"
  unless kind.operands.all m.hasValue && (mentionedBlocks kind).all m.hasBlock &&
      (mentionedFunctions kind).all m.hasFunction do
    broken index "value refers to a missing value, block or function"
  unless m.isListedArgument ⟨index⟩ kind do
    broken index "argument does not match its function's parameters"
  unless node.parent.all m.hasBlock && node.prev.all m.hasValue && node.next.all m.hasValue do
    broken index "instruction links leave the value arena"

def checkBlockLinks (index : Nat) (node : Node .block .function Block) : Except Error Unit := do
  let chain := node.content.chain
  unless node.parent.all m.hasFunction && node.prev.all m.hasBlock && node.next.all m.hasBlock &&
      chain.first.all m.hasValue && chain.last.all m.hasValue do
    broken index "block links leave the module"

def checkFunctionData (index : Nat) (f : Function) : Except Error Unit := do
  unless m.types.contains f.type && m.types.kind f.type = .function do
    broken index "function does not have a function type"
  let expected := (m.types.entry f.type).params.getD []
  unless f.params.length = expected.length && f.params.all m.hasValue do
    broken index "function parameters do not match its type"
  unless f.chain.first.all m.hasBlock && f.chain.last.all m.hasBlock do
    broken index "function block list leaves the module"

def checkSymbols : Except Error Unit := do
  unless m.globals.all m.hasValue && m.globalNames.values.all m.hasValue &&
      m.functionNames.values.all m.hasFunction do
    broken 0 "symbol table refers to a missing entry"

/-- The instructions of a block know it as their owner. -/
def checkMembers (b : BlockId) : Except Error Unit :=
  match (m.block b).chain.members? m.values with
  | none => broken b.index "malformed instruction list"
  | some members => members.forM fun v => do
    unless m.blockOf? v = some b && m.isInstruction v do
      broken v.index "value is listed under the wrong block"

/-- The blocks of a function know it as their owner. -/
def checkBody (index : Nat) (f : Function) : Except Error Unit :=
  match f.chain.members? m.blocks with
  | none => broken index "malformed block list"
  | some members => members.forM fun b => do
    unless m.functionOf? b = some ⟨index⟩ do
      broken b.index "block is listed under the wrong function"
    m.checkMembers b

/-- Apply a check to every entry of an arena, in order. -/
def checkEach {α : Type} (entries : Array α) (check : Nat → α → Except Error Unit) :
    Except Error Unit :=
  entries.toList.zipIdx.forM fun (a, index) => check index a

def checkIntegrity : Except Error Unit := do
  m.types.checkHandles
  checkEach m.values m.checkValue
  checkEach m.blocks m.checkBlockLinks
  checkEach m.functions m.checkFunctionData
  m.checkSymbols
  checkEach m.functions m.checkBody

end Module
end SsaKit
