import SsaKit.Module.Layout
/-!
A cursor into one block. An emission checks its operands, makes the instruction at the cursor and
leaves the cursor behind it, so that emissions in a row keep their order.
-/
namespace SsaKit

/-- Before an instruction, or at the end of the block. -/
structure Position where
  block : BlockId
  before : Option ValueId := none
deriving DecidableEq

structure Builder where
  module : Module
  cursor : Option Position := none

abbrev Emit := Attempt Builder

namespace Builder

variable {α : Type}

def onModule (step : Edit α) : Emit α :=
  step.onPart Builder.module fun b module => { b with module }

def onTypes (step : Attempt TypeTable α) : Emit α := onModule (Edit.onTypes step)

def readModule : Emit Module := return (← get).module

/-! ### The cursor -/

def setCursor (cursor : Option Position) : Emit Unit := modify fun b => { b with cursor }

def atEnd (block : BlockId) : Emit Unit := setCursor (some { block })

/-- Stand right before an instruction, which has to be in a block. -/
def atInstruction (v : ValueId) : Emit Unit := do
  let m ← readModule
  match m.blockOf? v with
  | some block => setCursor (some { block, before := some v })
  | none => throw (.invalidState "cannot position before a detached instruction")

/-- Run a step at the end of a block and put the cursor back, on failure too. -/
def build (block : BlockId) (step : Emit α) : Emit α :=
  ExceptT.mk fun b =>
    let r := step.outcome { b with cursor := some { block } }
    (r.1, { r.2 with cursor := b.cursor })

/-- Name a value and hand it back. -/
def named (v : ValueId) (name : String) : Emit ValueId := do
  onModule (Module.setName v name)
  return v

/-- Make an instruction at the cursor. The anchor has to be where the cursor was set. -/
def insert (type : TypeId) (i : Instruction) : Emit ValueId := do
  let b ← get
  match b.cursor with
  | none => throw (.invalidState s!"builder has no insertion point for '{i.opcode}'")
  | some position =>
    if let some anchor := position.before then
      unless b.module.blockOf? anchor = some position.block do
        throw (.invalidState
          s!"insertion point for '{i.opcode}' was moved out of its block")
    onModule (Module.insertInstruction position.block position.before type i)

/-! ### Checks -/

/-- The element type of a vector, any other type itself. -/
def scalarOf (m : Module) (type : TypeId) : TypeId :=
  match m.types.entry type with
  | .vector element _ => element
  | _ => type

/-- The common type of two values. -/
def sameType (opcode : String) (lhs rhs : ValueId) : Emit TypeId := do
  let m ← readModule
  let left := m.typeOf lhs
  let right := m.typeOf rhs
  unless left = right do
    let found := m.types.text left ++ " and " ++ m.types.text right
    throw (.type s!"{opcode} operands must have the same type, found {found}")
  return left

def expectInteger (opcode : String) (v : ValueId) : Emit TypeId := do
  let m ← readModule
  let type := m.typeOf v
  unless m.types.kind type = .integer do
    throw (.type s!"{opcode} requires an integer, found {m.types.text type}")
  return type

def expectKind (opcode : String) (v : ValueId) (kind : Ty.Kind) : Emit TypeId := do
  let m ← readModule
  let type := m.typeOf v
  unless m.types.kind type = kind do
    throw (.type s!"{opcode} requires a {kind.name} operand, found {m.types.text type}")
  return type

/-- The type of a truth value, or of as many of them as a vector has lanes. -/
def boolLike (type : TypeId) : Emit TypeId := do
  let bit ← onTypes (TypeTable.intern (.int 1))
  let m ← readModule
  match m.types.entry type with
  | .vector _ length => onTypes (TypeTable.vector bit length)
  | _ => return bit

/-- The function that the cursor stands in. -/
def currentFunction (opcode : String) : Emit FunctionId := do
  let b ← get
  match b.cursor.bind fun position => b.module.functionOf? position.block with
  | some f => return f
  | none => throw (.invalidState s!"'{opcode}' needs a block inside a function")

def void : Emit TypeId := onTypes TypeTable.void

end Builder
end SsaKit
