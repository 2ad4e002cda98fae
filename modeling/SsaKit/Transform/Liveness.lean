import SsaKit.Module.Layout
/-!
Removal of symbols that nothing visible from outside needs.
-/
namespace SsaKit.Transform

/-- The symbols found to be needed so far, and the functions whose bodies are still to be read. -/
structure Needed where
  functions : List FunctionId := []
  globals : List ValueId := []
  pending : List FunctionId := []

namespace Needed

def addFunction (n : Needed) (f : FunctionId) : Needed :=
  if n.functions.contains f then n
  else { n with functions := f :: n.functions, pending := f :: n.pending }

/-- Add the globals that a value leads to through constants and initial contents. -/
def addValue (m : Module) : Nat → Needed → ValueId → Needed
  | 0, n, _ => n
  | fuel + 1, n, v => match m.kindOf v with
    | .global g =>
      if n.globals.contains v then n
      else g.initializer.toList.foldl (addValue m fuel) { n with globals := v :: n.globals }
    | .aggregate elements => elements.foldl (addValue m fuel) n
    | _ => n

/-- Every global is entered once, and between two of them no aggregate is met twice. -/
def valueFuel (m : Module) : Nat := (m.values.size + 1) * (m.values.size + 1)

def addOperand (m : Module) (n : Needed) (v : ValueId) : Needed := addValue m (valueFuel m) n v

def addInstruction (m : Module) (n : Needed) (v : ValueId) : Needed :=
  match m.instruction? v with
  | none => n
  | some i =>
    let n := match i with
      | .call callee _ => n.addFunction callee
      | _ => n
    i.operands.foldl (addOperand m) n

/-- Read the bodies that are pending, at most as many as there are functions. -/
def close (m : Module) : Nat → Needed → Needed
  | 0, n => n
  | fuel + 1, n => match n.pending with
    | [] => n
    | f :: pending =>
      close m fuel ((m.instructionsOf f).foldl (addInstruction m) { n with pending })

/-- Functions with a body and globals with a content are needed when they are visible. -/
def roots (m : Module) : Needed :=
  let functions := m.definedFunctions.filter fun f => (m.linkage f).isVisible
  let globals := m.globals.filter fun v =>
    (m.global? v).any fun g => g.linkage.isVisible && g.initializer.isSome
  globals.foldl (addOperand m) (functions.foldl addFunction {})

def ofModule (m : Module) : Needed := close m (m.functions.size + 1) (roots m)

end Needed

/-- Empty the bodies of all unneeded functions, which may call each other, then remove them and the
unneeded globals. A module that lists something else among its globals is refused. -/
def removeUnneeded : Edit Bool := do
  let m ← get
  m.globals.forM fun v => discard (Module.globalData v)
  let needed := Needed.ofModule m
  let functions := m.liveFunctions.filter fun f => !needed.functions.contains f
  let globals := m.globals.filter fun v => !needed.globals.contains v
  functions.forM fun f => (m.blocksOf f).forM Module.removeBlock
  functions.forM Module.removeFunction
  globals.forM Module.removeGlobal
  return !functions.isEmpty || !globals.isEmpty

end SsaKit.Transform
