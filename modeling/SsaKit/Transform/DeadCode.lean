import Std.Data.HashSet
import SsaKit.Module.Layout
/-!
Removal of instructions without effect whose results nobody reads.
-/
namespace SsaKit.Transform

/-- The instructions of all functions with a body. -/
def codeOf (m : Module) : List ValueId := m.definedFunctions.flatMap m.instructionsOf

def readValues (m : Module) (code : List ValueId) : List ValueId :=
  code.flatMap fun v => ((m.instruction? v).map Instruction.operands).getD []

def isUseless (m : Module) (read : Std.HashSet ValueId) (v : ValueId) : Bool :=
  !read.contains v && (m.instruction? v).any fun i => !i.hasSideEffects

def deadCode (m : Module) : List ValueId :=
  let code := codeOf m
  code.filter (isUseless m (Std.HashSet.ofList (readValues m code)))

/-- Erase rounds of dead instructions until there are none. -/
def eraseRounds : Nat → Bool → Edit Bool
  | 0, changed => return changed
  | fuel + 1, changed => do
    let dead := deadCode (← get)
    if dead.isEmpty then return changed
    dead.forM Module.eraseInstruction
    eraseRounds fuel true

/-- Every round erases an instruction, so there are no more rounds than values. -/
def eraseDead : Edit Bool := do
  eraseRounds ((← get).values.size + 1) false

end SsaKit.Transform
