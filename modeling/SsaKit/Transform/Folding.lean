import SsaKit.Transform.DeadCode
/-!
Replacement of integer operations on constants by their results.
-/
namespace SsaKit.Transform

/-- The result of an operation on two integer constants. A failing division has none. -/
def fold (m : Module) (v : ValueId) : Option UInt64 := do
  match ← m.instruction? v with
  | .binary op lhs rhs =>
    let bits ← m.types.intWidth (m.typeOf v)
    let a ← m.constWord? lhs
    let b ← m.constWord? rhs
    (op.onWords bits a b).toOption
  | .icmp pred lhs rhs =>
    let bits ← m.types.intWidth (m.typeOf lhs)
    let a ← m.constWord? lhs
    let b ← m.constWord? rhs
    return if pred.onWords bits a b then 1 else 0
  | _ => none

def foldable (m : Module) : List (ValueId × UInt64) :=
  (codeOf m).filterMap fun v => (fold m v).map (v, ·)

/-- Put a constant in the place of an instruction. -/
def replaceByConstant (v : ValueId) (word : UInt64) : Edit Unit := do
  let m ← get
  let constant ← Module.constWord (m.typeOf v) word
  let _ ← Module.replaceAllUses v constant
  Module.eraseInstruction v

/-- Fold in rounds until nothing is left to fold. -/
def foldRounds : Nat → Bool → Edit Bool
  | 0, changed => return changed
  | fuel + 1, changed => do
    let found := foldable (← get)
    if found.isEmpty then return changed
    found.forM fun (v, word) => replaceByConstant v word
    foldRounds fuel true

/-- Every round erases an instruction, so there are no more rounds than values. -/
def foldConstants : Edit Bool := do
  foldRounds ((← get).values.size + 1) false

end SsaKit.Transform
