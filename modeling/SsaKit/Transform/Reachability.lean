import SsaKit.Module.Layout
/-!
Removal of blocks that control cannot reach from the entry of their function.
-/
namespace SsaKit.Transform

/-- Blocks seen, and blocks seen whose successors were not looked at yet. -/
structure Search where
  seen : List BlockId
  pending : List BlockId

def Search.visit (s : Search) (b : BlockId) : Search :=
  if s.seen.contains b then s else { seen := b :: s.seen, pending := b :: s.pending }

/-- Look at pending blocks, at most as many as there are blocks. -/
def explore (m : Module) : Nat → Search → List BlockId
  | 0, s => s.seen
  | fuel + 1, s => match s.pending with
    | [] => s.seen
    | b :: pending =>
      explore m fuel ((m.successors b).foldl Search.visit { s with pending })

/-- The blocks that control may reach from a block. -/
def reachable (m : Module) (entry : BlockId) : List BlockId :=
  explore m (m.blocks.size + 1) { seen := [entry], pending := [entry] }

def phisOf (m : Module) (blocks : List BlockId) : List ValueId :=
  (blocks.flatMap m.instructions).filter fun v => (m.instruction? v).any Instruction.isPhi

/-- Remove a block and what phis take from it. -/
def dropBlock (phis : List ValueId) (b : BlockId) : Edit Unit := do
  phis.forM fun v => discard (Module.removeIncoming v b)
  Module.removeBlock b

def removeUnreachableIn (f : FunctionId) : Edit Bool := do
  let m ← get
  match m.entry? f with
  | none => return false
  | some entry =>
    let seen := reachable m entry
    let dead := (m.blocksOf f).filter fun b => !seen.contains b
    let kept := (m.blocksOf f).filter fun b => seen.contains b
    dead.forM (dropBlock (phisOf m kept))
    return !dead.isEmpty

def removeUnreachable : Edit Bool := do
  let changed ← (← get).definedFunctions.mapM removeUnreachableIn
  return changed.any id

end SsaKit.Transform
