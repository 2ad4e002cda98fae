import SsaKit.Machine.Run
import SsaKit.Stored.Basic
import SsaKit.Transform.Pipeline
/-!
The stored forms of the limits of a run and of a list of transformations.
-/
namespace SsaKit

open Stored

def Pass.tag : Pass → String
  | globalDce => "GlobalDce"
  | dce => "Dce"
  | unreachableBlockElim => "UnreachableBlockElim"
  | constProp => "ConstProp"

instance : Stored Pass := tagged Pass.tag

instance : Stored Pipeline where
  write p := .record [("passes", write p.passes)]
  read j := do
    let [passes] ← fields? ["passes"] j | none
    return ⟨← field passes⟩

namespace Limits

/-- A limit, or its usual value. -/
def limit (usual : Nat) : Option Json → Option Nat
  | some j => read j
  | none => some usual

/-- Limits that are not given have their usual value. An array may stop early. -/
def ofJson? (j : Json) : Option Limits := do
  let usual : Limits := {}
  let given ← match j with
    | .array items => if items.length ≤ 3 then some [items[0]?, items[1]?, items[2]?] else none
    | j => fields? ["max_call_depth", "max_steps", "max_cells"] j
  let [callDepth, steps, cells] := given | none
  return {
    callDepth := ← limit usual.callDepth callDepth
    steps := ← limit usual.steps steps
    cells := ← limit usual.cells cells }

end Limits
end SsaKit
