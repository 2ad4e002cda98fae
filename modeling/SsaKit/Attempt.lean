import SsaKit.Error
/-!
Steps that may fail on a state they may already have changed: a failed step keeps what it did
before the failure.
-/
namespace SsaKit

abbrev Attempt (σ : Type) := ExceptT Error (StateM σ)

namespace Attempt

variable {σ τ α : Type}

/-- The outcome and the state left behind, on failure too. -/
def outcome (step : Attempt σ α) (s : σ) : Except Error α × σ :=
  let r := step.run.run s
  (r.1, r.2)

/-- Run a step on a part of the state. -/
def onPart (get : σ → τ) (put : σ → τ → σ) (step : Attempt τ α) : Attempt σ α :=
  ExceptT.mk fun s =>
    let r := step.outcome (get s)
    (r.1, put s r.2)

/-- A check that leaves the state alone. -/
def ofExcept (result : Except Error α) : Attempt σ α :=
  ExceptT.mk (pure result)

end Attempt
end SsaKit
