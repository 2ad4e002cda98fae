import SsaKit.Transform.Liveness
import SsaKit.Transform.Reachability
import SsaKit.Transform.Folding
import SsaKit.Verify
/-!
Transformations by name, and lists of them that run in order on a verified module.
-/
namespace SsaKit

inductive Pass where
  | globalDce | dce | unreachableBlockElim | constProp
deriving DecidableEq

namespace Pass

def all : List Pass := [globalDce, dce, unreachableBlockElim, constProp]

def name : Pass → String
  | globalDce => "gdce"
  | dce => "dce"
  | unreachableBlockElim => "unreachable-block-elim"
  | constProp => "constprop"

instance : Mnemonic Pass := ⟨all, name, "pass"⟩

/-- Apply once, and tell whether the module changed. -/
def run : Pass → Edit Bool
  | globalDce => Transform.removeUnneeded
  | dce => Transform.eraseDead
  | unreachableBlockElim => Transform.removeUnreachable
  | constProp => Transform.foldConstants

/-- Apply once; a failure names the pass. -/
def runNamed (p : Pass) : Edit Bool :=
  tryCatch p.run fun error => throw (.pass p.name error.text)

end Pass

structure Pipeline where
  passes : List Pass := []

namespace Pipeline

def add (p : Pipeline) (pass : Pass) : Pipeline := ⟨p.passes ++ [pass]⟩

def addNamed (p : Pipeline) (name : String) : Except Error Pipeline := do
  return p.add (← Mnemonic.parse name)

def ofNames (names : List String) : Except Error Pipeline :=
  names.foldlM addNamed {}

/-- Verify the module, then apply every pass in order. -/
def run (p : Pipeline) : Edit Bool := do
  Attempt.ofExcept (← get).verify
  let changed ← p.passes.mapM Pass.runNamed
  return changed.any id

end Pipeline
end SsaKit
