import SsaKit.Command.Basic
import SsaKit.Command.Files
import SsaKit.Demo
import SsaKit.Listing
import SsaKit.Machine.Run
import SsaKit.Number.Literal
import SsaKit.Stored.Module
import SsaKit.Target
import SsaKit.Transform.Pipeline
/-!
What a request does, given a way to reach files.
-/
namespace SsaKit

/-- How a request ends that is not refused. -/
inductive Ending where
  | printed (output : String)
  | crashed (reason : Crash)

namespace Command

def listText : String :=
  String.join (Demo.all.map fun d => Help.padded 12 d.name ++ " " ++ d.description ++ "\n")

/-- An integer of 64 bits, signed or not, as a box of a width. -/
def readInt? (bits : Nat) (text : String) : Option Box :=
  match Number.integer? text.toList with
  | some n =>
    if -2 ^ 63 ≤ n ∧ n < 2 ^ 64 then some (.ofInt bits n) else none
  | none => none

/-- The box that a word means for a parameter of a type. -/
def readArg (types : TypeTable) (type : TypeId) (text : String) : Except Error Box :=
  let read (box : Option Box) : Except Error Box :=
    match box with
    | some box => .ok box
    | none => .error (.argument s!"'{text}' is not a valid {types.text type}")
  match types.entry type with
  | .int bits => read (readInt? bits text)
  | .float => read ((Number.Format.single.readText? text).map fun bits =>
      .single ⟨UInt32.ofNat bits⟩)
  | .double => read ((Number.Format.double.readText? text).map fun bits =>
      .double ⟨UInt64.ofNat bits⟩)
  | _ => .error (.argument
      s!"parameters of type {types.text type} cannot be passed from the command line")

def readArgs (m : Module) (f : FunctionId) (args : List String) : Except Error (List Box) := do
  let params := m.params f
  unless args.length = params.length do
    throw (.argument
      s!"'{m.functionName f}' takes {params.length} argument(s), got {args.length}")
  (params.zip args).mapM fun (param, text) => readArg m.types (m.typeOf param) text

/-- Call a function of a module by name and write its result down. -/
def execute (target : String) (m : Module) (name : String) (args : List String) :
    Except Error Ending := do
  let _ ← Arch.choose none (← Arch.parse target)
  match m.findFunction? name with
  | none => throw (.argument s!"no function named '{name}' in '{m.name}'")
  | some f =>
    let boxes ← readArgs m f args
    match ({ module := m } : Setting).runFunction f boxes with
    | .ok box => return .printed (box.text ++ "\n")
    | .error fault => match fault.report with
      | .ok error => throw error
      | .error reason => return .crashed reason

/-- The module after all passes, which have to leave it well formed. -/
def transformed (m : Module) (passes : List String) : Except Error Module := do
  if passes.isEmpty then return m
  let pipeline ← Pipeline.ofNames passes
  let (outcome, m) := Attempt.outcome pipeline.run m
  let _ ← outcome
  m.verify
  return m

def perform {m : Type → Type} [Monad m] (files : Files m) (target : String) :
    Command → ExceptT Error m Ending
  | list => return .printed listText
  | .show demo => ExceptT.mk (pure do return .printed (← (← Demo.find demo).module).text)
  | run demo function args passes => ExceptT.mk (pure do
      execute target (← transformed (← (← Demo.find demo).module) passes) function args)
  | emit demo output => do
    let m ← ExceptT.mk (pure do (← Demo.find demo).module)
    files.write output m.store
    return .printed s!"Bitcode written to: {output}\n"
  | exec input function args => do
    let m ← ExceptT.mk (pure (Module.load (← files.read input)))
    ExceptT.mk (pure do
      m.verify
      execute target m function args)

end Command

/-- What a request leads to. -/
def Request.perform {m : Type → Type} [Monad m] (files : Files m) :
    Request → ExceptT Error m Ending
  | .version => return .printed (Command.program ++ " 0.1.0\n")
  | .help page => return .printed page.text
  | .command target c => c.perform files target

/-- Perform a request in a directory in memory. -/
def Directory.perform (d : Directory) (r : Request) : Except Error Ending × Directory :=
  let result := (r.perform Directory.files).run.run d
  (result.1, result.2)

end SsaKit
