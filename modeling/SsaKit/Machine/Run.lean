import Std.Data.TreeMap
import SsaKit.Machine.Host
import SsaKit.Machine.Operation
import SsaKit.Module.Basic
/-!
Running a function. A call has a frame of results; on entry to a block all phis are read on the edge
just taken before any of them is set. Steps, nested calls and live memory are limited, and the
limits bound every run.
-/
namespace SsaKit

/-- Bounds of one run. -/
structure Limits where
  callDepth : Nat := 512
  steps : Nat := 10000000
  /-- Nodes that live memory may hold at once. -/
  cells : Nat := 2 ^ 24
deriving DecidableEq

/-- What a run reads and never changes. -/
structure Setting where
  module : Module
  host : Host := .standard
  limits : Limits := {}

structure Machine where
  memory : Memory
  /-- The storage of each global that was used so far. -/
  globals : Std.TreeMap ValueId Pointer := {}
  steps : Nat := 0
  depth : Nat := 0

abbrev Run := ExceptT Fault (StateM Machine)

/-- Results of a call, by instruction and parameter. -/
abbrev Frame := Std.TreeMap ValueId Datum

/-- Where control goes after a block. -/
inductive Flow where
  | jump (dest : BlockId) (frame : Frame)
  | done (result : Datum)

namespace Run

variable {α : Type}

@[inline] def ofExcept (r : Except Fault α) : Run α := ExceptT.mk (pure r)

/-- Count one step. -/
@[inline] def tick (limit : Nat) : Run Unit := do
  modify fun s => { s with steps := s.steps + 1 }
  if limit < (← get).steps then throw (.stepLimit limit)

def allocate (host : Host) (t : TypeTable) (type : TypeId) (count : Nat) (isStack : Bool) :
    Run Pointer := do
  let row ← ofExcept ((← get).memory.newRow host t type count isStack)
  modifyGet fun s =>
    let r := s.memory.push row
    (r.1, { s with memory := r.2 })

def load (target : Option Pointer) : Run Datum := do
  ofExcept ((← get).memory.load target)

def store (target : Option Pointer) (d : Datum) : Run Unit := do
  let (p, changed) ← ofExcept ((← get).memory.changedCell target d)
  modify fun s => { s with memory := s.memory.setCell p changed }

/-- Run a step one call deeper and free the stack that it leaves behind, on failure too. -/
def nested (step : Run α) : Run α :=
  ExceptT.mk fun s =>
    let mark := s.memory.mark
    let r := step.run.run { s with depth := s.depth + 1 }
    (r.1, { r.2 with memory := r.2.memory.releaseFrom mark, depth := r.2.depth - 1 })

end Run

namespace Setting

variable (e : Setting)

/-! ### Constants -/

/-- Levels that constants and initial contents may nest: every global is entered once, and between
two of them no aggregate is met twice. -/
def constantDepth : Nat := (e.module.values.size + 1) * (e.module.values.size + 1)

def wordDatum (type : TypeId) (word : UInt64) : Datum :=
  .int ((e.module.types.intWidth type).getD 64) word

def floatDatum (type : TypeId) (number : Double) : Datum :=
  match e.module.types.entry type with
  | .float => .single (.ofDouble number)
  | _ => .double number

def byteDatum (byte : UInt8) : Datum := .int 8 byte.toUInt64

/-- The storage of a global. On first use it is made and filled; the place is known before its
content, which may point back to it. -/
def storage (constant : ValueId → Run Datum) (v : ValueId) (g : Global) : Run Pointer := do
  match (← get).globals[v]? with
  | some p => return p
  | none =>
    unless e.module.isListed v do throw (.removedGlobal v.index)
    let p ← Run.allocate e.host e.module.types g.valueType 1 false
    modify fun s => { s with globals := s.globals.insert v p }
    if let some init := g.initializer then
      Run.store (some p) (← constant init)
    return p

def constant : Nat → ValueId → Run Datum
  | 0, v => throw (.notConstant v.index)
  | fuel + 1, v => do
    let value := e.module.value v
    match value.kind with
    | .int word => return e.wordDatum value.type word
    | .float number => return e.floatDatum value.type number
    | .null => return .pointer none
    | .undef => Run.ofExcept ((← get).memory.zero e.host e.module.types value.type)
    | .aggregate elements => return .aggregate (← elements.mapM (constant fuel))
    | .bytes data => return .aggregate (data.map byteDatum)
    | .global g => return .pointer (some (← e.storage (constant fuel) v g))
    | .argument _ _ | .instruction _ => throw (.notConstant v.index)

/-- The value read in a frame. -/
def operand (frame : Frame) (v : ValueId) : Run Datum :=
  match e.module.kindOf v with
  | .argument _ _ | .instruction _ => match frame[v]? with
    | some d => return d
    | none => throw (.undefined v.index)
  | _ => e.constant e.constantDepth v

def wordOperand (frame : Frame) (v : ValueId) : Run UInt64 := do
  Run.ofExcept (← e.operand frame v).asWord

def signedOperand (frame : Frame) (v : ValueId) : Run Int := do
  Run.ofExcept (← e.operand frame v).asSigned

def members (frame : Frame) (v : ValueId) : Run (List Datum) := do
  Run.ofExcept (← e.operand frame v).asMembers

/-! ### Pointers -/

def elementIndex (index : Int) : Except Fault Nat :=
  if index < 0 then .error (.negativeIndex index) else .ok index.toNat

/-- Step from one place to a later one of the same kind: the last member of the path, or the cell
when there is no path. -/
def advance (host : Host) (p : Pointer) (offset : Int) : Except Fault Pointer :=
  match p.path.getLast? with
  | some last => do
    let index ← elementIndex (← host.sum last offset)
    return { p with path := p.path.dropLast ++ [index] }
  | none => do return { p with index := ← host.sum p.index offset }

/-- Step into a member. -/
def enter (p : Pointer) (index : Int) : Except Fault Pointer := do
  return { p with path := p.path ++ [← elementIndex index] }

def derive (frame : Frame) (base : ValueId) (indices : List ValueId) : Run Datum := do
  match ← Run.ofExcept (← e.operand frame base).asPointer with
  | none => throw .pointerNull
  | some p =>
    match indices with
    | [] => return .pointer (some p)
    | first :: rest =>
      let p ← Run.ofExcept (advance e.host p (← e.signedOperand frame first))
      let p ← rest.foldlM (fun p index => do
        Run.ofExcept (enter p (← e.signedOperand frame index))) p
      return .pointer (some p)

/-! ### Instructions -/

def slotCount (frame : Frame) : Option ValueId → Run Nat
  | none => return 1
  | some v => do
    let count ← e.signedOperand frame v
    if count < 0 then throw .negativeCount
    return count.toNat

/-- The result of an instruction that does not end a block. Calls are left to `callee`. -/
def evaluate (callee : FunctionId → List Datum → Run Datum) (frame : Frame) (type : TypeId)
    (i : Instruction) : Run Datum := do
  match i with
  | .binary op lhs rhs =>
    Run.ofExcept (Datum.binary e.host op (← e.operand frame lhs) (← e.operand frame rhs))
  | .icmp pred lhs rhs =>
    Run.ofExcept (Datum.icmp pred (← e.operand frame lhs) (← e.operand frame rhs))
  | .fcmp pred lhs rhs =>
    Run.ofExcept (Datum.fcmp pred (← e.operand frame lhs) (← e.operand frame rhs))
  | .alloca allocated count =>
    let count ← e.slotCount frame count
    return .pointer (some (← Run.allocate e.host e.module.types allocated count true))
  | .load ptr => Run.load (← Run.ofExcept (← e.operand frame ptr).asPointer)
  | .store value ptr =>
    let d ← e.operand frame value
    Run.store (← Run.ofExcept (← e.operand frame ptr).asPointer) d
    return .void
  | .elementPtr base indices => e.derive frame base indices
  | .call f args => callee f (← args.mapM (e.operand frame))
  | .cast op value => Run.ofExcept (Datum.cast e.module.types op type (← e.operand frame value))
  | .extractValue aggregate index =>
    Run.ofExcept (Datum.pick (← e.members frame aggregate) index)
  | .insertValue aggregate element index =>
    let members ← e.members frame aggregate
    Run.ofExcept (Datum.put members index (← e.operand frame element))
  | .extractElement vector index =>
    let members ← e.members frame vector
    Run.ofExcept (Datum.pick members (← e.wordOperand frame index).toNat)
  | .insertElement vector element index =>
    let members ← e.members frame vector
    let d ← e.operand frame element
    Run.ofExcept (Datum.put members (← e.wordOperand frame index).toNat d)
  | .shuffle lhs rhs mask =>
    let left ← e.members frame lhs
    let right ← e.members frame rhs
    Run.ofExcept (Datum.shuffle left right (← e.members frame mask))
  | .select cond thenValue elseValue =>
    let c ← e.operand frame cond
    let a ← e.operand frame thenValue
    Run.ofExcept (Datum.select c a (← e.operand frame elseValue))
  | i => throw (.notProducing i.opcode)

/-- The block of the first key that has the value, else the default. -/
def switchTarget (frame : Frame) (word : UInt64) (default : BlockId) :
    List (ValueId × BlockId) → Run BlockId
  | [] => return default
  | (key, dest) :: cases => do
    if (← e.wordOperand frame key) = word then return dest
    switchTarget frame word default cases

/-- The instructions of a block behind its phis. -/
def runInstructions (callee : FunctionId → List Datum → Run Datum) (f : FunctionId) (b : BlockId) :
    List ValueId → Frame → Run Flow
  | [], _ => throw (.noTerminator (e.module.label b) (e.module.functionName f))
  | v :: rest, frame => do
    Run.tick e.limits.steps
    match e.module.instruction? v with
    | none => throw .notInstruction
    | some (.branch dest) => return .jump dest frame
    | some (.condBranch cond thenDest elseDest) =>
      let taken ← Run.ofExcept (← e.operand frame cond).asBool
      return .jump (if taken then thenDest else elseDest) frame
    | some (.switch value default cases) =>
      let word ← e.wordOperand frame value
      return .jump (← e.switchTarget frame word default cases) frame
    | some (.ret none) => return .done .void
    | some (.ret (some value)) => return .done (← e.operand frame value)
    | some .unreachable => throw (.unreachable (e.module.functionName f))
    | some (.phi _) => throw (.latePhi (e.module.label b))
    | some i =>
      let d ← e.evaluate callee frame (e.module.typeOf v) i
      runInstructions callee f b rest (frame.insert v d)

/-- What the phis at the head of a block take on the edge from `previous`, and the instructions
behind them. All are read in the frame before the edge. -/
def readPhis (f : FunctionId) (b : BlockId) (previous : Option BlockId) (frame : Frame) :
    List ValueId → Run (List (ValueId × Datum) × List ValueId)
  | [] => return ([], [])
  | v :: rest => match e.module.instruction? v with
    | some (.phi incoming) => do
      match previous with
      | none => throw (.phiInEntry (e.module.functionName f))
      | some source =>
        match incoming.lookup source with
        | none => throw (.noIncoming (e.module.label b) (e.module.label source))
        | some value =>
          let d ← e.operand frame value
          let (merged, others) ← readPhis f b previous frame rest
          return ((v, d) :: merged, others)
    | _ => return ([], v :: rest)

/-- Blocks from one to the next. Every jump spends a step, so no run has more jumps than steps. -/
def runBlocks (callee : FunctionId → List Datum → Run Datum) (f : FunctionId) :
    Nat → Option BlockId → BlockId → Frame → Run Datum
  | fuel, previous, b, frame => do
    let (merged, rest) ← e.readPhis f b previous frame (e.module.instructions b)
    match ← e.runInstructions callee f b rest (frame.insertMany merged) with
    | .done result => return result
    | .jump dest frame => match fuel with
      | 0 => throw (.stepLimit e.limits.steps)
      | fuel + 1 => runBlocks callee f fuel (some b) dest frame

/-- Run the body of a function. -/
def execute (callee : FunctionId → List Datum → Run Datum) (f : FunctionId) (args : List Datum) :
    Run Datum :=
  match e.module.entry? f with
  | none => throw (.noBody (e.module.functionName f))
  | some entry =>
    e.runBlocks callee f e.limits.steps none entry
      (Std.TreeMap.ofList ((e.module.params f).zip args))

/-! ### Calls -/

/-- The run-time value of a box where a type is expected. -/
def unboxAs (t : TypeTable) (type : TypeId) (box : Box) : Option Datum :=
  match t.entry type, box with
  | .int bits, .int _ word => some (.int bits (Word.mask bits word))
  | .float, .single number => some (.single number)
  | .float, .double number => some (.single (.ofDouble number))
  | .double, .double number => some (.double number)
  | .double, .single number => some (.double number.toDouble)
  | .pointer _, .pointer address => some (.pointer (Pointer.ofAddress address))
  | .void, _ => some .void
  | _, _ => none

/-- The run-time value of a box where no type is declared. -/
def unbox : Box → Datum
  | .int bits word => .int bits word
  | .single number => .single number
  | .double number => .double number
  | .pointer address => .pointer (Pointer.ofAddress address)
  | .void => .void

def box : Datum → Except Fault Box
  | .int bits word => .ok (.int bits word)
  | .single number => .ok (.single number)
  | .double number => .ok (.double number)
  | .pointer target => .ok (.pointer (Datum.addressOf target))
  | .void => .ok .void
  | .aggregate _ => .error .aggregateAtBorder

def callHost (f : FunctionId) (args : List Datum) : Except Fault Datum := do
  let name := e.module.functionName f
  let result ← e.host.call name (← args.mapM box)
  let type := e.module.resultType f
  match unboxAs e.module.types type result with
  | some d => return d
  | none => throw (.hostResult name result (e.module.types.text type))

/-- A call with a number of levels left below it. -/
def call : Nat → FunctionId → List Datum → Run Datum
  | fuel, f, args => do
    if e.module.isRemoved f then throw .removedCallee
    if e.module.isDeclaration f then Run.ofExcept (e.callHost f args)
    else if e.limits.callDepth ≤ (← get).depth then
      throw (.callDepth e.limits.callDepth (e.module.functionName f))
    else match fuel with
      | 0 => throw (.callDepth e.limits.callDepth (e.module.functionName f))
      | fuel + 1 => Run.nested (e.execute (call fuel) f args)

/-! ### From outside -/

def start : Machine := { memory := { limit := e.limits.cells } }

/-- The arguments of a run, checked against the parameters; surplus ones need no type. -/
def arguments (f : FunctionId) (params : List TypeId) (args : List Box) :
    Except Fault (List Datum) :=
  args.zipIdx.mapM fun (arg, index) =>
    match params[index]? with
    | none => .ok (unbox arg)
    | some type => match unboxAs e.module.types type arg with
      | some d => .ok d
      | none => .error
          (.badArgument index (e.module.functionName f) arg (e.module.types.text type))

/-- Run a function on boxes, in a new machine. -/
def runFunction (f : FunctionId) (args : List Box) : Except Fault Box := do
  if e.module.isRemoved f then throw .removedEntry
  let type := e.module.types.entry (e.module.function f).type
  let params := type.params.getD []
  unless args.length = params.length ∨ (type.isVariadic ∧ params.length < args.length) do
    throw (.arity (e.module.functionName f) params.length args.length)
  let data ← e.arguments f params args
  box (← ((e.call e.limits.callDepth f data).run.run e.start).1)

def runNamed (name : String) (args : List Box) : Except Fault Box :=
  match e.module.functionNames.find? name with
  | some f => e.runFunction f args
  | none => .error (.noFunction name)

end Setting
end SsaKit
