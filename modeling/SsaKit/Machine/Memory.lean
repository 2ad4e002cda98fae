import SsaKit.Machine.Host
/-!
Typed memory: a list of allocations, each a row of cells of one type. A limit bounds the nodes that
all live cells hold together, counted as they are allocated.
-/
namespace SsaKit

structure Allocation where
  cells : Array Datum
  footprint : Nat
  isStack : Bool
  isLive : Bool := true
deriving Inhabited

/-- Replace one cell; a number beyond the row changes nothing. -/
def Allocation.set (row : Allocation) (index : Nat) (d : Datum) : Allocation :=
  match row with
  | ⟨cells, footprint, isStack, isLive⟩ =>
    ⟨cells.setIfInBounds index d, footprint, isStack, isLive⟩

structure Memory where
  allocations : Array Allocation := #[]
  used : Nat := 0
  limit : Nat

namespace Datum

/-- The part of a datum at the end of a path of member numbers. -/
def walk : Datum → List Nat → Option Datum
  | d, [] => some d
  | aggregate members, step :: path => members[step]?.bind (walk · path)
  | _, _ :: _ => none

/-- Replace the part at the end of a path. -/
def replace (new : Datum) : Datum → List Nat → Option Datum
  | _, [] => some new
  | aggregate members, step :: path => do
    let member ← members[step]?
    let changed ← replace new member path
    return aggregate (members.set step changed)
  | _, _ :: _ => none

end Datum

/-- Why the host has no memory for the zero of a type. Its arrays are made from the inside out. -/
def TypeTable.zeroRefusal (t : TypeTable) (host : Host) (id : TypeId) : Option Refusal :=
  first (t.size + 1) id
where
  first : Nat → TypeId → Option Refusal
    | 0, _ => none
    | fuel + 1, id => match t.entry id with
      | .array element length | .vector element length =>
        (first fuel element).or (host.refusal length)
      | .struct _ (some fields) _ => fields.findSome? (first fuel)
      | _ => none

namespace Memory

variable (mem : Memory)

/-- The nodes that `count` cells of a type take, if the limit leaves room for them. -/
def room (t : TypeTable) (type : TypeId) (count : Nat) : Except Fault Nat :=
  let total := (t.footprint type).bind fun each => TypeTable.fits (each * count)
  match total.filter (· ≤ mem.limit - mem.used) with
  | some total => .ok total
  | none => .error (.memoryLimit count (t.text type) mem.limit)

/-- The zero of a type, which the program does not survive if the host has no memory for it. -/
def build (host : Host) (t : TypeTable) (type : TypeId) : Except Fault Datum :=
  match t.zeroRefusal host type with
  | some refusal => .error (.crash (.memory refusal))
  | none => .ok (t.zero type)

/-- The zero of a type, if there is room for it. -/
def zero (host : Host) (t : TypeTable) (type : TypeId) : Except Fault Datum := do
  let _ ← mem.room t type 1
  build host t type

/-- A row of zeros of a type, if there is room for it. The zero is made for an empty row too. -/
def newRow (host : Host) (t : TypeTable) (type : TypeId) (count : Nat) (isStack : Bool) :
    Except Fault Allocation := do
  let footprint ← mem.room t type count
  match host.refusal count with
  | some refusal => throw (.hostMemory count (t.text type) refusal)
  | none => return { cells := Array.replicate count (← build host t type), footprint, isStack }

/-- Add an allocation and point to its first cell. -/
def push (row : Allocation) : Pointer × Memory :=
  ({ allocation := mem.allocations.size },
    { mem with allocations := mem.allocations.push row, used := mem.used + row.footprint })

def allocate (host : Host) (t : TypeTable) (type : TypeId) (count : Nat) (isStack : Bool) :
    Except Fault (Pointer × Memory) :=
  (mem.newRow host t type count isStack).map mem.push

/-- The number of the next allocation. -/
def mark : Nat := mem.allocations.size

/-- Free one allocation, if it is a live one of the stack. -/
def free (mem : Memory) (number : Nat) : Memory :=
  match mem.allocations[number]? with
  | some { footprint, isStack := true, isLive := true, .. } =>
    { mem with
      allocations := mem.allocations.setIfInBounds number
        { cells := #[], footprint, isStack := true, isLive := false }
      used := mem.used - footprint }
  | _ => mem

/-- Free what the stack was given since a mark. -/
def releaseFrom (number : Nat) : Memory :=
  (mem.allocations.size - number).fold (fun i _ mem => free mem (number + i)) mem

def row (p : Pointer) : Except Fault Allocation :=
  match mem.allocations[p.allocation]? with
  | none => .error (.dangling p.allocation)
  | some row => if row.isLive then .ok row else .error (.released p.allocation)

/-- The cell that a pointer goes into. -/
def cell (p : Pointer) : Except Fault Datum := do
  let row ← mem.row p
  match if p.index < 0 then none else row.cells[p.index.toNat]? with
  | some d => .ok d
  | none => .error (.outOfBounds p)

def load : Option Pointer → Except Fault Datum
  | none => .error .loadNull
  | some p => do
    match (← mem.cell p).walk p.path with
    | some d => .ok d
    | none => .error (.outOfBounds p)

/-- The cell that a store goes into, as it will be afterwards. -/
def changedCell (target : Option Pointer) (d : Datum) : Except Fault (Pointer × Datum) :=
  match target with
  | none => .error .storeNull
  | some p => do
    match Datum.replace d (← mem.cell p) p.path with
    | some changed => .ok (p, changed)
    | none => .error (.outOfBounds p)

def setCell (p : Pointer) (d : Datum) : Memory :=
  { mem with
    allocations := mem.allocations.modify p.allocation fun row => row.set p.index.toNat d }

def store (target : Option Pointer) (d : Datum) : Except Fault Memory :=
  (mem.changedCell target d).map fun (p, changed) => mem.setCell p changed

end Memory
end SsaKit
