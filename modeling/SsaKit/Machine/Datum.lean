import SsaKit.TypeTable
import SsaKit.Number.Double
/-!
Run-time values and pointers. A pointer names an allocation, a cell of it, and a path of members
inside that cell.
-/
namespace SsaKit

structure Pointer where
  allocation : Nat
  index : Int := 0
  path : List Nat := []
deriving DecidableEq

namespace Pointer

/-- The address shown to the host: the allocation above, the cell in the low 32 bits. -/
def address (p : Pointer) : UInt64 :=
  UInt64.ofNat (p.allocation + 1) <<< 32 ||| UInt64.ofNat (p.index % 2 ^ 32).toNat

def ofAddress (address : UInt64) : Option Pointer :=
  let number := address.toNat / 2 ^ 32
  if number = 0 then none
  else some { allocation := number - 1, index := Int.bmod address.toNat (2 ^ 32) }

def pathText (path : List Nat) : String := "[" ++ ", ".intercalate (path.map toString) ++ "]"

def text (p : Pointer) : String :=
  s!"Pointer \x7b alloc: {p.allocation}, index: {p.index}, path: " ++ pathText p.path ++ " \x7d"

end Pointer

inductive Datum where
  | int (bits : Nat) (word : UInt64)
  | single (number : Single)
  | double (number : Double)
  | pointer (target : Option Pointer)
  | aggregate (members : List Datum)
  | void
deriving Inhabited

namespace Datum

def ofBool (b : Bool) : Datum := int 1 (if b then 1 else 0)

mutual

/-- The text in error messages. -/
def detail : Datum → String
  | int bits word => s!"Int \x7b bits: {bits}, value: {word} \x7d"
  | single number => "F32(" ++ number.text .listing ++ ")"
  | double number => "F64(" ++ number.text .listing ++ ")"
  | pointer none => "Ptr(None)"
  | pointer (some p) => "Ptr(Some(" ++ p.text ++ "))"
  | aggregate members => "Agg([" ++ ", ".intercalate (details members) ++ "])"
  | void => "Void"

def details : List Datum → List String
  | [] => []
  | d :: rest => d.detail :: details rest

end

mutual

/-- Number of nodes: an aggregate counts itself and all its members. -/
def nodes : Datum → Nat
  | aggregate members => nodesAll members + 1
  | _ => 1

def nodesAll : List Datum → Nat
  | [] => 0
  | d :: rest => d.nodes + nodesAll rest

end

end Datum

namespace TypeTable

variable (t : TypeTable)

/-- The zero of a type; what has no size is void. -/
def zero (id : TypeId) : Datum :=
  build (t.size + 1) id
where
  build : Nat → TypeId → Datum
    | 0, _ => .void
    | fuel + 1, id => match t.entry id with
      | .int bits => .int bits 0
      | .float => .single .zero
      | .double => .double .zero
      | .pointer _ => .pointer none
      | .array element length | .vector element length =>
        .aggregate (List.replicate length (build fuel element))
      | .struct _ (some fields) _ => .aggregate (fields.map (build fuel))
      | .struct _ none _ | .void | .function _ _ _ => .void

/-- The least number that a word cannot hold. -/
@[noinline] def wordSize : Nat := 2 ^ 64

/-- A number of nodes that a word can hold. -/
def fits (n : Nat) : Option Nat := if n < wordSize then some n else none

/-- How many nodes the zero of a type has, unless they are too many for a word. -/
def footprint (id : TypeId) : Option Nat :=
  count (t.size + 1) id
where
  count : Nat → TypeId → Option Nat
    | 0, _ => none
    | fuel + 1, id => match t.entry id with
      | .array element length | .vector element length => do
        let each ← count fuel element
        fits ((← fits (each * length)) + 1)
      | .struct _ (some fields) _ =>
        fields.foldlM (fun total field => do fits (total + (← count fuel field))) 1
      | _ => some 1

end TypeTable
end SsaKit
