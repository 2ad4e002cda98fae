import SsaKit.Chain
import SsaKit.Json.Basic
import SsaKit.Mnemonic
import SsaKit.SymbolTable
/-!
Stored forms: how the parts of a module are written as JSON and read back.

A record is an object of its fields; it may also be read from an array of all of them in order. A
member of an object that is no field is ignored, and a field given twice is refused. A choice
between variants is the tag of the variant, or an object from the tag to what the variant holds.
-/
namespace SsaKit

class Stored (α : Type) where
  write : α → Json
  read : Json → Option α
  /-- What a field that is not there stands for. -/
  missing : Option α := none

namespace Stored

variable {α β : Type}

/-! ### Records -/

/-- The members with a given key; none of them is no failure, but two are. -/
def single? (members : List (String × Json)) (name : String) : Option (Option Json) :=
  match members.filter (·.1 == name) with
  | [] => some none
  | [m] => some (some m.2)
  | _ => none

/-- The named fields of a record. -/
def fields? (names : List String) : Json → Option (List (Option Json))
  | .array items => if items.length = names.length then some (items.map some) else none
  | j => j.members?.bind fun members => names.mapM (single? members)

def field [Stored α] : Option Json → Option α
  | some j => read j
  | none => missing

/-! ### Variants -/

/-- The tag of a variant and what stands beside it. -/
def variant? : Json → Option (String × Option Json)
  | .text (some tag) => some (tag, none)
  | .object [(some tag, payload)] => some (tag, some payload)
  | _ => none

/-- A variant that holds nothing. -/
def unit (a : α) : Option Json → Option α
  | none | some .null => some a
  | some _ => none

def holding (tag : String) (payload : Json) : Json := .record [(tag, payload)]

/-- The form of a closed set of words, each under a tag of its own. -/
@[reducible] def tagged [Mnemonic α] (tag : α → String) : Stored α where
  write a := .ofString (tag a)
  read j := do
    let (t, payload) ← variant? j
    unit (← (Mnemonic.all : List α).find? fun a => tag a == t) payload

/-! ### Basic forms -/

/-- A natural number below `2 ^ 32`. -/
def narrow? (j : Json) : Option Nat := j.nat?.filter (· < 2 ^ 32)

/-- A natural number below `2 ^ 64`. -/
instance : Stored Nat where
  write := .ofNat
  read := Json.nat?

instance : Stored UInt64 where
  write word := .ofNat word.toNat
  read j := j.nat?.map UInt64.ofNat

instance : Stored UInt8 where
  write b := .ofNat b.toNat
  read j := (j.nat?.filter (· < 2 ^ 8)).map UInt8.ofNat

instance : Stored Bool where
  write := .bool
  read := Json.bool?

instance : Stored String where
  write := .ofString
  read := Json.string?

/-- A number that is not finite cannot be written down and becomes null. -/
instance : Stored Double where
  write x := if x.isFinite then .number (x.text Number.Layout.stored) else .null
  read := Json.double?

/-- A handle is its index. -/
instance {entity : Entity} : Stored (Handle entity) where
  write k := .ofNat k.index
  read j := (narrow? j).map Handle.mk

instance [Stored α] : Stored (Option α) where
  write
    | some a => write a
    | none => .null
  read
    | .null => some none
    | j => (read j).map some
  missing := some none

instance [Stored α] : Stored (List α) where
  write as := .array (as.map write)
  read j := j.items?.bind fun items => items.mapM read

instance [Stored α] : Stored (Array α) where
  write as := .array (as.toList.map write)
  read j := j.items?.bind fun items => (items.mapM read).map List.toArray

instance [Stored α] [Stored β] : Stored (α × β) where
  write p := .array [write p.1, write p.2]
  read
    | .array [a, b] => do return (← read a, ← read b)
    | _ => none

/-- The entries are written in the order of their names. -/
instance [Stored α] : Stored (SymbolTable α) where
  write t := .record
    ((t.entries.mergeSort fun a b => decide (a.1 ≤ b.1)).map fun e => (e.1, write e.2))
  read j := j.members?.bind fun members => do
    let entries ← members.mapM fun m => (read m.2).map fun a => (m.1, a)
    return entries.foldl (fun t e => t.insert e.1 e.2) {}

instance {kind : Entity} : Stored (Chain kind) where
  write c := .record
    [("first", write c.first), ("last", write c.last), ("len", write c.length)]
  read j := do
    let [first, last, length] ← fields? ["first", "last", "len"] j | none
    return { first := ← field first, last := ← field last, length := ← field length }

end Stored
end SsaKit
