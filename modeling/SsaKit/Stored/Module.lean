import SsaKit.Integrity
import SsaKit.Stored.Type
import SsaKit.Stored.Value
/-!
Stored modules: a text that names the format and its version before the module. Loading checks
the two first, then reads the module, then checks its integrity.
-/
namespace SsaKit

open Stored

section Place

variable {kind owner : Entity} {α : Type}

/-- The place of an arena entry in its chain. -/
def Node.writePlace (n : Node kind owner α) : Json :=
  .record [("parent", write n.parent), ("prev", write n.prev), ("next", write n.next)]

/-- An arena entry with a given content, at a stored place. -/
def Node.readPlace (content : α) (j : Json) : Option (Node kind owner α) := do
  let [parent, prev, next] ← fields? ["parent", "prev", "next"] j | none
  return { content, parent := ← field parent, prev := ← field prev, next := ← field next }

end Place

instance : Stored (Node .value .block Value) where
  write n := .record
    [("ty", write n.content.type), ("name", write n.content.name),
      ("kind", write n.content.kind), ("links", n.writePlace)]
  read j := do
    let [type, name, kind, place] ← fields? ["ty", "name", "kind", "links"] j | none
    Node.readPlace { type := ← field type, name := ← field name, kind := ← field kind } (← place)

instance : Stored (Node .block .function Block) where
  write n := .record
    [("name", write n.content.name), ("links", n.writePlace), ("insts", write n.content.chain)]
  read j := do
    let [name, place, chain] ← fields? ["name", "links", "insts"] j | none
    Node.readPlace { name := ← field name, chain := ← field chain } (← place)

instance : Stored Function where
  write f := .record
    [("name", write f.name), ("ty", write f.type), ("params", write f.params),
      ("linkage", write f.linkage), ("blocks", write f.chain), ("removed", write f.isRemoved)]
  read j := do
    let [name, type, params, linkage, chain, isRemoved] ←
      fields? ["name", "ty", "params", "linkage", "blocks", "removed"] j | none
    return {
      name := ← field name
      type := ← field type
      params := ← field params
      linkage := ← field linkage
      chain := ← field chain
      isRemoved := ← field isRemoved }

instance : Stored Module where
  write m := .record
    [("name", write m.name), ("types", write m.types), ("values", write m.values),
      ("blocks", write m.blocks), ("functions", write m.functions),
      ("function_names", write m.functionNames), ("globals", write m.globals),
      ("global_names", write m.globalNames)]
  read j := do
    let [name, types, values, blocks, functions, functionNames, globals, globalNames] ←
      fields? ["name", "types", "values", "blocks", "functions", "function_names", "globals",
        "global_names"] j | none
    return {
      name := ← field name
      types := ← field types
      values := ← field values
      blocks := ← field blocks
      functions := ← field functions
      functionNames := ← field functionNames
      globals := ← field globals
      globalNames := ← field globalNames }

namespace Module

/-- What a stored module begins with. -/
def magic : String := "RCGBC"

def formatVersion : Nat := 1

def document (m : Module) : Json :=
  .record [("magic", .ofString magic), ("version", .ofNat formatVersion), ("module", write m)]

/-- The stored text of a module. -/
def store (m : Module) : List UInt8 := m.document.bytes

/-- The format and the version that a document names. -/
def header? (j : Json) : Option (String × Nat) := do
  let [magic, version] ← fields? ["magic", "version"] j | none
  return (← field magic, ← version.bind narrow?)

def body? (j : Json) : Option Module := do
  let [m] ← fields? ["module"] j | none
  field m

/-- The refusal of a text that is not a stored module at all. -/
def unreadable : Error := .bitcode "unreadable module"

def ofDocument (j : Json) : Except Error Module := do
  let some (foundMagic, foundVersion) := header? j | throw unreadable
  unless foundMagic = magic do
    throw (.bitcode s!"bad magic '{foundMagic}', expected '{magic}'")
  unless foundVersion = formatVersion do
    throw (.bitcode
      s!"unsupported format version {foundVersion} (this build reads version {formatVersion})")
  let some m := body? j | throw unreadable
  match m.checkIntegrity with
  | .ok () => return m
  | .error e => throw (.bitcode s!"corrupt module: {e.text}")

/-- The module that a stored text holds. -/
def load (bytes : List UInt8) : Except Error Module :=
  match Json.ofBytes? bytes with
  | some j => ofDocument j
  | none => throw unreadable

end Module
end SsaKit
