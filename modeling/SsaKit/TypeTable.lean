import SsaKit.Attempt
import SsaKit.Dictionary
import SsaKit.Handle
import SsaKit.SymbolTable
import SsaKit.Text.Quoted
import SsaKit.Word
/-!
Types and the table that owns them. A structural type has one entry, found again whenever it is
asked for; every declaration of a named struct makes a new entry, whose body is set at most once.
Two maps beside the entries are what handles are found with.
-/
namespace SsaKit

inductive Ty where
  | void
  | int (bits : Nat)
  | float
  | double
  | pointer (pointee : TypeId)
  | array (element : TypeId) (length : Nat)
  | vector (element : TypeId) (length : Nat)
  /-- A struct is opaque while it has no fields at all. -/
  | struct (name : Option String) (fields : Option (List TypeId)) (isPacked : Bool)
  | function (result : TypeId) (params : List TypeId) (isVariadic : Bool)
deriving DecidableEq, Inhabited

namespace Ty

/-- The coarse classes that operations ask for. -/
inductive Kind where
  | void | integer | float | pointer | array | vector | struct | function
deriving DecidableEq

def Kind.name : Kind → String
  | .void => "void"
  | .integer => "integer"
  | .float => "float"
  | .pointer => "pointer"
  | .array => "array"
  | .vector => "vector"
  | .struct => "struct"
  | .function => "function"

def kind : Ty → Kind
  | void => .void
  | int _ => .integer
  | float | double => .float
  | pointer _ => .pointer
  | array _ _ => .array
  | vector _ _ => .vector
  | struct _ _ _ => .struct
  | function _ _ _ => .function

def structName : Ty → Option String
  | struct name _ _ => name
  | _ => none

/-- Types whose values can be stored and passed. -/
def isSized : Ty → Bool
  | void | function _ _ _ | struct _ none _ => false
  | _ => true

def isAggregate : Ty → Bool
  | struct _ _ _ | array _ _ => true
  | _ => false

def intWidth : Ty → Option Nat
  | int bits => some bits
  | _ => none

/-- The pointee of a pointer or the element of an array or vector. -/
def element : Ty → Option TypeId
  | pointer t | array t _ | vector t _ => some t
  | _ => none

/-- The element count of an array or vector. -/
def length : Ty → Option Nat
  | array _ n | vector _ n => some n
  | _ => none

/-- The fields of a struct, none yet while it is opaque. -/
def fields : Ty → Option (List TypeId)
  | struct _ fields _ => some (fields.getD [])
  | _ => none

def isPacked : Ty → Bool
  | struct _ _ isPacked => isPacked
  | _ => false

def isOpaque : Ty → Bool
  | struct _ none _ => true
  | _ => false

def result : Ty → Option TypeId
  | function result _ _ => some result
  | _ => none

def params : Ty → Option (List TypeId)
  | function _ params _ => some params
  | _ => none

def isVariadic : Ty → Bool
  | function _ _ isVariadic => isVariadic
  | _ => false

/-- The types that an entry refers to. -/
def children : Ty → List TypeId
  | void | int _ | float | double => []
  | pointer t | array t _ | vector t _ => [t]
  | struct _ fields _ => fields.getD []
  | function result params _ => result :: params

/-- The types held by value in a value of this one. -/
def parts : Ty → List TypeId
  | array t _ | vector t _ => [t]
  | struct _ fields _ => fields.getD []
  | _ => []

end Ty

/-- The widest integer. -/
def maxIntBits : Nat := 2 ^ 23 - 1

structure TypeTable where
  entries : Array Ty := #[]
  /-- The handle of each structural type. -/
  interned : Dictionary Ty TypeId := {}
  /-- The struct declared with each name. -/
  named : SymbolTable TypeId := {}

namespace TypeTable

/-- The entry behind a handle; a handle from elsewhere reads as void. -/
def entry (t : TypeTable) (id : TypeId) : Ty := t.entries.getD id.index .void

def size (t : TypeTable) : Nat := t.entries.size

def contains (t : TypeTable) (id : TypeId) : Bool := id.index < t.size

def kind (t : TypeTable) (id : TypeId) : Ty.Kind := (t.entry id).kind

def isSized (t : TypeTable) (id : TypeId) : Bool := (t.entry id).isSized

def isVoid (t : TypeTable) (id : TypeId) : Bool := t.kind id = .void

def intWidth (t : TypeTable) (id : TypeId) : Option Nat := (t.entry id).intWidth

/-- The handle of a structural type. -/
def find? (t : TypeTable) (ty : Ty) : Option TypeId := t.interned.find? ty

/-- The struct declared with a name. -/
def findStruct? (t : TypeTable) (name : String) : Option TypeId := t.named.find? name

/-- The named structs in the order of their declaration. -/
def namedStructs (t : TypeTable) : List TypeId :=
  ((List.range t.size).map Handle.mk).filter fun id => (t.entry id).structName.isSome

/-- Width of a scalar, or of all lanes of a vector together. -/
def scalarBits (t : TypeTable) (id : TypeId) : Option Nat :=
  scalar (t.size + 1) id
where
  scalar : Nat → TypeId → Option Nat
    | 0, _ => none
    | fuel + 1, id => match t.entry id with
      | .int bits => some bits
      | .float => some 32
      | .double => some 64
      | .pointer _ => some 64
      | .vector element length => (scalar fuel element).map (· * length)
      | _ => none

/-! ### Text -/

/-- Fields between braces, between angle brackets too when packed. -/
def bodyText (fields : List String) (isPacked : Bool) : String :=
  let body := if fields.isEmpty then "\x7b\x7d"
    else "\x7b " ++ ", ".intercalate fields ++ " \x7d"
  if isPacked then "<" ++ body ++ ">" else body

/-- A structural entry refers to earlier entries only, and a named struct is written by its name. -/
def text (t : TypeTable) (id : TypeId) : String :=
  render (id.index + 1) id
where
  render : Nat → TypeId → String
    | 0, _ => "?"
    | fuel + 1, id => match t.entry id with
      | .void => "void"
      | .int bits => s!"i{bits}"
      | .float => "float"
      | .double => "double"
      | .pointer pointee => render fuel pointee ++ "*"
      | .array element length => s!"[{length} x " ++ render fuel element ++ "]"
      | .vector element length => s!"<{length} x " ++ render fuel element ++ ">"
      | .struct (some name) _ _ => "%" ++ name
      | .struct none fields isPacked => bodyText ((fields.getD []).map (render fuel)) isPacked
      | .function result params isVariadic =>
        render fuel result ++ " (" ++
          ", ".intercalate (params.map (render fuel) ++ if isVariadic then ["..."] else []) ++ ")"

/-- The right-hand side of the definition of a struct. -/
def definitionText (t : TypeTable) (id : TypeId) : String :=
  match t.entry id with
  | .struct _ none _ => "opaque"
  | .struct _ (some fields) isPacked => bodyText (fields.map t.text) isPacked
  | _ => t.text id

def handleText (id : TypeId) : String := s!"Type({id.index})"

def handlesText (ids : List TypeId) : String := "[" ++ ", ".intercalate (ids.map handleText) ++ "]"

/-- The text of an entry in error messages, which shows the handles that it holds. -/
def detail : Ty → String
  | .void => "Void"
  | .int bits => s!"Int({bits})"
  | .float => "F32"
  | .double => "F64"
  | .pointer pointee => "Pointer(" ++ handleText pointee ++ ")"
  | .array element length =>
    "Array \x7b element: " ++ handleText element ++ s!", length: {length} \x7d"
  | .vector element length =>
    "Vector \x7b element: " ++ handleText element ++ s!", length: {length} \x7d"
  | .struct name fields isPacked =>
    let nameText := (name.map fun n => "Some(" ++ Text.quoted n ++ ")").getD "None"
    let fieldsText := (fields.map fun ids => "Some(" ++ handlesText ids ++ ")").getD "None"
    s!"Struct \x7b name: {nameText}, elements: {fieldsText}, packed: {isPacked} \x7d"
  | .function result params isVariadic =>
    "Function \x7b return_type: " ++ handleText result ++ ", params: " ++ handlesText params ++
      s!", var_arg: {isVariadic} \x7d"

/-! ### Building -/

/-- Add an entry of a structural type. -/
def withType (t : TypeTable) (ty : Ty) : TypeTable :=
  { t with entries := t.entries.push ty, interned := t.interned.insert ty ⟨t.size⟩ }

/-- Add an entry of a struct that has a name and no body. -/
def withStruct (t : TypeTable) (name : String) : TypeTable :=
  { t with
    entries := t.entries.push (.struct (some name) none false)
    named := t.named.insert name ⟨t.size⟩ }

/-- Put a struct with a body in the place of an entry. -/
def withBody (t : TypeTable) (id : TypeId) (name : String) (fields : List TypeId)
    (isPacked : Bool) : TypeTable :=
  { t with entries := t.entries.setIfInBounds id.index (.struct (some name) (some fields) isPacked) }

/-- The entry of a structural type, made if there is none. -/
def intern (ty : Ty) : Attempt TypeTable TypeId := do
  let t ← get
  match t.find? ty with
  | some id => return id
  | none =>
    set (t.withType ty)
    return ⟨t.size⟩

def void : Attempt TypeTable TypeId := intern .void

def int (bits : Nat) : Attempt TypeTable TypeId := do
  if bits = 0 ∨ maxIntBits < bits then
    throw (.argument s!"invalid integer width {bits}")
  intern (.int bits)

def pointer (pointee : TypeId) : Attempt TypeTable TypeId := intern (.pointer pointee)

def array (element : TypeId) (length : Nat) : Attempt TypeTable TypeId := do
  let t ← get
  unless t.isSized element do
    throw (.argument s!"array element type {t.text element} is not sized")
  intern (.array element length)

def vector (element : TypeId) (length : Nat) : Attempt TypeTable TypeId := do
  let t ← get
  if length = 0 then throw (.argument "vector length must be non-zero")
  match t.kind element with
  | .integer | .float | .pointer => intern (.vector element length)
  | _ => throw (.argument s!"invalid vector element type {t.text element}")

/-- Refuse fields that have no size. -/
def checkFields (fields : List TypeId) : Attempt TypeTable Unit := do
  let t ← get
  match fields.find? (!t.isSized ·) with
  | some bad => throw (.argument s!"invalid struct element type {t.text bad}")
  | none => return ()

def struct (fields : List TypeId) (isPacked : Bool) : Attempt TypeTable TypeId := do
  checkFields fields
  intern (.struct none (some fields) isPacked)

def function (result : TypeId) (params : List TypeId) (isVariadic : Bool) :
    Attempt TypeTable TypeId := do
  let t ← get
  if t.kind result = .function then
    throw (.argument "functions cannot return function types")
  match params.find? (!t.isSized ·) with
  | some bad => throw (.argument s!"invalid parameter type {t.text bad}")
  | none => intern (.function result params isVariadic)

/-- The handle of any structural type. -/
def ofTy : Ty → Attempt TypeTable TypeId
  | .int bits => int bits
  | .array element length => array element length
  | .vector element length => vector element length
  | .struct none fields isPacked => struct (fields.getD []) isPacked
  | .struct (some name) _ _ =>
    throw (.argument s!"named struct '{name}' must be declared, not interned")
  | .function result params isVariadic => function result params isVariadic
  | ty => intern ty

/-- A new struct without a body. -/
def declareStruct (name : String) : Attempt TypeTable TypeId := do
  let t ← get
  if t.named.contains name then
    throw (.typeConflict name "struct type already declared")
  set (t.withStruct name)
  return ⟨t.size⟩

/-- Give a named struct its fields, which happens once. -/
def setBody (id : TypeId) (fields : List TypeId) (isPacked : Bool) : Attempt TypeTable Unit := do
  let t ← get
  match t.entry id with
  | .struct (some name) body _ =>
    if fields.contains id then
      throw (.argument "struct cannot contain itself by value")
    checkFields fields
    if body.isSome then
      throw (.invalidState s!"body of struct '{name}' is already set")
    set (t.withBody id name fields isPacked)
  | _ => throw (.type s!"{t.text id} is not a named struct type")

/-- Declare a struct and set its body; the declaration stays when the body is refused. -/
def namedStruct (name : String) (fields : List TypeId) (isPacked : Bool) :
    Attempt TypeTable TypeId := do
  let id ← declareStruct name
  setBody id fields isPacked
  return id

/-! ### A table from outside -/

/-- Read an entry behind the others. The last struct of a name is found by it, and the first of
several equal entries. -/
def readEntry (t : TypeTable) (ty : Ty) : TypeTable :=
  match ty.structName with
  | some name =>
    { t with entries := t.entries.push ty, named := t.named.insert name ⟨t.size⟩ }
  | none =>
    { t with entries := t.entries.push ty, interned := t.interned.insertNew ty ⟨t.size⟩ }

/-- The table of some entries, with its maps made anew. -/
def ofEntries (entries : Array Ty) : TypeTable := entries.foldl readEntry {}

/-- Refuse a table whose entries refer to missing types. Structural entries refer to earlier ones
only, so every cycle goes through a named struct. -/
def checkHandles (t : TypeTable) : Except Error Unit :=
  (List.range t.size).forM fun index => do
    let ty := t.entry ⟨index⟩
    if let .int bits := ty then
      if bits = 0 ∨ maxIntBits < bits then
        throw (.index index s!"invalid integer width {bits}")
    let limit := if ty.structName.isSome then t.size else index
    match ty.children.find? (limit ≤ ·.index) with
    | some bad =>
      throw (.index bad.index s!"type {index} refers to a type outside the registry")
    | none => return ()

end TypeTable
end SsaKit
