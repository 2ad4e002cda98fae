import SsaKit.Stored.Basic
import SsaKit.TypeTable
/-!
The stored form of the type table, which is the list of its entries.
-/
namespace SsaKit

open Stored

namespace Ty

def write : Ty → Json
  | void => .ofString "Void"
  | int bits => holding "Int" (.ofNat bits)
  | float => .ofString "F32"
  | double => .ofString "F64"
  | pointer pointee => holding "Pointer" (Stored.write pointee)
  | array element length =>
    holding "Array" (.record [("element", Stored.write element), ("length", .ofNat length)])
  | vector element length =>
    holding "Vector" (.record [("element", Stored.write element), ("length", .ofNat length)])
  | struct name fields isPacked =>
    holding "Struct" (.record [("name", Stored.write name), ("elements", Stored.write fields),
      ("packed", .bool isPacked)])
  | function result params isVariadic =>
    holding "Function" (.record [("return_type", Stored.write result),
      ("params", Stored.write params), ("var_arg", .bool isVariadic)])

def read (j : Json) : Option Ty := do
  match ← variant? j with
  | ("Void", payload) => unit void payload
  | ("F32", payload) => unit float payload
  | ("F64", payload) => unit double payload
  | ("Int", some payload) => (narrow? payload).map int
  | ("Pointer", some payload) => (Stored.read payload).map pointer
  | ("Array", some payload) =>
    let [element, length] ← fields? ["element", "length"] payload | none
    return array (← field element) (← field length)
  | ("Vector", some payload) =>
    let [element, length] ← fields? ["element", "length"] payload | none
    return vector (← field element) (← length.bind narrow?)
  | ("Struct", some payload) =>
    let [name, fields, isPacked] ← fields? ["name", "elements", "packed"] payload | none
    return struct (← field name) (← field fields) (← field isPacked)
  | ("Function", some payload) =>
    let [result, params, isVariadic] ← fields? ["return_type", "params", "var_arg"] payload
      | none
    return function (← field result) (← field params) (← field isVariadic)
  | _ => none

end Ty

instance : Stored Ty := { write := Ty.write, read := Ty.read }

instance : Stored TypeTable where
  write t := write t.entries
  read j := (read j).map TypeTable.ofEntries

end SsaKit
