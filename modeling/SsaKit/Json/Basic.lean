import SsaKit.Json.Token
/-!
JSON values: building one from tokens and writing one down.
-/
namespace SsaKit

/-- A value keeps its numbers as they are written and all members of an object in their order.
Text that was read may be none, see `Json.Token`. -/
inductive Json where
  | null
  | bool (b : Bool)
  | number (literal : String)
  | text (content : Option String)
  | array (items : List Json)
  | object (members : List (Option String × Json))

namespace Json

/-- An array or object that is not closed yet, what it holds latest first. -/
inductive Frame where
  | array (items : List Json)
  /-- An object whose next value belongs to `key`. -/
  | member (members : List (Option String × Json)) (key : Option String)

/-- What may come next. -/
inductive State where
  | value (open_ : List Frame)
  /-- Right after the bracket that opens an array. -/
  | item (open_ : List Frame)
  /-- Right after the brace that opens an object. -/
  | member (open_ : List Frame)
  | key (members : List (Option String × Json)) (open_ : List Frame)
  | colon (members : List (Option String × Json)) (key : Option String) (open_ : List Frame)
  | done (j : Json) (open_ : List Frame)

/-- A token where a value is expected. -/
def begin (open_ : List Frame) : Token → Option State
  | .null => some (.done .null open_)
  | .bool b => some (.done (.bool b) open_)
  | .number literal => some (.done (.number literal) open_)
  | .text content => some (.done (.text content) open_)
  | .openArray => some (.item open_)
  | .openObject => some (.member open_)
  | _ => none

def step : State → Token → Option State
  | .value open_, token => begin open_ token
  | .item open_, .closeArray => some (.done (.array []) open_)
  | .item open_, token => begin (.array [] :: open_) token
  | .member open_, .closeObject => some (.done (.object []) open_)
  | .member open_, .text key => some (.colon [] key open_)
  | .key members open_, .text key => some (.colon members key open_)
  | .colon members key open_, .colon => some (.value (.member members key :: open_))
  | .done j (.array items :: open_), .comma => some (.value (.array (j :: items) :: open_))
  | .done j (.array items :: open_), .closeArray =>
    some (.done (.array (j :: items).reverse) open_)
  | .done j (.member members key :: open_), .comma => some (.key ((key, j) :: members) open_)
  | .done j (.member members key :: open_), .closeObject =>
    some (.done (.object ((key, j) :: members).reverse) open_)
  | _, _ => none

/-- The value that the tokens spell out, if they spell exactly one. -/
def ofTokens? (tokens : List Token) : Option Json :=
  match tokens.foldlM step (.value []) with
  | some (.done j []) => some j
  | _ => none

/-- The value that a text holds. -/
def ofBytes? (bytes : List UInt8) : Option Json := (Token.ofBytes? bytes).bind ofTokens?

/-! ### Writing -/

mutual

/-- The tokens of a value, in front of others. -/
def tokens : Json → List Token → List Token
  | null, r => .null :: r
  | bool b, r => .bool b :: r
  | number literal, r => .number literal :: r
  | text content, r => .text content :: r
  | array items, r => .openArray :: itemTokens items (.closeArray :: r)
  | object members, r => .openObject :: memberTokens members (.closeObject :: r)

def itemTokens : List Json → List Token → List Token
  | [], r => r
  | [j], r => tokens j r
  | j :: js, r => tokens j (.comma :: itemTokens js r)

def memberTokens : List (Option String × Json) → List Token → List Token
  | [], r => r
  | [(key, j)], r => .text key :: .colon :: tokens j r
  | (key, j) :: ms, r => .text key :: .colon :: tokens j (.comma :: memberTokens ms r)

end

/-- The text of a value, without blanks. -/
def bytes (j : Json) : List UInt8 := (tokens j []).flatMap Token.bytes

/-! ### Making and taking apart -/

def ofNat (n : Nat) : Json := number (toString n)

def ofString (s : String) : Json := text (some s)

/-- An object with the given members in their order. -/
def record (members : List (String × Json)) : Json := object (members.map fun m => (some m.1, m.2))

/-- A natural number below `2 ^ 64`. -/
def nat? : Json → Option Nat
  | number literal => (Numeral.ofText? literal).bind Numeral.nat?
  | _ => none

def double? : Json → Option Double
  | number literal => (Numeral.ofText? literal).bind Numeral.double?
  | _ => none

def bool? : Json → Option Bool
  | bool b => some b
  | _ => none

def string? : Json → Option String
  | text content => content
  | _ => none

def items? : Json → Option (List Json)
  | array items => some items
  | _ => none

/-- The members of an object all of whose keys are texts. -/
def members? : Json → Option (List (String × Json))
  | object members => members.mapM fun m => m.1.map fun key => (key, m.2)
  | _ => none

end Json
end SsaKit
