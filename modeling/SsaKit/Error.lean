/-!
Why a request is refused. An error keeps the text it is reported with and belongs to one of
nine families.
-/
namespace SsaKit

inductive Error where
  | argument (message : String)
  | type (message : String)
  | typeMismatch (expected found : String)
  | typeConflict (name message : String)
  | invalidState (message : String)
  | index (index : Int) (message : String)
  | verification (function message : String)
  | execution (message : String)
  | pass (pass message : String)
  | bitcode (message : String)
  | io (message : String)
deriving DecidableEq

namespace Error

inductive Family where
  | argument | type | invalidState | index | verification | execution | pass | bitcode | io
deriving DecidableEq

def Family.name : Family → String
  | .argument => "argument"
  | .type => "type"
  | .invalidState => "invalid state"
  | .index => "index"
  | .verification => "verification"
  | .execution => "execution"
  | .pass => "pass"
  | .bitcode => "bitcode"
  | .io => "io"

/-- The three kinds of type error form one family; every other error is its own. -/
def family : Error → Family
  | .argument _ => .argument
  | .type _ | .typeMismatch _ _ | .typeConflict _ _ => .type
  | .invalidState _ => .invalidState
  | .index _ _ => .index
  | .verification _ _ => .verification
  | .execution _ => .execution
  | .pass _ _ => .pass
  | .bitcode _ => .bitcode
  | .io _ => .io

/-- The reported text. -/
def text : Error → String
  | .argument message => s!"Argument error: {message}"
  | .type message => s!"Type error: {message}"
  | .typeMismatch expected found => s!"Type mismatch: expected {expected}, found {found}"
  | .typeConflict name message => s!"Type conflict for '{name}': {message}"
  | .invalidState message => s!"Invalid state: {message}"
  | .index position message => s!"Index {position} out of range: {message}"
  | .verification function message => s!"Verification failed in '{function}': {message}"
  | .execution message => s!"Execution error: {message}"
  | .pass name message => s!"Pass '{name}' failed: {message}"
  | .bitcode message => s!"Bitcode error: {message}"
  | .io message => s!"IO error: {message}"

end Error
end SsaKit
