import SsaKit.Error
/-!
Closed sets of words: each member has one spelling, and reading takes a spelling back.
-/
namespace SsaKit

class Mnemonic (α : Type) where
  all : List α
  name : α → String
  /-- What a member is called in the refusal of an unknown word. -/
  noun : String

namespace Mnemonic

variable {α : Type} [Mnemonic α]

def find? (text : String) : Option α := all.find? fun a => name a == text

def parse (text : String) : Except Error α :=
  match find? text with
  | some a => .ok a
  | none => .error (.argument s!"unknown {noun α} '{text}'")

end Mnemonic
end SsaKit
