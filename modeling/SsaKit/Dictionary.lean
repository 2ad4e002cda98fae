/-!
Finite maps: at most one entry per key.
-/
namespace SsaKit

structure Dictionary (κ α : Type) where
  entries : List (κ × α) := []

namespace Dictionary

variable {κ α : Type} [DecidableEq κ]

def find? (d : Dictionary κ α) (key : κ) : Option α :=
  d.entries.lookup key

/-- A later entry replaces an earlier one of its key. -/
def insert (d : Dictionary κ α) (key : κ) (a : α) : Dictionary κ α :=
  ⟨(key, a) :: d.entries.filter (·.1 ≠ key)⟩

/-- An entry for a key that has none. -/
def insertNew (d : Dictionary κ α) (key : κ) (a : α) : Dictionary κ α :=
  if (d.find? key).isSome then d else d.insert key a

end Dictionary
end SsaKit
