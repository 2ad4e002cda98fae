/-!
Symbol tables: at most one entry per name.
-/
namespace SsaKit

structure SymbolTable (α : Type) where
  entries : List (String × α) := []

namespace SymbolTable

variable {α : Type}

def find? (t : SymbolTable α) (name : String) : Option α :=
  t.entries.lookup name

def contains (t : SymbolTable α) (name : String) : Bool :=
  (t.find? name).isSome

def erase (t : SymbolTable α) (name : String) : SymbolTable α :=
  ⟨t.entries.filter (·.1 != name)⟩

/-- A later entry replaces an earlier one of its name. -/
def insert (t : SymbolTable α) (name : String) (a : α) : SymbolTable α :=
  ⟨(t.erase name).entries ++ [(name, a)]⟩

def size (t : SymbolTable α) : Nat :=
  t.entries.length

def values (t : SymbolTable α) : List α :=
  t.entries.map (·.2)

end SymbolTable
end SsaKit
