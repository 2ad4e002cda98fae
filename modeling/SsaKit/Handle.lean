/-!
Handles: positions in the four arenas of a module. The kind of a handle is part of its type.
-/
namespace SsaKit

inductive Entity where
  | type | value | block | function

structure Handle (entity : Entity) where
  index : Nat
deriving DecidableEq, Hashable, Inhabited

instance {entity : Entity} : Ord (Handle entity) where
  compare := compareOn Handle.index

abbrev TypeId := Handle .type
abbrev ValueId := Handle .value
abbrev BlockId := Handle .block
abbrev FunctionId := Handle .function

end SsaKit
