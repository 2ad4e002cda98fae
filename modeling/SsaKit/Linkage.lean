import SsaKit.Mnemonic
/-!
How a symbol is seen from outside its module.
-/
namespace SsaKit

inductive Linkage where
  | external | availableExternally | linkOnceAny | linkOnceOdr | weakAny | weakOdr | appending
  | internal | hidden | externalWeak | common
deriving DecidableEq

namespace Linkage

def all : List Linkage :=
  [external, availableExternally, linkOnceAny, linkOnceOdr, weakAny, weakOdr, appending,
   internal, hidden, externalWeak, common]

def name : Linkage → String
  | external => "external"
  | availableExternally => "available_externally"
  | linkOnceAny => "linkonce"
  | linkOnceOdr => "linkonce_odr"
  | weakAny => "weak"
  | weakOdr => "weak_odr"
  | appending => "appending"
  | internal => "internal"
  | hidden => "private"
  | externalWeak => "extern_weak"
  | common => "common"

instance : Mnemonic Linkage := ⟨all, name, "linkage"⟩

/-- Symbols that other modules may refer to. -/
def isVisible : Linkage → Bool
  | internal | hidden => false
  | _ => true

end Linkage
end SsaKit
