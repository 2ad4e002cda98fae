import SsaKit.Proofs.TypedEmission

/-! The calls that build and change a module, and the modules that they can lead to. -/
namespace SsaKit

/-- What a call hands back. -/
inductive Reply where
  | done
  | type (id : TypeId)
  | value (v : ValueId)
  | block (b : Option BlockId)
  | function (f : FunctionId)
  | count (n : Nat)

inductive TypeCall where
  | ofType (ty : Ty)
  | declareStruct (name : String)
  | namedStruct (name : String) (fields : List TypeId) (isPacked : Bool)
  | setBody (id : TypeId) (fields : List TypeId) (isPacked : Bool)

inductive ConstantCall where
  | integer (type : TypeId) (word : UInt64)
  | bool (b : Bool)
  | float (type : TypeId) (number : Double)
  | null (type : TypeId)
  | undef (type : TypeId)
  | array (element : TypeId) (elements : List ValueId)
  | vector (type : TypeId) (elements : List ValueId)
  | struct (elements : List ValueId) (isPacked : Bool)
  | namedStruct (type : TypeId) (elements : List ValueId)
  | string (text : String) (isTerminated : Bool)

inductive SymbolCall where
  | setName (v : ValueId) (text : String)
  | addGlobal (valueType : TypeId) (name : String)
  | setInitializer (v init : ValueId)
  | setGlobalLinkage (v : ValueId) (linkage : Linkage)
  | setGlobalConstant (v : ValueId) (isConstant : Bool)
  | removeGlobal (v : ValueId)
  | globalString (name text : String)
  | addFunction (name : String) (type : TypeId)
  | declareFunction (name : String) (result : TypeId) (params : List TypeId) (isVariadic : Bool)
  | setParamNames (f : FunctionId) (names : List String)
  | setLinkage (f : FunctionId) (linkage : Linkage)
  | removeFunction (f : FunctionId)

inductive LayoutCall where
  | appendBlock (f : FunctionId) (name : String)
  | insertBlockBefore (anchor : BlockId) (name : String)
  | setBlockName (b : BlockId) (name : String)
  | removeBlock (b : BlockId)
  | appendInstruction (b : BlockId) (v : ValueId)
  | insertInstructionBefore (anchor v : ValueId)
  | detachInstruction (v : ValueId)
  | eraseInstruction (v : ValueId)
  | replaceAllUses (old new : ValueId)
  | addIncoming (v : ValueId) (b : BlockId) (incoming : ValueId)
  | removeIncoming (v : ValueId) (b : BlockId)

inductive Call where
  | types (c : TypeCall)
  | constant (c : ConstantCall)
  | symbol (c : SymbolCall)
  | layout (c : LayoutCall)
  | setCursor (p : Option Position)
  | atInstruction (v : ValueId)
  | emission (e : Emission)

namespace TypeCall

def run : TypeCall → Attempt TypeTable Reply
  | ofType ty => .type <$> TypeTable.ofTy ty
  | declareStruct name => .type <$> TypeTable.declareStruct name
  | namedStruct name fields isPacked => .type <$> TypeTable.namedStruct name fields isPacked
  | setBody id fields isPacked => (fun _ => .done) <$> TypeTable.setBody id fields isPacked

def types : TypeCall → List TypeId
  | ofType ty => ty.children
  | declareStruct _ => []
  | namedStruct _ fields _ => fields
  | setBody id fields _ => id :: fields

end TypeCall

namespace ConstantCall

def run : ConstantCall → Edit ValueId
  | integer type word => Module.constWord type word
  | bool b => Module.constBool b
  | float type number => Module.constFloat type number
  | null type => Module.constNull type
  | undef type => Module.undef type
  | array element elements => Module.constArray element elements
  | vector type elements => Module.constVector type elements
  | struct elements isPacked => Module.constStruct elements isPacked
  | namedStruct type elements => Module.constNamedStruct type elements
  | string text isTerminated => Module.constString text isTerminated

def types : ConstantCall → List TypeId
  | integer type _ | float type _ | null type | undef type | array type _ | vector type _
  | namedStruct type _ => [type]
  | bool _ | struct _ _ | string _ _ => []

def values : ConstantCall → List ValueId
  | array _ elements | vector _ elements | struct elements _ | namedStruct _ elements => elements
  | _ => []

end ConstantCall

namespace SymbolCall

def run : SymbolCall → Edit Reply
  | setName v text => (fun _ => .done) <$> Module.setName v text
  | addGlobal valueType name => .value <$> Module.addGlobal valueType name
  | setInitializer v init => (fun _ => .done) <$> Module.setInitializer v init
  | setGlobalLinkage v linkage => (fun _ => .done) <$> Module.setGlobalLinkage v linkage
  | setGlobalConstant v isConstant => (fun _ => .done) <$> Module.setGlobalConstant v isConstant
  | removeGlobal v => (fun _ => .done) <$> Module.removeGlobal v
  | globalString name text => .value <$> Module.globalString name text
  | addFunction name type => .function <$> Module.addFunction name type
  | declareFunction name result params isVariadic =>
    .function <$> Module.declareFunction name result params isVariadic
  | setParamNames f names => (fun _ => .done) <$> Module.setParamNames f names
  | setLinkage f linkage => (fun _ => .done) <$> Module.setLinkage f linkage
  | removeFunction f => (fun _ => .done) <$> Module.removeFunction f

def types : SymbolCall → List TypeId
  | addGlobal type _ | addFunction _ type => [type]
  | declareFunction _ result params _ => result :: params
  | _ => []

def values : SymbolCall → List ValueId
  | setName v _ | setGlobalLinkage v _ | setGlobalConstant v _ | removeGlobal v => [v]
  | setInitializer v init => [v, init]
  | _ => []

def functions : SymbolCall → List FunctionId
  | setParamNames f _ | setLinkage f _ | removeFunction f => [f]
  | _ => []

end SymbolCall

namespace LayoutCall

def run : LayoutCall → Edit Reply
  | appendBlock f name => (.block ∘ some) <$> Module.appendBlock f name
  | insertBlockBefore anchor name => .block <$> Module.insertBlockBefore anchor name
  | setBlockName b name => (fun _ => .done) <$> Module.setBlockName b name
  | removeBlock b => (fun _ => .done) <$> Module.removeBlock b
  | appendInstruction b v => (fun _ => .done) <$> Module.appendInstruction b v
  | insertInstructionBefore anchor v => (fun _ => .done) <$> Module.insertInstructionBefore anchor v
  | detachInstruction v => (fun _ => .done) <$> Module.detachInstruction v
  | eraseInstruction v => (fun _ => .done) <$> Module.eraseInstruction v
  | replaceAllUses old new => .count <$> Module.replaceAllUses old new
  | addIncoming v b incoming => (fun _ => .done) <$> Module.addIncoming v b incoming
  | removeIncoming v b => .count <$> Module.removeIncoming v b

def values : LayoutCall → List ValueId
  | appendInstruction _ v | detachInstruction v | eraseInstruction v | removeIncoming v _ => [v]
  | insertInstructionBefore v w | replaceAllUses v w | addIncoming v _ w => [v, w]
  | _ => []

def blocks : LayoutCall → List BlockId
  | insertBlockBefore b _ | setBlockName b _ | removeBlock b | appendInstruction b _
  | addIncoming _ b _ | removeIncoming _ b => [b]
  | _ => []

def functions : LayoutCall → List FunctionId
  | appendBlock f _ => [f]
  | _ => []

end LayoutCall

namespace Call

def perform : Call → Emit Reply
  | types c => Builder.onTypes c.run
  | constant c => .value <$> Builder.onModule c.run
  | symbol c => Builder.onModule c.run
  | layout c => Builder.onModule c.run
  | setCursor p => (fun _ => .done) <$> Builder.setCursor p
  | atInstruction v => (fun _ => .done) <$> Builder.atInstruction v
  | emission e => .value <$> e.emit

/-- Every handle of the call is one of the module. -/
def Valid (m : Module) : Call → Prop
  | types c => ∀ t ∈ c.types, m.types.contains t
  | constant c => (∀ t ∈ c.types, m.types.contains t) ∧ ∀ v ∈ c.values, m.values.Has v
  | symbol c => (∀ t ∈ c.types, m.types.contains t) ∧ (∀ v ∈ c.values, m.values.Has v) ∧
    ∀ f ∈ c.functions, m.HasFunction f
  | layout c => (∀ v ∈ c.values, m.values.Has v) ∧ (∀ b ∈ c.blocks, m.blocks.Has b) ∧
    ∀ f ∈ c.functions, m.HasFunction f
  | setCursor p => ∀ q ∈ p, m.blocks.Has q.block ∧ ∀ v ∈ q.before, m.values.Has v
  | atInstruction v => m.values.Has v
  | emission e => e.Valid m

instance (m : Module) (v : ValueId) : Decidable (m.values.Has v) := Nat.decLt _ _

instance (m : Module) (b : BlockId) : Decidable (m.blocks.Has b) := Nat.decLt _ _

instance (m : Module) (f : FunctionId) : Decidable (m.HasFunction f) := Nat.decLt _ _

instance (m : Module) (e : Emission) : Decidable (e.Valid m) :=
  decidable_of_iff ((∀ v ∈ e.values, m.values.Has v) ∧ (∀ t ∈ e.types, m.types.contains t) ∧
    (∀ b ∈ e.blocks, m.blocks.Has b) ∧ ∀ f ∈ e.callees, m.HasFunction f)
    ⟨fun ⟨hv, ht, hb, hf⟩ => ⟨hv, ht, hb, hf⟩, fun ⟨hv, ht, hb, hf⟩ => ⟨hv, ht, hb, hf⟩⟩

instance decidableValid (m : Module) : (c : Call) → Decidable (c.Valid m)
  | types c => inferInstanceAs (Decidable (∀ t ∈ c.types, m.types.contains t))
  | constant c => inferInstanceAs (Decidable ((∀ t ∈ c.types, m.types.contains t) ∧
      ∀ v ∈ c.values, m.values.Has v))
  | symbol c => inferInstanceAs (Decidable ((∀ t ∈ c.types, m.types.contains t) ∧
      (∀ v ∈ c.values, m.values.Has v) ∧ ∀ f ∈ c.functions, m.HasFunction f))
  | layout c => inferInstanceAs (Decidable ((∀ v ∈ c.values, m.values.Has v) ∧
      (∀ b ∈ c.blocks, m.blocks.Has b) ∧ ∀ f ∈ c.functions, m.HasFunction f))
  | setCursor p => inferInstanceAs (Decidable (∀ q ∈ p, m.blocks.Has q.block ∧
      ∀ v ∈ q.before, m.values.Has v))
  | atInstruction v => inferInstanceAs (Decidable (m.values.Has v))
  | emission e => inferInstanceAs (Decidable (e.Valid m))

end Call

namespace Builder

variable {s s' : Builder} {o : Order}

/-- One call on handles of the module, successful or not. -/
def Called (s s' : Builder) : Prop :=
  ∃ c : Call, c.Valid s.module ∧ s' = (c.perform.outcome s).2

/-- Every state that calls lead to from an empty module. -/
def Reachable (s : Builder) : Prop :=
  ∃ name, Relation.ReflTransGen Called { module := { name } } s

/-- The state after some calls. -/
def replay (s : Builder) (calls : List Call) : Builder :=
  calls.foldl (fun s c => (c.perform.outcome s).2) s

/-- Every one of the calls is valid when its turn comes. -/
def Replays (s : Builder) : List Call → Prop
  | [] => True
  | c :: calls => c.Valid s.module ∧ Replays (c.perform.outcome s).2 calls

instance decidableReplays : (s : Builder) → (calls : List Call) → Decidable (s.Replays calls)
  | _, [] => .isTrue trivial
  | s, c :: calls => @instDecidableAnd _ _ _ (decidableReplays (c.perform.outcome s).2 calls)

theorem Replays.reachable {calls : List Call} (h : s.Replays calls) (hs : s.Reachable) :
    (s.replay calls).Reachable := by
  induction calls generalizing s with
  | nil => exact hs
  | cons c calls ih =>
    obtain ⟨hc, h⟩ := h
    obtain ⟨name, hs⟩ := hs
    exact ih h ⟨name, hs.tail ⟨c, hc, rfl⟩⟩

theorem reachable_empty (name : String) : Reachable { module := { name } } := ⟨name, .refl⟩

/-- What holds of every reachable state: the module is typed, its links hold an order, and the
cursor stands in one of its blocks. -/
structure Sane (s : Builder) : Prop where
  sound : s.module.Sound
  ordered : s.module.Ordered s.module.order
  cursor : ∀ p ∈ s.cursor, s.module.blocks.Has p.block

end Builder

/-- A module that calls lead to. -/
def Module.Reachable (m : Module) : Prop := ∃ cursor, Builder.Reachable { module := m, cursor }

theorem Builder.Reachable.module {s : Builder} (h : s.Reachable) : s.module.Reachable :=
  ⟨s.cursor, h⟩

end SsaKit
