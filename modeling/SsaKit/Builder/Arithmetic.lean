import SsaKit.Builder.Basic
/-!
Emission of arithmetic, comparisons and conversions.
-/
namespace SsaKit.Builder

def binary (op : BinaryOp) (lhs rhs : ValueId) : Emit ValueId := do
  let type ← sameType op.name lhs rhs
  let m ← readModule
  let kind := m.types.kind (scalarOf m type)
  let wanted := if op.isFloat then "floating point" else "integer"
  unless kind = (if op.isFloat then .float else .integer) do
    throw (.type s!"{op.name} requires {wanted} operands, found {m.types.text type}")
  insert type (.binary op lhs rhs)

/-- Zero minus the value. -/
def neg (v : ValueId) : Emit ValueId := do
  let type ← expectInteger "neg" v
  let zero ← onModule (Module.constInt type 0)
  binary .sub zero v

/-- The value with every bit turned over. -/
def not (v : ValueId) : Emit ValueId := do
  let type ← expectInteger "not" v
  let ones ← onModule (Module.constInt type (-1))
  binary .xor v ones

/-- Negative zero minus the value. -/
def fneg (v : ValueId) : Emit ValueId := do
  let type ← expectKind "fneg" v .float
  let zero ← onModule (Module.constFloat type .negZero)
  binary .fsub zero v

def icmp (pred : IntPredicate) (lhs rhs : ValueId) : Emit ValueId := do
  let type ← sameType "icmp" lhs rhs
  let m ← readModule
  let kind := m.types.kind (scalarOf m type)
  unless kind = .integer ∨ kind = .pointer do
    throw (.type s!"icmp requires integer or pointer operands, found {m.types.text type}")
  insert (← boolLike type) (.icmp pred lhs rhs)

def fcmp (pred : FloatPredicate) (lhs rhs : ValueId) : Emit ValueId := do
  let type ← sameType "fcmp" lhs rhs
  let m ← readModule
  unless m.types.kind (scalarOf m type) = .float do
    throw (.type s!"fcmp requires floating point operands, found {m.types.text type}")
  insert (← boolLike type) (.fcmp pred lhs rhs)

/-- Whether a conversion makes sense between two types. -/
def isCastLegal (t : TypeTable) (op : CastOp) (source target : TypeId) : Bool :=
  let has (a b : Ty.Kind) := t.kind source == a && t.kind target == b
  let sourceBits := t.scalarBits source
  let targetBits := t.scalarBits target
  let narrows := targetBits.getD 0 < sourceBits.getD 0
  let widens := sourceBits.getD 0 < targetBits.getD 0
  match op with
  | .trunc => has .integer .integer && narrows
  | .zext | .sext => has .integer .integer && widens
  | .fptoui | .fptosi => has .float .integer
  | .uitofp | .sitofp => has .integer .float
  | .fpext => has .float .float && widens
  | .fptrunc => has .float .float && narrows
  | .bitcast =>
    has .pointer .pointer ||
      (t.kind source != .pointer && t.kind target != .pointer && sourceBits.isSome &&
        sourceBits == targetBits)

def cast (op : CastOp) (v : ValueId) (type : TypeId) : Emit ValueId := do
  let m ← readModule
  let source := m.typeOf v
  unless isCastLegal m.types op source type do
    throw (.type
      s!"invalid {op.name} from {m.types.text source} to {m.types.text type}")
  insert type (.cast op v)

/-- Resize an integer in whichever direction is needed. -/
def intCast (v : ValueId) (type : TypeId) (isSigned : Bool) : Emit ValueId := do
  let source ← expectInteger "int cast" v
  let m ← readModule
  match m.types.intWidth source, m.types.intWidth type with
  | some a, some b =>
    if a = b then return v
    else if b < a then cast .trunc v type
    else cast (if isSigned then .sext else .zext) v type
  | _, _ => throw (.type s!"int cast target {m.types.text type} is not an integer")

/-- Change the precision of a float in whichever direction is needed. -/
def fpCast (v : ValueId) (type : TypeId) : Emit ValueId := do
  let source ← expectKind "fp cast" v .float
  let m ← readModule
  unless m.types.kind type = .float do
    throw (.type s!"fp cast target {m.types.text type} is not a float")
  let a := (m.types.scalarBits source).getD 0
  let b := (m.types.scalarBits type).getD 0
  if a = b then return v
  else cast (if a < b then .fpext else .fptrunc) v type

end SsaKit.Builder
