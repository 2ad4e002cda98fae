import SsaKit.Machine.Memory
/-!
The meaning of operators, comparisons, selections and conversions on run-time values. On aggregates
they work member by member.
-/
namespace SsaKit.Datum

/-! ### Readings -/

def asInt : Datum → Except Fault (Nat × UInt64)
  | int bits word => .ok (bits, word)
  | d => .error (.expectedInt d)

def asWord (d : Datum) : Except Fault UInt64 := (·.2) <$> d.asInt

/-- An integer read at its own width. -/
def asSigned (d : Datum) : Except Fault Int :=
  (fun (bits, word) => Word.signed bits word) <$> d.asInt

def asBool (d : Datum) : Except Fault Bool := (fun word => decide (word ≠ 0)) <$> d.asWord

def asPointer : Datum → Except Fault (Option Pointer)
  | pointer target => .ok target
  | d => .error (.expectedPointer d)

def asFloat : Datum → Except Fault Double
  | single number => .ok number.toDouble
  | double number => .ok number
  | d => .error (.expectedFloat d)

def asMembers : Datum → Except Fault (List Datum)
  | aggregate members => .ok members
  | d => .error (.expectedAggregate d)

/-! ### Members -/

def pick (members : List Datum) (index : Nat) : Except Fault Datum :=
  match members[index]? with
  | some d => .ok d
  | none => .error (.member index members.length)

def put (members : List Datum) (index : Nat) (d : Datum) : Except Fault Datum :=
  if index < members.length then .ok (aggregate (members.set index d))
  else .error (.member index members.length)

/-! ### Member by member -/

mutual

/-- Apply a scalar operation to two values, or to each pair of members of two aggregates. -/
def lanewise (op : Datum → Datum → Except Fault Datum) : Datum → Datum → Except Fault Datum
  | aggregate lhs, aggregate rhs =>
    if lhs.length = rhs.length then aggregate <$> lanewiseAll op lhs rhs else .error .lengths
  | lhs, rhs => op lhs rhs

def lanewiseAll (op : Datum → Datum → Except Fault Datum) :
    List Datum → List Datum → Except Fault (List Datum)
  | a :: lhs, b :: rhs => do
    let d ← lanewise op a b
    return d :: (← lanewiseAll op lhs rhs)
  | _, _ => .ok []

end

/-! ### Operators -/

/-- Singles are computed as doubles and rounded. -/
def binaryScalar (host : Host) (op : BinaryOp) : Datum → Datum → Except Fault Datum
  | int bits a, int _ b =>
    if host.isChecked && op.overshifts bits b then .error (.crash .overflow)
    else (int bits ·) <$> (op.onWords bits a b).mapError .arithmetic
  | single a, single b =>
    (fun r => single (.ofDouble r)) <$> (op.onDoubles a.toDouble b.toDouble).mapError .arithmetic
  | double a, double b => double <$> (op.onDoubles a b).mapError .arithmetic
  | lhs, rhs => .error (.cannotApply op lhs rhs)

def binary (host : Host) (op : BinaryOp) : Datum → Datum → Except Fault Datum :=
  lanewise (binaryScalar host op)

def addressOf (target : Option Pointer) : UInt64 := (target.map Pointer.address).getD 0

/-- Pointers are equal as places and ordered by their addresses. -/
def comparePointers (pred : IntPredicate) (p q : Option Pointer) : Bool :=
  match pred with
  | .eq => p = q
  | .ne => p ≠ q
  | _ =>
    let a := addressOf p
    let b := addressOf q
    pred.holds a b a.toInt64.toInt b.toInt64.toInt

def icmpScalar (pred : IntPredicate) : Datum → Datum → Except Fault Datum
  | int bits a, int _ b => .ok (ofBool (pred.onWords bits a b))
  | pointer p, pointer q => .ok (ofBool (comparePointers pred p q))
  | lhs, rhs => .error (.cannotCompare lhs rhs)

def icmp (pred : IntPredicate) : Datum → Datum → Except Fault Datum := lanewise (icmpScalar pred)

def fcmpScalar (pred : FloatPredicate) : Datum → Datum → Except Fault Datum
  | single a, single b => .ok (ofBool (pred.holds a.toDouble b.toDouble))
  | double a, double b => .ok (ofBool (pred.holds a b))
  | lhs, rhs => .error (.cannotCompare lhs rhs)

def fcmp (pred : FloatPredicate) : Datum → Datum → Except Fault Datum :=
  lanewise (fcmpScalar pred)

/-! ### Selection -/

/-- Members chosen one by one from two lists. -/
def choose : List Datum → List Datum → List Datum → Except Fault (List Datum)
  | bit :: bits, a :: thens, b :: elses => do
    let d := if ← bit.asBool then a else b
    return d :: (← choose bits thens elses)
  | _, _, _ => .ok []

def select (cond thenValue elseValue : Datum) : Except Fault Datum :=
  match cond with
  | aggregate bits => do
    let thens ← thenValue.asMembers
    let elses ← elseValue.asMembers
    if bits.length = thens.length ∧ bits.length = elses.length then
      aggregate <$> choose bits thens elses
    else .error .selectLengths
  | cond => do return if ← cond.asBool then thenValue else elseValue

/-- Members picked by a mask from two lists put together. -/
def shuffle (lhs rhs mask : List Datum) : Except Fault Datum :=
  aggregate <$> mask.mapM fun d => do pick (lhs ++ rhs) (← d.asWord).toNat

/-! ### Conversions -/

def ofFloat (target : Ty) (number : Double) : Datum :=
  match target with
  | .float => single (.ofDouble number)
  | _ => double number

/-- The same bits under another type. -/
def bitcast (target : Ty) : Datum → Except Fault Datum
  | d@(int _ word) => match target with
    | .int bits => .ok (int bits word)
    | .float => .ok (single ⟨word.toUInt32⟩)
    | .double => .ok (double ⟨word⟩)
    | _ => .error (.unsupportedBitcast d target)
  | d@(single number) => match target with
    | .int bits => .ok (int bits number.bits.toUInt64)
    | .float | .double => .ok d
    | _ => .error (.unsupportedBitcast d target)
  | d@(double number) => match target with
    | .int bits => .ok (int bits number.bits)
    | .float | .double => .ok d
    | _ => .error (.unsupportedBitcast d target)
  | d@(pointer _) => match target with
    | .pointer _ => .ok d
    | _ => .error (.unsupportedBitcast d target)
  | d => .error (.unsupportedBitcast d target)

/-- Conversions of floats to integers stop at the ends of a word. -/
def castScalar (op : CastOp) (target : Ty) (d : Datum) : Except Fault Datum :=
  match op, target, d with
  | .trunc, .int bits, int source word | .zext, .int bits, int source word
  | .sext, .int bits, int source word => .ok (int bits (op.resize source bits word))
  | .fptoui, .int bits, d => do return int bits (Word.mask bits (← d.asFloat).toWord)
  | .fptosi, .int bits, d =>
    do return int bits (Word.mask bits (Word.ofInt (← d.asFloat).toSignedWord))
  | .uitofp, target, int _ word => .ok (ofFloat target (.ofWord word))
  | .sitofp, target, int bits word => .ok (ofFloat target (.ofInt (Word.signed bits word)))
  | .fpext, target, d | .fptrunc, target, d => do return ofFloat target (← d.asFloat)
  | .bitcast, target, d => bitcast target d
  | op, _, d => .error (.cannotCast op d)

mutual

/-- Convert a value, or each member to the element type of the target. -/
def cast (t : TypeTable) (op : CastOp) : TypeId → Datum → Except Fault Datum
  | type, aggregate members =>
    if (t.entry type).length = some members.length then
      aggregate <$> castAll t op ((t.entry type).element.getD type) members
    else .error (.unsupportedCast op (t.text type))
  | type, d => castScalar op (t.entry type) d

def castAll (t : TypeTable) (op : CastOp) : TypeId → List Datum → Except Fault (List Datum)
  | _, [] => .ok []
  | type, d :: rest => do
    let r ← cast t op type d
    return r :: (← castAll t op type rest)

end

end SsaKit.Datum
