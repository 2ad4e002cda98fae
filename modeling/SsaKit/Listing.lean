import SsaKit.Module.Basic
/-!
The textual form of a module. Unnamed parameters and results are numbered in program order, one
count for each function.
-/
namespace SsaKit.Module

variable (m : Module)

/-- Names of values in the scope of one function; the first entry of a value counts. -/
abbrev Scope := List (ValueId × String)

/-- Give each value its own name or the next number. -/
def numbered : Nat → List ValueId → Scope
  | _, [] => []
  | next, v :: rest => match (m.value v).name with
    | some name => (v, name) :: numbered next rest
    | none => (v, toString next) :: numbered (next + 1) rest

/-- The parameters and results that a function writes out. -/
def namedValues (f : FunctionId) : List ValueId :=
  m.params f ++ (m.instructionsOf f).filter fun v => !m.types.isVoid (m.typeOf v)

def scope (f : FunctionId) : Scope := (m.numbered 0 (m.namedValues f)).reverse

/-! ### Operands -/

/-- Printable ASCII stands for itself, except for the quote and the backslash; any other byte is
written as a backslash and two upper-case hexadecimal digits. -/
def byteText (byte : UInt8) : List Char :=
  let c := Char.ofNat byte.toNat
  if 0x20 ≤ byte ∧ byte < 0x7f ∧ c ≠ '"' ∧ c ≠ '\\' then [c]
  else ['\\', (Nat.digitChar (byte.toNat / 16)).toUpper, (Nat.digitChar (byte.toNat % 16)).toUpper]

def bytesText (data : List UInt8) : String :=
  "c\"" ++ String.ofList (data.flatMap byteText) ++ "\""

/-- Elements in the brackets of their type. -/
def aggregateText (ty : Ty) (elements : List String) : String :=
  let inner := ", ".intercalate elements
  match ty with
  | .vector _ _ => "<" ++ inner ++ ">"
  | .struct _ _ true => "<\x7b " ++ inner ++ " \x7d>"
  | .struct _ _ false => "\x7b " ++ inner ++ " \x7d"
  | _ => "[" ++ inner ++ "]"

def wordText (v : ValueId) : String :=
  let number := (m.constSigned? v).getD 0
  if m.types.intWidth (m.typeOf v) = some 1 then toString (decide (number ≠ 0))
  else toString number

/-- A value where it is read, without its type. Aggregates are written out in full, so no more
levels than there are values. -/
def operandText (names : Scope) (v : ValueId) : String :=
  render (m.values.size + 1) v
where
  render : Nat → ValueId → String
    | 0, _ => ""
    | fuel + 1, v => match m.kindOf v with
      | .int _ => m.wordText v
      | .float number => number.text .listing
      | .null => "null"
      | .undef => "undef"
      | .aggregate elements =>
        aggregateText (m.types.entry (m.typeOf v)) (elements.map fun e =>
          m.types.text (m.typeOf e) ++ " " ++ render fuel e)
      | .bytes data => bytesText data
      | .global _ => "@" ++ (m.value v).name.getD "<anon>"
      | .argument _ _ | .instruction _ =>
        "%" ++ (names.lookup v).getD s!"<{v.index}>"

/-- A value after its type. -/
def typedText (names : Scope) (v : ValueId) : String :=
  m.types.text (m.typeOf v) ++ " " ++ m.operandText names v

def labelText (b : BlockId) : String := "label %" ++ m.label b

/-! ### Instructions -/

def commaText (parts : List String) : String := ", ".intercalate parts

/-- An instruction without its result. -/
def bodyText (names : Scope) (type : TypeId) (i : Instruction) : String :=
  let typed := m.typedText names
  let bare := m.operandText names
  let typeText := m.types.text
  match i with
  | .binary op lhs rhs => op.name ++ " " ++ commaText [typed lhs, bare rhs]
  | .icmp pred lhs rhs => "icmp " ++ pred.name ++ " " ++ commaText [typed lhs, bare rhs]
  | .fcmp pred lhs rhs => "fcmp " ++ pred.name ++ " " ++ commaText [typed lhs, bare rhs]
  | .alloca allocated count =>
    "alloca " ++ commaText (typeText allocated :: count.toList.map typed)
  | .load ptr => "load " ++ commaText [typeText type, typed ptr]
  | .store value ptr => "store " ++ commaText [typed value, typed ptr]
  | .elementPtr base indices =>
    let pointee := ((m.types.entry (m.typeOf base)).element.map typeText).getD ""
    "getelementptr " ++ commaText (pointee :: typed base :: indices.map typed)
  | .branch dest => "br " ++ m.labelText dest
  | .condBranch cond thenDest elseDest =>
    "br " ++ commaText [typed cond, m.labelText thenDest, m.labelText elseDest]
  | .switch value default cases =>
    "switch " ++ commaText [typed value, m.labelText default] ++ " [" ++
      String.join (cases.map fun (key, dest) =>
        "\n    " ++ commaText [typed key, m.labelText dest]) ++ "\n  ]"
  | .phi incoming =>
    "phi " ++ typeText type ++ " " ++ commaText (incoming.map fun (b, v) =>
      "[ " ++ bare v ++ ", %" ++ m.label b ++ " ]")
  | .call callee args =>
    "call " ++ typeText type ++ " @" ++ m.functionName callee ++
      "(" ++ commaText (args.map typed) ++ ")"
  | .ret (some value) => "ret " ++ typed value
  | .ret none => "ret void"
  | .unreachable => "unreachable"
  | .cast op value => op.name ++ " " ++ typed value ++ " to " ++ typeText type
  | .extractValue aggregate index =>
    "extractvalue " ++ commaText [typed aggregate, toString index]
  | .insertValue aggregate element index =>
    "insertvalue " ++ commaText [typed aggregate, typed element, toString index]
  | .extractElement vector index => "extractelement " ++ commaText [typed vector, typed index]
  | .insertElement vector element index =>
    "insertelement " ++ commaText [typed vector, typed element, typed index]
  | .shuffle lhs rhs mask => "shufflevector " ++ commaText [typed lhs, typed rhs, typed mask]
  | .select cond thenValue elseValue =>
    "select " ++ commaText [typed cond, typed thenValue, typed elseValue]

def instructionText (names : Scope) (v : ValueId) (i : Instruction) : String :=
  let body := m.bodyText names (m.typeOf v) i
  if m.types.isVoid (m.typeOf v) then body else m.operandText names v ++ " = " ++ body

/-! ### Symbols -/

/-- External linkage is not written. -/
def linkageText (linkage : Linkage) : String :=
  if linkage = .external then "" else linkage.name ++ " "

def blockText (names : Scope) (b : BlockId) : String :=
  m.label b ++ ":\n" ++ String.join ((m.instructions b).map fun v =>
    match m.instruction? v with
    | some i => "  " ++ m.instructionText names v i ++ "\n"
    | none => "")

def functionText (f : FunctionId) : String :=
  let names := m.scope f
  let paramText (v : ValueId) :=
    if m.isDeclaration f then m.types.text (m.typeOf v) else m.typedText names v
  let isVariadic := (m.types.entry (m.function f).type).isVariadic
  let params := (m.params f).map paramText ++ if isVariadic then ["..."] else []
  let header := linkageText (m.linkage f) ++ m.types.text (m.resultType f) ++ " @" ++
    m.functionName f ++ "(" ++ commaText params ++ ")"
  if m.isDeclaration f then "declare " ++ header ++ "\n"
  else "define " ++ header ++ " \x7b\n" ++
    "\n".intercalate ((m.blocksOf f).map (m.blockText names)) ++ "\x7d\n"

def globalText (v : ValueId) : String :=
  match m.global? v with
  | none => ""
  | some g =>
    let kind := if g.isConstant then "constant" else "global"
    let name := m.operandText [] v
    match g.initializer with
    | some init => name ++ " = " ++ linkageText g.linkage ++ kind ++ " " ++
        m.types.text g.valueType ++ " " ++ m.operandText [] init ++ "\n"
    | none => name ++ " = external " ++ kind ++ " " ++ m.types.text g.valueType ++ "\n"

/-- Lines under a blank line, if there are any. -/
def paragraph (lines : List String) : String :=
  if lines.isEmpty then "" else "\n" ++ String.join lines

/-- Named structs, then globals, then functions. -/
def text : String :=
  "; ModuleID = '" ++ m.name ++ "'\n" ++
    paragraph (m.types.namedStructs.map fun id =>
      m.types.text id ++ " = type " ++ m.types.definitionText id ++ "\n") ++
    paragraph (m.globals.map m.globalText) ++
    String.join (m.liveFunctions.map fun f => "\n" ++ m.functionText f)

end SsaKit.Module
