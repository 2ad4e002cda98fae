import SsaKit.Listing
import SsaKit.Proofs.RoundTrip
import SsaKit.Proofs.Strict

/-! The textual form of a module, written so that a handle from elsewhere and a nesting without an
end have no text. A module that passed the check has the usual one. -/
namespace SsaKit

/-- One constant aggregate is an element of another. -/
def Module.Nests (m : Module) (v w : ValueId) : Prop :=
  ∃ elements, m.kindOf v = .aggregate elements ∧ w ∈ elements

/-- No constant aggregate holds itself, however deep. -/
def Module.Nested (m : Module) : Prop := ∀ v, ¬ Relation.TransGen m.Nests v v

namespace Strict

variable (m : Module)

/-! ### Types -/

/-- The text of a type; none if it is nested too deep. -/
def renderType : Nat → TypeId → Option String
  | 0, _ => none
  | fuel + 1, t => do
    match ← entry m t with
    | .void => return "void"
    | .int bits => return s!"i{bits}"
    | .float => return "float"
    | .double => return "double"
    | .pointer pointee => return (← renderType fuel pointee) ++ "*"
    | .array element length => return s!"[{length} x " ++ (← renderType fuel element) ++ "]"
    | .vector element length => return s!"<{length} x " ++ (← renderType fuel element) ++ ">"
    | .struct (some name) _ _ => return "%" ++ name
    | .struct none fields isPacked =>
      return TypeTable.bodyText (← (fields.getD []).mapM (renderType fuel)) isPacked
    | .function result params isVariadic =>
      let result ← renderType fuel result
      let params ← params.mapM (renderType fuel)
      return result ++ " (" ++
        ", ".intercalate (params ++ if isVariadic then ["..."] else []) ++ ")"

/-- The text of a type, which refers to earlier types only. -/
def typeText (t : TypeId) : Option String := renderType m (t.index + 1) t

def definitionText (t : TypeId) : Option String := do
  match ← entry m t with
  | .struct _ none _ => return "opaque"
  | .struct _ (some fields) isPacked =>
    return TypeTable.bodyText (← fields.mapM (typeText m)) isPacked
  | _ => typeText m t

def namedStructs : Option (List TypeId) :=
  ((List.range m.types.size).map Handle.mk).filterM fun t => do
    return (← entry m t).structName.isSome

/-! ### Operands -/

def constSigned? (v : ValueId) : Option (Option Int) := do
  match ← kindOf m v with
  | .int word => return (← entry m (← typeOf m v)).intWidth.map fun bits => Word.signed bits word
  | _ => return none

def wordText (v : ValueId) : Option String := do
  let number := (← constSigned? m v).getD 0
  let type ← entry m (← typeOf m v)
  return if type.intWidth = some 1 then toString (decide (number ≠ 0)) else toString number

/-- A value without its type; none if aggregates are nested too deep. -/
def renderOperand (names : Module.Scope) : Nat → ValueId → Option String
  | 0, _ => none
  | fuel + 1, v => do
    match ← kindOf m v with
    | .int _ => wordText m v
    | .float number => return number.text .listing
    | .null => return "null"
    | .undef => return "undef"
    | .aggregate elements =>
      let type ← entry m (← typeOf m v)
      let texts ← elements.mapM fun e => do
        return (← typeText m (← typeOf m e)) ++ " " ++ (← renderOperand names fuel e)
      return Module.aggregateText type texts
    | .bytes data => return Module.bytesText data
    | .global _ => return "@" ++ (← value m v).name.getD "<anon>"
    | .argument _ _ | .instruction _ => return "%" ++ (names.lookup v).getD s!"<{v.index}>"

/-- A value without its type, in which there can be no more levels than there are values. -/
def operandText (names : Module.Scope) (v : ValueId) : Option String :=
  renderOperand m names (m.values.size + 1) v

def typedText (names : Module.Scope) (v : ValueId) : Option String := do
  return (← typeText m (← typeOf m v)) ++ " " ++ (← operandText m names v)

/-! ### Instructions -/

def labelText (b : BlockId) : Option String := do return "label %" ++ (← label m b)

def bodyText (names : Module.Scope) (type : TypeId) (i : Instruction) : Option String := do
  let typed := typedText m names
  let bare := operandText m names
  let target := labelText m
  match i with
  | .binary op lhs rhs => return op.name ++ " " ++ Module.commaText [← typed lhs, ← bare rhs]
  | .icmp pred lhs rhs =>
    return "icmp " ++ pred.name ++ " " ++ Module.commaText [← typed lhs, ← bare rhs]
  | .fcmp pred lhs rhs =>
    return "fcmp " ++ pred.name ++ " " ++ Module.commaText [← typed lhs, ← bare rhs]
  | .alloca allocated count =>
    return "alloca " ++ Module.commaText ((← typeText m allocated) :: (← count.toList.mapM typed))
  | .load ptr => return "load " ++ Module.commaText [← typeText m type, ← typed ptr]
  | .store value ptr => return "store " ++ Module.commaText [← typed value, ← typed ptr]
  | .elementPtr base indices =>
    let pointee ← (← entry m (← typeOf m base)).element.toList.mapM (typeText m)
    return "getelementptr " ++
      Module.commaText (pointee.headD "" :: (← typed base) :: (← indices.mapM typed))
  | .branch dest => return "br " ++ (← target dest)
  | .condBranch cond thenDest elseDest =>
    return "br " ++ Module.commaText [← typed cond, ← target thenDest, ← target elseDest]
  | .switch value default cases =>
    let arms ← cases.mapM fun (key, dest) => do
      return "\n    " ++ Module.commaText [← typed key, ← target dest]
    return "switch " ++ Module.commaText [← typed value, ← target default] ++ " [" ++
      String.join arms ++ "\n  ]"
  | .phi incoming =>
    let arms ← incoming.mapM fun (b, v) => do
      return "[ " ++ (← bare v) ++ ", %" ++ (← label m b) ++ " ]"
    return "phi " ++ (← typeText m type) ++ " " ++ Module.commaText arms
  | .call callee args =>
    return "call " ++ (← typeText m type) ++ " @" ++ (← functionName m callee) ++
      "(" ++ Module.commaText (← args.mapM typed) ++ ")"
  | .ret (some value) => return "ret " ++ (← typed value)
  | .ret none => return "ret void"
  | .unreachable => return "unreachable"
  | .cast op value => return op.name ++ " " ++ (← typed value) ++ " to " ++ (← typeText m type)
  | .extractValue aggregate index =>
    return "extractvalue " ++ Module.commaText [← typed aggregate, toString index]
  | .insertValue aggregate element index =>
    return "insertvalue " ++ Module.commaText [← typed aggregate, ← typed element, toString index]
  | .extractElement vector index =>
    return "extractelement " ++ Module.commaText [← typed vector, ← typed index]
  | .insertElement vector element index =>
    return "insertelement " ++ Module.commaText [← typed vector, ← typed element, ← typed index]
  | .shuffle lhs rhs mask =>
    return "shufflevector " ++ Module.commaText [← typed lhs, ← typed rhs, ← typed mask]
  | .select cond thenValue elseValue =>
    return "select " ++ Module.commaText [← typed cond, ← typed thenValue, ← typed elseValue]

def instructionText (names : Module.Scope) (v : ValueId) (i : Instruction) : Option String := do
  let type ← typeOf m v
  let body ← bodyText m names type i
  if (← entry m type).kind = .void then return body
  else return (← operandText m names v) ++ " = " ++ body

/-! ### Symbols -/

def numbered : Nat → List ValueId → Option Module.Scope
  | _, [] => some []
  | next, v :: rest => do
    match (← value m v).name with
    | some name => return (v, name) :: (← numbered next rest)
    | none => return (v, toString next) :: (← numbered (next + 1) rest)

def namedValues (f : FunctionId) : Option (List ValueId) := do
  let results ← (← instructionsOf m f).filterM fun v => do
    return !decide ((← entry m (← typeOf m v)).kind = .void)
  return (← function m f).params ++ results

def scope (f : FunctionId) : Option Module.Scope := do
  return (← numbered m 0 (← namedValues m f)).reverse

def blockText (names : Module.Scope) (b : BlockId) : Option String := do
  let lines ← (← instructions m b).mapM fun v => do
    match ← instruction? m v with
    | some i => return "  " ++ (← instructionText m names v i) ++ "\n"
    | none => return ""
  return (← label m b) ++ ":\n" ++ String.join lines

def functionText (f : FunctionId) : Option String := do
  let data ← function m f
  let type ← entry m data.type
  let names ← scope m f
  let isDeclaration := decide (data.chain.length = 0)
  let params ← data.params.mapM fun v => do
    if isDeclaration then typeText m (← typeOf m v) else typedText m names v
  let result ← typeText m (type.result.getD data.type)
  let header := Module.linkageText data.linkage ++ result ++ " @" ++ data.name ++ "(" ++
    Module.commaText (params ++ if type.isVariadic then ["..."] else []) ++ ")"
  if isDeclaration then return "declare " ++ header ++ "\n"
  else
    let body ← (← blocksOf m f).mapM (blockText m names)
    return "define " ++ header ++ " \x7b\n" ++ "\n".intercalate body ++ "\x7d\n"

def globalText (v : ValueId) : Option String := do
  match (← kindOf m v).global? with
  | none => return ""
  | some g =>
    let kind := if g.isConstant then "constant" else "global"
    let name ← operandText m [] v
    let type ← typeText m g.valueType
    match g.initializer with
    | some init => return name ++ " = " ++ Module.linkageText g.linkage ++ kind ++ " " ++ type ++
        " " ++ (← operandText m [] init) ++ "\n"
    | none => return name ++ " = external " ++ kind ++ " " ++ type ++ "\n"

def text : Option String := do
  let structs ← (← namedStructs m).mapM fun t => do
    return (← typeText m t) ++ " = type " ++ (← definitionText m t) ++ "\n"
  let globals ← m.globals.mapM (globalText m)
  let functions ← (← liveFunctions m).mapM fun f => do return "\n" ++ (← functionText m f)
  return "; ModuleID = '" ++ m.name ++ "'\n" ++ Module.paragraph structs ++
    Module.paragraph globals ++ String.join functions

/-! ### The usual texts -/

variable {m} {v w : ValueId} {b : BlockId} {f : FunctionId} {t : TypeId} {i : Instruction}
  {names : Module.Scope}

section Types

variable (h : m.types.Intact)
include h

theorem renderType_eq (ht : m.types.contains t) {fuel : Nat} (hfuel : t.index < fuel) :
    renderType m fuel t = some (TypeTable.text.render m.types fuel t) := by
  induction fuel generalizing t with
  | zero => omega
  | succ fuel ih =>
    have he := h t ht
    have hchild : (m.types.entry t).structName = none → ∀ c ∈ (m.types.entry t).children,
        renderType m fuel c = some (TypeTable.text.render m.types fuel c) := fun hn c hc =>
      ih (he.children c hc) (by have := he.earlier hn c hc; omega)
    rw [renderType, entry_eq ht, TypeTable.text.render]
    simp only [Option.bind_eq_bind, Option.bind_some]
    cases hty : m.types.entry t with
    | void | int _ | float | double => rfl
    | pointer pointee | array pointee _ | vector pointee _ =>
      have hp := hchild (by rw [hty]; rfl) pointee (by rw [hty]; exact List.mem_singleton_self _)
      simp [hp]
    | struct name fields isPacked =>
      cases name with
      | some name => rfl
      | none =>
        have hf : ∀ c ∈ fields.getD [], renderType m fuel c = _ :=
          fun c hc => hchild (by rw [hty]; rfl) c (by rw [hty]; exact hc)
        simp [mapM_eq hf]
    | function result params isVariadic =>
      have hr := hchild (by rw [hty]; rfl) result (by rw [hty]; exact List.mem_cons_self)
      have hp : ∀ c ∈ params, renderType m fuel c = _ :=
        fun c hc => hchild (by rw [hty]; rfl) c (by rw [hty]; exact List.mem_cons_of_mem _ hc)
      simp [hr, mapM_eq hp]

theorem typeText_eq (ht : m.types.contains t) : typeText m t = some (m.types.text t) :=
  renderType_eq h ht (Nat.lt_succ_self _)

theorem definitionText_eq (ht : m.types.contains t) :
    definitionText m t = some (m.types.definitionText t) := by
  have hchildren := (h t ht).children
  rw [definitionText, entry_eq ht, TypeTable.definitionText]
  simp only [Option.bind_eq_bind, Option.bind_some]
  cases hty : m.types.entry t with
  | struct name fields isPacked =>
    cases fields with
    | none => rfl
    | some fields =>
      have hf : ∀ c ∈ fields, typeText m c = some (m.types.text c) :=
        fun c hc => typeText_eq h (hchildren c (by rw [hty]; exact hc))
      simp [mapM_eq hf]
  | _ => exact typeText_eq h ht

end Types

theorem contains_of_mem_handles (ht : t ∈ (List.range m.types.size).map Handle.mk) :
    m.types.contains t := by
  obtain ⟨i, hi, rfl⟩ := List.mem_map.mp ht
  exact TypeTable.contains_iff.mpr (List.mem_range.mp hi)

theorem namedStructs_eq : namedStructs m = some m.types.namedStructs :=
  filterM_eq fun t ht => by rw [entry_eq (contains_of_mem_handles ht)]; rfl

theorem labelText_eq (hb : m.blocks.Has b) : labelText m b = some (m.labelText b) := by
  rw [labelText, label_eq hb]
  rfl

theorem mem_children_of_element {ty : Ty} (ht : t ∈ ty.element.toList) : t ∈ ty.children := by
  cases ty <;> simp_all [Ty.element, Ty.children]

section Intact

variable (h : m.Intact)
include h

theorem typeText_of_value (hv : m.values.Has v) :
    (do typeText m (← typeOf m v)) = some (m.types.text (m.typeOf v)) := by
  rw [typeOf_eq hv]
  exact typeText_eq h.types (h.values v hv).type

theorem entry_of_value (hv : m.values.Has v) :
    entry m (m.typeOf v) = some (m.types.entry (m.typeOf v)) :=
  entry_eq (h.values v hv).type

theorem constSigned?_eq (hv : m.values.Has v) : constSigned? m v = some (m.constSigned? v) := by
  rw [constSigned?, kindOf_eq hv, Module.constSigned?, Module.constWord?]
  simp only [Option.bind_eq_bind, Option.bind_some]
  cases m.kindOf v with
  | int word =>
    simp only [typeOf_eq hv, entry_of_value h hv, Option.bind_some]
    show some ((m.types.intWidth (m.typeOf v)).map _) = _
    cases m.types.intWidth (m.typeOf v) <;> rfl
  | _ => rfl

theorem wordText_eq (hv : m.values.Has v) : wordText m v = some (m.wordText v) := by
  rw [wordText, constSigned?_eq h hv, typeOf_eq hv]
  simp only [Option.bind_eq_bind, Option.bind_some, entry_of_value h hv]
  rfl

/-- Along a path of aggregates that hold one another no value comes twice, so the levels left never
run out. -/
theorem renderOperand_eq (hn : m.Nested) (names : Module.Scope) (hv : m.values.Has v)
    (path : List ValueId) (hpath : path.Nodup) (hhas : ∀ a ∈ path, m.values.Has a)
    (habove : ∀ a ∈ path, Relation.TransGen m.Nests a v) {fuel : Nat}
    (hfuel : path.length + fuel = m.values.size + 1) :
    renderOperand m names fuel v = some (Module.operandText.render m names fuel v) := by
  induction fuel generalizing v path with
  | zero =>
    have := Chain.length_le_size hpath hhas
    omega
  | succ fuel ih =>
    rw [renderOperand, kindOf_eq hv, Module.operandText.render]
    simp only [Option.bind_eq_bind, Option.bind_some]
    cases hk : m.kindOf v with
    | int word => exact wordText_eq h hv
    | aggregate elements =>
      have hfresh : v ∉ path := fun hin => hn v (habove v hin)
      have helement : ∀ e ∈ elements, (do
          return (← typeText m (← typeOf m e)) ++ " " ++ (← renderOperand m names fuel e)) =
            some (m.types.text (m.typeOf e) ++ " " ++
              Module.operandText.render m names fuel e) := by
        intro e he
        have hnests : m.Nests v e := ⟨elements, hk, he⟩
        have hein : m.values.Has e :=
          (h.values v hv).operands e (by rw [Module.operands, hk]; exact he)
        have hrest := ih hein (v :: path) (List.nodup_cons.mpr ⟨hfresh, hpath⟩)
          (by simpa using ⟨hv, hhas⟩)
          (by simpa using ⟨.single hnests, fun a ha => (habove a ha).tail hnests⟩)
          (by simp only [List.length_cons]; omega)
        simp [typeOf_eq hein, typeText_eq h.types (h.values e hein).type, hrest]
      simp only [Option.bind_eq_bind, Option.pure_def] at helement
      simp [typeOf_eq hv, entry_of_value h hv, mapM_eq helement]
    | global g => simp [value_eq hv]
    | _ => rfl

end Intact

theorem numbered_eq {l : List ValueId} (hl : ∀ v ∈ l, m.values.Has v) (next : Nat) :
    numbered m next l = some (m.numbered next l) := by
  induction l generalizing next with
  | nil => rfl
  | cons v rest ih =>
    have hrest := ih fun w hw => hl w (List.mem_cons_of_mem _ hw)
    rw [numbered, value_eq (hl v List.mem_cons_self), Module.numbered]
    simp only [Option.bind_eq_bind, Option.bind_some]
    cases (m.value v).name <;> simp [hrest]

/-- What the texts of values need. -/
structure Legible (m : Module) : Prop where
  intact : m.Intact
  nested : m.Nested

section Legible

variable (h : Legible m)
include h

theorem operandText_eq (names : Module.Scope) (hv : m.values.Has v) :
    operandText m names v = some (m.operandText names v) :=
  renderOperand_eq h.intact h.nested names hv [] .nil (by simp) (by simp) (by simp)

theorem typedText_eq (names : Module.Scope) (hv : m.values.Has v) :
    typedText m names v = some (m.typedText names v) := by
  rw [typedText, typeOf_eq hv, operandText_eq h names hv]
  simp only [Option.bind_eq_bind, Option.bind_some,
    typeText_eq h.intact.types (h.intact.values v hv).type]
  rfl

theorem bodyText_eq (names : Module.Scope) (hv : m.values.Has v)
    (hi : m.instruction? v = some i) :
    bodyText m names (m.typeOf v) i = some (m.bodyText names (m.typeOf v) i) := by
  have hin := h.intact.values v hv
  have hk := Module.kindOf_of_instruction? hi
  have hoperand : ∀ w ∈ i.operands, m.values.Has w := fun w hw =>
    hin.operands w (by rw [Module.operands, hk]; exact hw)
  have htyped : ∀ w ∈ i.operands, typedText m names w = some (m.typedText names w) :=
    fun w hw => typedText_eq h names (hoperand w hw)
  have hbare : ∀ w ∈ i.operands, operandText m names w = some (m.operandText names w) :=
    fun w hw => operandText_eq h names (hoperand w hw)
  have hblock : ∀ b ∈ Module.mentionedBlocks (.instruction i), m.blocks.Has b :=
    fun b hb => hin.blocks b (by rw [hk]; exact hb)
  have hlabel : ∀ b ∈ Module.mentionedBlocks (.instruction i),
      labelText m b = some (m.labelText b) :=
    fun b hb => labelText_eq (hblock b hb)
  have htype : typeText m (m.typeOf v) = some (m.types.text (m.typeOf v)) :=
    typeText_eq h.intact.types hin.type
  unfold bodyText Module.bodyText
  cases i with
  | alloca allocated count =>
    have ht : typeText m allocated = some (m.types.text allocated) :=
      typeText_eq h.intact.types (hin.mentioned allocated (by simp [hk, Module.mentionedTypes]))
    have hc := mapM_eq (l := count.toList) htyped
    simp [ht, hc]
  | elementPtr base indices =>
    have hbase := htyped base List.mem_cons_self
    have hindices := mapM_eq fun w hw => htyped w (List.mem_cons_of_mem base hw)
    have hbaseIn := hoperand base List.mem_cons_self
    have hbaseType := (h.intact.values base hbaseIn).type
    have helement : ∀ t ∈ (m.types.entry (m.typeOf base)).element.toList,
        typeText m t = some (m.types.text t) := fun t ht =>
      typeText_eq h.intact.types ((h.intact.types _ hbaseType).children t (mem_children_of_element ht))
    simp only [Option.bind_eq_bind, typeOf_eq hbaseIn, entry_eq hbaseType, hbase, hindices,
      mapM_eq helement, Option.bind_some]
    cases (m.types.entry (m.typeOf base)).element <;> simp
  | switch value dest cases =>
    have hvalue := htyped value List.mem_cons_self
    have hdest := hlabel dest List.mem_cons_self
    have harm : ∀ c ∈ cases, ((typedText m names c.1).bind fun key =>
        (labelText m c.2).bind fun dest => some ("\n    " ++ Module.commaText [key, dest])) =
        some ("\n    " ++ Module.commaText [m.typedText names c.1, m.labelText c.2]) := by
      intro c hc
      rw [htyped c.1 (List.mem_cons_of_mem _ (List.mem_map_of_mem hc)),
        hlabel c.2 (List.mem_cons_of_mem _ (List.mem_map_of_mem hc))]
      rfl
    simp [hvalue, hdest, mapM_eq harm]
  | phi incoming =>
    have harm : ∀ c ∈ incoming, ((operandText m names c.2).bind fun text =>
        (label m c.1).bind fun source => some ("[ " ++ text ++ ", %" ++ source ++ " ]")) =
        some ("[ " ++ m.operandText names c.2 ++ ", %" ++ m.label c.1 ++ " ]") := by
      intro c hc
      rw [hbare c.2 (List.mem_map_of_mem hc), label_eq (hblock c.1 (List.mem_map_of_mem hc))]
      rfl
    simp [htype, mapM_eq harm]
  | call callee args =>
    have hcallee : functionName m callee = some (m.functionName callee) :=
      functionName_eq (hin.functions callee (by simp [hk, Module.mentionedFunctions]))
    have hargs := mapM_eq (l := args) htyped
    simp [htype, hcallee, hargs]
  | ret value =>
    cases value with
    | none => rfl
    | some value =>
      simp only [Instruction.operands, Option.toList_some, List.forall_mem_cons] at htyped
      simp [htyped]
  | _ =>
    simp only [Instruction.operands, Module.mentionedBlocks, Instruction.successors,
      List.forall_mem_cons] at htyped hbare hlabel
    simp [htype, htyped, hbare, hlabel]

theorem instructionText_eq (names : Module.Scope) (hv : m.values.Has v)
    (hi : m.instruction? v = some i) :
    instructionText m names v i = some (m.instructionText names v i) := by
  rw [instructionText, typeOf_eq hv, Module.instructionText]
  simp only [Option.bind_eq_bind, Option.bind_some, bodyText_eq h names hv hi,
    entry_of_value h.intact hv, operandText_eq h names hv]
  by_cases hvoid : (m.types.entry (m.typeOf v)).kind = .void
  · simp [hvoid, TypeTable.isVoid, TypeTable.kind]
  · simp [hvoid, TypeTable.isVoid, TypeTable.kind]

theorem blockText_eq (names : Module.Scope) (hb : b ∈ m.blocksOf f) :
    blockText m names b = some (m.blockText names b) := by
  have hline : ∀ v ∈ m.instructions b, ((instruction? m v).bind fun i? => match i? with
      | some i => (instructionText m names v i).bind fun text => some ("  " ++ text ++ "\n")
      | none => some "") = some (match m.instruction? v with
        | some i => "  " ++ m.instructionText names v i ++ "\n"
        | none => "") := by
    intro v hv
    have hhas := has_of_mem_instructions h.intact hb hv
    rw [instruction?_eq hhas]
    cases hi : m.instruction? v with
    | none => rfl
    | some i => simp [instructionText_eq h names hhas hi]
  rw [blockText, instructions_eq h.intact hb, label_eq (has_of_mem_blocksOf h.intact hb)]
  simp only [Option.bind_eq_bind, Option.bind_some, Option.pure_def, mapM_eq hline]
  rfl

/-! ### Functions and globals -/

theorem scope_eq (hf : m.HasFunction f) : scope m f = some (m.scope f) := by
  have hresult : ∀ v ∈ m.instructionsOf f, ((typeOf m v).bind fun t => (entry m t).bind fun ty =>
      some !decide (ty.kind = .void)) = some !m.types.isVoid (m.typeOf v) := by
    intro v hv
    have hhas := has_of_mem_instructionsOf h.intact hv
    rw [typeOf_eq hhas]
    simp only [Option.bind_some, entry_of_value h.intact hhas]
    rfl
  have hnamed : namedValues m f = some (m.namedValues f) := by
    rw [namedValues, instructionsOf_eq h.intact hf, function_eq hf]
    simp only [Option.bind_eq_bind, Option.bind_some, Option.pure_def, filterM_eq hresult]
    rfl
  have hhas : ∀ v ∈ m.namedValues f, m.values.Has v := by
    intro v hv
    obtain hv | hv := List.mem_append.mp hv
    · exact (h.intact.functions f hf).params v hv
    · exact has_of_mem_instructionsOf h.intact (List.mem_of_mem_filter hv)
  rw [scope, hnamed]
  simp only [Option.bind_eq_bind, Option.bind_some, numbered_eq hhas]
  rfl

theorem functionText_eq (hf : m.HasFunction f) : functionText m f = some (m.functionText f) := by
  have hin := h.intact.functions f hf
  have htype := entry_eq hin.type
  have hresult : typeText m ((m.types.entry (m.function f).type).result.getD (m.function f).type) =
      some (m.types.text (m.resultType f)) := by
    refine typeText_eq h.intact.types ?_
    cases hty : m.types.entry (m.function f).type with
    | function result params isVariadic =>
      refine (h.intact.types _ hin.type).children _ ?_
      simp [hty, Ty.result, Ty.children]
    | _ => simpa [hty, Ty.result] using hin.type
  have hbody := mapM_eq fun b (hb : b ∈ m.blocksOf f) => blockText_eq h (m.scope f) hb
  have htyped := mapM_eq (l := (m.function f).params) fun v hv =>
    typedText_eq h (m.scope f) (hin.params v hv)
  have hplain := mapM_eq (l := (m.function f).params) fun v hv =>
    typeText_of_value h.intact (hin.params v hv)
  rw [functionText, function_eq hf, scope_eq h hf, blocksOf_eq h.intact hf, Module.functionText]
  simp only [Option.bind_eq_bind, Option.bind_some, htype, hbody, Option.pure_def]
  by_cases hd : (m.function f).chain.length = 0
  · have hdeclared : m.isDeclaration f := decide_eq_true hd
    simp only [Option.bind_eq_bind] at hplain
    simp only [hd, hdeclared, decide_true, if_true, hplain, hresult, Option.bind_some]
    rfl
  · have hdefined : m.isDeclaration f = false := decide_eq_false hd
    simp only [hd, hdefined, decide_false, if_false, Bool.false_eq_true, htyped, hresult,
      Option.bind_some]
    rfl

theorem globalText_eq (hv : m.values.Has v) : globalText m v = some (m.globalText v) := by
  have hin := h.intact.values v hv
  rw [globalText, kindOf_eq hv, Module.globalText, Module.global?]
  simp only [Option.bind_eq_bind, Option.bind_some]
  cases hg : (m.kindOf v).global? with
  | none => rfl
  | some g =>
    have hk : m.kindOf v = .global g := by
      cases hk : m.kindOf v <;> simp_all [ValueKind.global?]
    have htype := typeText_eq h.intact.types
      (hin.mentioned g.valueType (by simp [hk, Module.mentionedTypes]))
    cases hinit : g.initializer with
    | none => simp [operandText_eq h [] hv, htype, hinit]
    | some init =>
      have hinitIn : m.values.Has init :=
        hin.operands init (by simp [Module.operands, hk, ValueKind.operands, hinit])
      simp [operandText_eq h [] hv, operandText_eq h [] hinitIn, htype, hinit]

theorem text_eq : text m = some m.text := by
  have hstruct : ∀ t ∈ m.types.namedStructs, ((typeText m t).bind fun name =>
      (definitionText m t).bind fun body => some (name ++ " = type " ++ body ++ "\n")) =
        some (m.types.text t ++ " = type " ++ m.types.definitionText t ++ "\n") := by
    intro t ht
    have hin := contains_of_mem_handles (List.mem_of_mem_filter ht)
    rw [typeText_eq h.intact.types hin, definitionText_eq h.intact.types hin]
    rfl
  have hfunction : ∀ f ∈ m.liveFunctions, ((functionText m f).bind fun text =>
      some ("\n" ++ text)) = some ("\n" ++ m.functionText f) := by
    intro f hf
    rw [functionText_eq h (has_of_mem_liveFunctions hf)]
    rfl
  rw [text, namedStructs_eq, liveFunctions_eq]
  simp only [Option.bind_eq_bind, Option.bind_some, Option.pure_def, mapM_eq hstruct,
    mapM_eq hfunction, mapM_eq fun v hv => globalText_eq h (h.intact.globals v hv)]
  rfl

end Legible

end Strict

namespace Module

variable {m : Module} {bytes : List UInt8}

theorem checked_of_load (h : load bytes = .ok m) : m.checkIntegrity = .ok () := by
  unfold load at h
  split at h
  · rename_i j _
    unfold ofDocument at h
    split at h
    · simp only [bind, Except.bind, pure, Except.pure, throw, throwThe, MonadExceptOf.throw] at h
      repeat' split at h
      all_goals cases h
      assumption
    · cases h
  · cases h

/-- Every question that is asked of a loaded module, whatever text it came from, has an answer for
which no handle is looked up that is not in its arena, every chain ends and no type and no value is
nested without an end. Only that constants do not hold themselves is not checked. -/
theorem loaded_handles (h : load bytes = .ok m) (hn : m.Nested) :
    Strict.verify m = some m.verify ∧ Strict.text m = some m.text ∧
      (∀ v, m.values.Has v → Strict.users m v = some (m.users v)) ∧
      ∀ f, m.HasFunction f → Strict.callers m f = some (m.callers f) := by
  have hi := checkIntegrity_eq_ok.mp (checked_of_load h)
  exact ⟨Strict.verify_eq hi, Strict.text_eq ⟨hi, hn⟩, fun v _ => Strict.users_eq hi v,
    fun f _ => Strict.callers_eq hi f⟩

/-- Aggregates of earlier values only do not hold themselves. -/
theorem nested_of_earlier (h : ∀ v w, m.Nests v w → w.index < v.index) : m.Nested := by
  have hlt : ∀ v w, Relation.TransGen m.Nests v w → w.index < v.index := by
    intro v w hvw
    induction hvw with
    | single hs => exact h _ _ hs
    | tail _ hs ih => exact (h _ _ hs).trans ih
  exact fun v hv => (hlt v v hv).false

end Module

/-- A module with a struct that points to itself, an aggregate of aggregates, links back that are
wrong and a block on no list. -/
def tangled : Module where
  name := "tangled"
  types := .ofEntries #[.int 32, .struct (some "node") (some [⟨0⟩, ⟨2⟩]) false, .pointer ⟨1⟩,
    .array ⟨0⟩ 2, .array ⟨3⟩ 2, .pointer ⟨4⟩, .function ⟨0⟩ [] false, .void]
  values := #[
    { content := { type := ⟨0⟩, kind := .int 1 } },
    { content := { type := ⟨3⟩, kind := .aggregate [⟨0⟩, ⟨0⟩] } },
    { content := { type := ⟨4⟩, kind := .aggregate [⟨1⟩, ⟨1⟩] } },
    { content := { type := ⟨5⟩, name := some "table"
                   kind := .global { valueType := ⟨4⟩, initializer := some ⟨2⟩ } } },
    { content := { type := ⟨0⟩, kind := .instruction (.binary .add ⟨0⟩ ⟨0⟩) }
      parent := some ⟨0⟩
      prev := some ⟨5⟩
      next := some ⟨5⟩ },
    { content := { type := ⟨7⟩, kind := .instruction (.ret (some ⟨4⟩)) }
      parent := some ⟨0⟩ }]
  blocks := #[
    { content := { name := some "entry", chain := ⟨some ⟨4⟩, some ⟨5⟩, 2⟩ }, parent := some ⟨0⟩ },
    { content := { chain := ⟨some ⟨4⟩, some ⟨0⟩, 9⟩ }, next := some ⟨1⟩ }]
  functions := #[{ name := "main", type := ⟨6⟩, params := [], chain := ⟨some ⟨0⟩, some ⟨0⟩, 1⟩ }]
  functionNames := ⟨[("main", ⟨0⟩)]⟩
  globals := [⟨3⟩]
  globalNames := ⟨[("table", ⟨3⟩)]⟩

theorem tangled_checked : tangled.checkIntegrity = .ok () := by decide +kernel

theorem nested_tangled : tangled.restored.Nested := by
  refine Module.nested_of_earlier ?_
  rintro ⟨v⟩ w ⟨elements, hk, hw⟩
  rcases Nat.lt_or_ge v 6 with hv | hv
  · have hcases : v = 0 ∨ v = 1 ∨ v = 2 ∨ v = 3 ∨ v = 4 ∨ v = 5 := by omega
    rcases hcases with rfl | rfl | rfl | rfl | rfl | rfl <;> cases hk <;> revert w <;> decide
  · have hout : tangled.restored.kindOf ⟨v⟩ = .undef := by
      rw [Module.kindOf, Module.value, Array.getElem?_eq_none hv]
      rfl
    rw [hout] at hk
    cases hk

/-- It is loaded, and read without leaving it. -/
theorem tangled_read : Module.load tangled.store = .ok tangled.restored ∧ tangled.restored.Nested ∧
    Strict.verify tangled.restored = some tangled.restored.verify ∧
    Strict.text tangled.restored = some tangled.restored.text ∧
    Strict.users tangled.restored ⟨4⟩ = some (tangled.restored.users ⟨4⟩) := by
  have hload : Module.load tangled.store = .ok tangled.restored :=
    Module.load_store tangled_checked
      ⟨by decide, by decide, by decide, by decide, by decide, by decide, by decide, by decide,
        by decide⟩ (by decide)
  obtain ⟨hverify, htext, husers, -⟩ := Module.loaded_handles hload nested_tangled
  exact ⟨hload, nested_tangled, hverify, htext, husers ⟨4⟩ (by decide)⟩

end SsaKit
