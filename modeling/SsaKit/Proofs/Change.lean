import SsaKit.Proofs.Typing

/-! The single changes that every operation on a module is made of. -/
namespace SsaKit.Module

variable {m m' : Module} {o : Order} {v : ValueId} {b : BlockId} {f : FunctionId}

/-- A new value at the end of the arena. -/
def pushed (m : Module) (type : TypeId) (kind : ValueKind) : Module :=
  { m with values := m.values.push { content := { type, kind } } }

/-- A change of one value, wherever it is linked. -/
def revalued (m : Module) (v : ValueId) (g : Value → Value) : Module :=
  { m with values := m.values.modifyContent v g }

/-- A global on the list and in the table of names. -/
def listed (m : Module) (name : String) (v : ValueId) : Module :=
  { m with globals := m.globals ++ [v], globalNames := m.globalNames.insert name v }

/-- The table of names without that of a global. -/
def clearedTable (m : Module) (v : ValueId) : SymbolTable ValueId :=
  match (m.value v).name with
  | some old => m.globalNames.erase old
  | none => m.globalNames

/-- A global off the list and out of the table of names. -/
def unlisted (m : Module) (v : ValueId) : Module :=
  { m with globals := m.globals.filter (· ≠ v), globalNames := m.clearedTable v }

/-- The table of names after a global was renamed. -/
def renamedTable (m : Module) (v : ValueId) (name : Option String) : SymbolTable ValueId :=
  match name with
  | some new => (m.clearedTable v).insert new v
  | none => m.clearedTable v

/-- A function at the end of the arena and in the table of names. -/
def declared (m : Module) (name : String) (type : TypeId) (params : List ValueId) : Module :=
  { m with
    functions := m.functions.push { name, type, params }
    functionNames := m.functionNames.insert name ⟨m.functions.size⟩ }

/-- A change of one function that leaves its blocks alone. -/
def refunctioned (m : Module) (f : FunctionId) (g : Function → Function) : Module :=
  { m with functions := m.functions.modify f.index g }

/-- Arguments for a function to come, each one for its position. -/
inductive Argues (f : FunctionId) (m : Module) : List ValueId → Module → Prop
  | nil : Argues f m [] m
  | snoc {params : List ValueId} {m' : Module} (type : TypeId) : Argues f m params m' →
    m'.types.contains type →
    Argues f m (params ++ [⟨m'.values.size⟩]) (m'.pushed type (.argument f params.length))

/-- A new type or a new constant: all that an operation may leave behind when it fails. -/
inductive Prepares : Module → Module → Prop
  | types (m : Module) (t : TypeTable) : m.types.Grows t → Prepares m { m with types := t }
  | constant (m : Module) (type : TypeId) (kind : ValueKind) : kind.isConstant →
    kind.global? = none → m.types.contains type → m.KindFits type kind →
    Prepares m (m.pushed type kind)

/-- Changes that leave the order of blocks and instructions alone. -/
inductive Quiet : Module → Module → Prop
  | prepare (m m' : Module) : Prepares m m' → Quiet m m'
  | instruction (m : Module) (type : TypeId) (i : Instruction) : m.types.contains type →
    m.KindFits type (.instruction i) → Quiet m (m.pushed type (.instruction i))
  | addGlobal (m : Module) (type valueType : TypeId) (name : String) :
    m.types.entry type = .pointer valueType → m.types.isSized valueType →
    m.globalNames.find? name = none →
    Quiet m (((m.pushed type (.global { valueType })).revalued ⟨m.values.size⟩
      fun x => { x with name := some name }).listed name ⟨m.values.size⟩)
  | removeGlobal (m : Module) (v : ValueId) : (m.global? v).isSome → Quiet m (m.unlisted v)
  | rename (m : Module) (v : ValueId) (name : Option String) : m.global? v = none →
    Quiet m (m.revalued v fun x => { x with name })
  | renameGlobal (m : Module) (v : ValueId) (name : Option String) : (m.global? v).isSome →
    (∀ new ∈ name, ∀ w ∈ m.globalNames.find? new, w = v) →
    Quiet m ({ m with globalNames := m.renamedTable v name }.revalued v
      fun x => { x with name })
  | changeGlobal (m : Module) (v : ValueId) (g g' : Global) : m.kindOf v = .global g →
    g'.valueType = g.valueType → m.KindFits (m.typeOf v) (.global g') →
    Quiet m (m.revalued v fun x => { x with kind := .global g' })
  | addIncoming (m : Module) (v : ValueId) (b : BlockId) (w : ValueId)
    (entries : List (BlockId × ValueId)) : m.instruction? v = some (.phi entries) →
    m.typeOf v = m.typeOf w → m.values.Has w → m.blocks.Has b → (∀ e ∈ entries, e.1 ≠ b) →
    Quiet m (m.revalued v fun x =>
      { x with kind := .instruction (.phi (entries ++ [(b, w)])) })
  | dropIncoming (m : Module) (v : ValueId) (b : BlockId) (entries : List (BlockId × ValueId)) :
    m.instruction? v = some (.phi entries) →
    Quiet m (m.revalued v fun x =>
      { x with kind := .instruction (.phi (entries.filter (·.1 ≠ b))) })
  | addFunction (m m' : Module) (name : String) (type : TypeId) (params : List ValueId) :
    Argues ⟨m.functions.size⟩ m params m' → m.functionNames.find? name = none →
    name.isEmpty = false → (m'.declared name type params).FunctionFits ⟨m.functions.size⟩ →
    Quiet m (m'.declared name type params)
  | link (m : Module) (f : FunctionId) (linkage : Linkage) :
    Quiet m (m.refunctioned f fun x => { x with linkage })
  | removeFunction (m : Module) (f : FunctionId) : m.isRemoved f = false →
    Quiet m { m.refunctioned f fun x => { x with isRemoved := true } with
      functionNames := m.functionNames.erase (m.functionName f) }
  | pushBlock (m : Module) (name : Option String) :
    Quiet m { m with blocks := m.blocks.push { content := { name } } }
  | nameBlock (m : Module) (b : BlockId) (name : Option String) :
    Quiet m { m with blocks := m.blocks.modifyContent b fun x => { x with name } }
  | replace (m : Module) (old new : ValueId) : m.values.Has old → m.values.Has new →
    m.typeOf old = m.typeOf new → Quiet m (m.replaced old new)

/-- Changes of the order, which leave everything else alone. -/
inductive Move : Module → Module → Prop
  | pushCode (m : Module) (b : BlockId) (v : ValueId) : m.blocks.Has b → m.values.Has v →
    m.blockOf? v = none → m.isInstruction v →
    Move m (m.withCode b ((m.block b).chain.pushBack m.values b v))
  | insertCode (m : Module) (b : BlockId) (anchor v : ValueId) : m.blockOf? anchor = some b →
    m.values.Has v → m.blockOf? v = none → m.isInstruction v →
    Move m (m.withCode b ((m.block b).chain.insertBefore m.values b anchor v))
  | dropCode (m : Module) (b : BlockId) (v : ValueId) : m.blockOf? v = some b →
    Move m (m.withCode b ((m.block b).chain.unlink m.values v))
  | pushBlocks (m : Module) (f : FunctionId) (b : BlockId) : m.HasFunction f → m.blocks.Has b →
    m.functionOf? b = none →
    Move m (m.withBlocks f ((m.function f).chain.pushBack m.blocks f b))
  | insertBlocks (m : Module) (f : FunctionId) (anchor b : BlockId) :
    m.functionOf? anchor = some f → m.blocks.Has b → m.functionOf? b = none →
    Move m (m.withBlocks f ((m.function f).chain.insertBefore m.blocks f anchor b))
  | dropBlocks (m : Module) (f : FunctionId) (b : BlockId) : m.functionOf? b = some f →
    Move m (m.withBlocks f ((m.function f).chain.unlink m.blocks b))

/-! ### The order -/

theorem sameLinks_push_value (type : TypeId) (kind : ValueKind) :
    Arena.SameLinks m.values (m.pushed type kind).values :=
  Arena.sameLinks_push _

theorem sameLinks_revalued (g : Value → Value) :
    Arena.SameLinks m.values (m.revalued v g).values :=
  Arena.sameLinks_modifyContent (k := v) g

theorem Ordered.of_values (h : m.Ordered o) (hv : Arena.SameLinks m.values m'.values)
    (hb : m'.blocks = m.blocks) (hf : m'.functions = m.functions) : m'.Ordered o :=
  h.congr hv (hb ▸ .refl _) (fun b => by simp [block, hb]) fun f => by simp [function, hf]

theorem Ordered.of_functions (h : m.Ordered o) (hv : m'.values = m.values)
    (hb : m'.blocks = m.blocks)
    (hf : ∀ f, (m'.function f).chain = (m.function f).chain) : m'.Ordered o :=
  h.congr (hv ▸ .refl _) (hb ▸ .refl _) (fun b => by simp [block, hb]) hf

theorem function_refunctioned_chain {g : Function → Function}
    (hg : ∀ x, (g x).chain = x.chain) (k : FunctionId) :
    ((m.refunctioned f g).function k).chain = (m.function k).chain := by
  simp only [function_def, refunctioned, Array.getElem?_modify]
  split
  · cases m.functions[k.index]? <;> simp [hg]
  · rfl

theorem block_push_chain (name : Option String) (k : BlockId) :
    (({ m with blocks := m.blocks.push { content := { name } } } : Module).block k).chain =
      (m.block k).chain := by
  simp only [block_def, Arena.content?, Array.getElem?_push]
  split
  · rename_i hk
    simp only [hk, Array.getElem?_eq_none (Nat.le_refl _)]
    rfl
  · rfl

theorem block_modify_chain {g : Block → Block} (hg : ∀ x, (g x).chain = x.chain) (k : BlockId) :
    (({ m with blocks := m.blocks.modifyContent b g } : Module).block k).chain =
      (m.block k).chain := by
  simp only [block_def, Arena.content?, Arena.modifyContent, Array.getElem?_modify]
  split
  · cases m.blocks[k.index]? <;> simp [hg]
  · rfl

theorem function_declared_chain (name : String) (type : TypeId) (params : List ValueId)
    (k : FunctionId) :
    ((m.declared name type params).function k).chain = (m.function k).chain := by
  simp only [function_def, declared, Array.getElem?_push]
  split
  · rename_i hk
    simp only [hk, Array.getElem?_eq_none (Nat.le_refl _)]
    rfl
  · rfl

theorem Argues.ordered {params : List ValueId} (ha : Argues f m params m') (h : m.Ordered o) :
    m'.Ordered o := by
  induction ha with
  | nil => exact h
  | snoc type _ _ ih => exact ih.of_values (sameLinks_push_value _ _) rfl rfl

theorem Quiet.ordered (hq : Quiet m m') (h : m.Ordered o) : m'.Ordered o := by
  cases hq with
  | prepare _ hp =>
    cases hp with
    | types t _ => exact h.of_values (.refl _) rfl rfl
    | constant type kind _ _ _ _ => exact h.of_values (sameLinks_push_value _ _) rfl rfl
  | instruction type i _ _ => exact h.of_values (sameLinks_push_value _ _) rfl rfl
  | addGlobal type valueType name _ _ _ =>
    have hp : (m.pushed type (.global { valueType })).Ordered o :=
      h.of_values (sameLinks_push_value _ _) rfl rfl
    have hn := hp.of_values (sameLinks_revalued (v := ⟨m.values.size⟩)
      fun x => { x with name := some name }) rfl rfl
    exact hn.of_values (.refl _) rfl rfl
  | removeGlobal v _ => exact h.of_values (.refl _) rfl rfl
  | rename v name _ => exact h.of_values (sameLinks_revalued _) rfl rfl
  | renameGlobal v name _ _ => exact h.of_values (sameLinks_revalued _) rfl rfl
  | changeGlobal v g g' _ _ _ => exact h.of_values (sameLinks_revalued _) rfl rfl
  | addIncoming v b w entries _ _ _ _ _ =>
    exact h.of_values (sameLinks_revalued _) rfl rfl
  | dropIncoming v b entries _ => exact h.of_values (sameLinks_revalued _) rfl rfl
  | addFunction m₁ name type params ha _ _ _ =>
    exact (ha.ordered h).of_functions rfl rfl (function_declared_chain name type params)
  | link f linkage => exact h.of_functions rfl rfl (function_refunctioned_chain fun _ => rfl)
  | removeFunction f _ =>
    exact h.of_functions rfl rfl (function_refunctioned_chain fun _ => rfl)
  | pushBlock name =>
    exact h.congr (.refl _) (Arena.sameLinks_push _) (block_push_chain name) fun _ => rfl
  | nameBlock b name =>
    exact h.congr (.refl _)
      (Arena.sameLinks_modifyContent (k := b) fun x : Block => { x with name })
      (block_modify_chain fun _ => rfl) fun _ => rfl
  | replace old new _ _ _ => exact h.of_values (Arena.sameLinks_map _) rfl rfl

theorem Move.ordered (hm : Move m m') (h : m.Ordered o) : ∃ o', m'.Ordered o' := by
  cases hm with
  | pushCode b v hb hv hn _ => exact ⟨_, h.pushCode hb hv hn⟩
  | insertCode b anchor v ha hv hn _ =>
    obtain ⟨xs, ys, hl⟩ := List.append_of_mem (h.blockOf?_eq_some.mp ha)
    exact ⟨_, h.insertCode hv hn hl⟩
  | dropCode b v hv =>
    obtain ⟨xs, ys, hl⟩ := List.append_of_mem (h.blockOf?_eq_some.mp hv)
    exact ⟨_, h.dropCode hl⟩
  | pushBlocks f b hf hb hn => exact ⟨_, h.pushBlocks hf hb hn⟩
  | insertBlocks f anchor b ha hb hn =>
    obtain ⟨xs, ys, hl⟩ := List.append_of_mem (h.functionOf?_eq_some.mp ha)
    exact ⟨_, h.insertBlocks hb hn hl⟩
  | dropBlocks f b hb =>
    obtain ⟨xs, ys, hl⟩ := List.append_of_mem (h.functionOf?_eq_some.mp hb)
    exact ⟨_, h.dropBlocks hl⟩

/-! ### Types and kinds -/

theorem kindOf_of_instruction? {i : Instruction} (h : m.instruction? v = some i) :
    m.kindOf v = .instruction i := by
  unfold instruction? at h
  cases hk : m.kindOf v <;> simp_all [ValueKind.instruction?]

theorem kindOf_of_constWord? {word : UInt64} (h : m.constWord? v = some word) :
    m.kindOf v = .int word := by
  unfold constWord? at h
  split at h
  · rename_i hk
    rw [hk, Option.some_inj.mp h]
  · cases h

theorem value_of_not_has (h : ¬ m.values.Has v) : m.value v = default := by
  simp [value_def, Arena.content?, Array.getElem?_eq_none (Nat.le_of_not_lt h)]

theorem has_of_kindOf (h : m.kindOf v ≠ .undef) : m.values.Has v := by
  by_contra hn
  exact h (by rw [kindOf, value_of_not_has hn]; rfl)

theorem Sound.operands_has {i : Instruction} (h : m.Sound) (hi : m.instruction? v = some i) :
    ∀ w ∈ i.operands, m.values.Has w := by
  have hk := kindOf_of_instruction? hi
  have hfits := (h.values v (has_of_kindOf (by simp [hk]))).2
  rw [hk] at hfits
  exact hfits.1

theorem Sound.instructionFits {i : Instruction} (h : m.Sound) (hi : m.instruction? v = some i) :
    m.InstructionFits (m.typeOf v) i := by
  have hk := kindOf_of_instruction? hi
  have hfits := (h.values v (has_of_kindOf (by simp [hk]))).2
  rw [hk] at hfits
  exact hfits.2.2

theorem has_pushed {type : TypeId} {kind : ValueKind} :
    (m.pushed type kind).values.Has v ↔ m.values.Has v ∨ v = ⟨m.values.size⟩ := by
  obtain ⟨i⟩ := v
  simp only [Arena.Has, pushed, Array.size_push, Handle.mk.injEq]
  omega

theorem value_pushed {type : TypeId} {kind : ValueKind} (h : m.values.Has v) :
    (m.pushed type kind).value v = m.value v := by
  have : v.index ≠ m.values.size := Nat.ne_of_lt h
  simp [value_def, pushed, Arena.content?, Array.getElem?_push, this]

theorem value_pushed_new (type : TypeId) (kind : ValueKind) :
    (m.pushed type kind).value ⟨m.values.size⟩ = { type, kind } := by
  simp [value_def, pushed, Arena.content?]

theorem value_revalued {g : Value → Value} {w : ValueId} (h : m.values.Has v) :
    (m.revalued v g).value w = if w = v then g (m.value v) else m.value w := by
  obtain ⟨x, hx⟩ := content?_of_has h
  simp only [value_def, revalued, content?_modifyContent h]
  split <;> simp [hx]

theorem size_revalued (m : Module) (v : ValueId) (g : Value → Value) :
    (m.revalued v g).values.size = m.values.size := by
  simp [revalued, Arena.modifyContent]

theorem revalued_of_not_has {g : Value → Value} (h : ¬ m.values.Has v) : m.revalued v g = m := by
  have : m.values.modifyContent v g = m.values := by
    apply Array.ext_getElem?
    intro i
    rw [Arena.modifyContent, Array.getElem?_modify]
    split
    · rename_i hi
      simp [← hi, Array.getElem?_eq_none (Nat.le_of_not_lt h)]
    · rfl
  simp [revalued, this]

theorem value_replaced {old new w : ValueId} :
    (m.replaced old new).value w = replaceIn old new (m.value w) := by
  simp only [value_def, replaced, Arena.content?, Array.getElem?_map]
  cases m.values[w.index]? <;> rfl

/-- Modules that differ in names and tables only. -/
theorem extends_of_arenas (ht : m'.types = m.types) (hv : m'.values = m.values)
    (hb : m'.blocks = m.blocks) (hf : m'.functions = m.functions) : m.Extends m' where
  types := ht ▸ .refl _
  values v h := ⟨hv ▸ h, by simp [typeOf, value, hv], .inl (by simp [kindOf, value, hv])⟩
  blocks _ h := hb ▸ h
  functions _ h := ⟨by simpa [HasFunction, hf] using h, by simp [function, hf],
    by simp [Module.params, function, hf]⟩

theorem extends_pushed (type : TypeId) (kind : ValueKind) : m.Extends (m.pushed type kind) where
  types := .refl _
  values v h := ⟨has_pushed.mpr (.inl h), by rw [typeOf, value_pushed h]; rfl,
    .inl (by rw [kindOf, value_pushed h]; rfl)⟩
  blocks _ h := h
  functions _ h := ⟨h, rfl, rfl⟩

theorem extends_revalued {g : Value → Value} (hg : (g (m.value v)).type = (m.value v).type)
    (hk : (m.value v).kind.Becomes (g (m.value v)).kind) : m.Extends (m.revalued v g) := by
  by_cases hv : m.values.Has v
  · refine ⟨.refl _, fun w hw => ⟨?_, ?_, ?_⟩, fun _ h => h, fun _ h => ⟨h, rfl, rfl⟩⟩
    · simpa [Arena.Has, revalued, Arena.modifyContent] using hw
    · rw [typeOf, value_revalued hv]
      split
      · rename_i he
        rw [he, hg]
        rfl
      · rfl
    · rw [kindOf, kindOf, value_revalued hv]
      split
      · rename_i he
        rw [he]
        exact hk
      · exact .inl rfl
  · rw [revalued_of_not_has hv]
    exact .refl m

theorem extends_refunctioned {g : Function → Function}
    (hg : ∀ x, (g x).type = x.type ∧ (g x).params = x.params) :
    m.Extends (m.refunctioned f g) := by
  refine ⟨.refl _, fun _ h => ⟨h, rfl, .inl rfl⟩, fun _ h => h, fun k h => ?_⟩
  refine ⟨by simpa [HasFunction, refunctioned] using h, ?_⟩
  simp only [params, function_def, refunctioned, Array.getElem?_modify,
    Array.getElem?_eq_getElem h]
  split <;> simp [hg]

theorem replaceIn_type (old new : ValueId) (x : Value) : (replaceIn old new x).type = x.type := by
  unfold replaceIn
  split <;> rfl

theorem replaceIn_becomes (old new : ValueId) (x : Value) :
    x.kind.Becomes (replaceIn old new x).kind := by
  unfold replaceIn
  split
  · rename_i i hi
    exact .inr (.inr ⟨i, _, hi, rfl⟩)
  · exact .inl rfl

theorem Argues.extends {params : List ValueId} (ha : Argues f m params m') : m.Extends m' := by
  induction ha with
  | nil => exact .refl m
  | snoc type _ _ ih => exact ih.trans (extends_pushed type _)

/-- Arguments to come change the arena of values only. -/
theorem Argues.eq_values {params : List ValueId} (ha : Argues f m params m') :
    m' = { m with values := m'.values } := by
  induction ha with
  | nil => rfl
  | snoc type _ _ ih => rw [ih]; rfl

theorem Argues.functions_eq {params : List ValueId} (ha : Argues f m params m') :
    m'.functions = m.functions := by rw [ha.eq_values]

theorem Argues.kindOf_eq {params : List ValueId} (ha : Argues f m params m')
    (hv : m.values.Has v) : m'.kindOf v = m.kindOf v := by
  induction ha with
  | nil => rfl
  | snoc type ha _ ih => rw [kindOf, value_pushed (ha.extends.has hv), ← ih, kindOf]

theorem extends_declared (name : String) (type : TypeId) (params : List ValueId) :
    m.Extends (m.declared name type params) := by
  refine ⟨.refl _, fun _ h => ⟨h, rfl, .inl rfl⟩, fun _ h => h, fun f h => ?_⟩
  have : (m.declared name type params).function f = m.function f := by
    simp [function_def, declared, Array.getElem?_push, Nat.ne_of_lt h]
  exact ⟨by simpa [HasFunction, declared] using Nat.lt_succ_of_lt h, by rw [this],
    by rw [Module.params, this]; rfl⟩

theorem Quiet.extends (hq : Quiet m m') : m.Extends m' := by
  cases hq with
  | prepare _ hp =>
    cases hp with
    | types t ht =>
      exact ⟨ht.extends, fun _ h => ⟨h, rfl, .inl rfl⟩, fun _ h => h, fun _ h => ⟨h, rfl, rfl⟩⟩
    | constant type kind _ _ _ _ => exact extends_pushed type kind
  | instruction type i _ _ => exact extends_pushed _ _
  | addGlobal type valueType name _ _ _ =>
    have hn : (m.pushed type (.global { valueType })).Extends
        ((m.pushed type (.global { valueType })).revalued ⟨m.values.size⟩
          fun x => { x with name := some name }) := extends_revalued rfl (.inl rfl)
    exact ((extends_pushed type _).trans hn).trans (extends_of_arenas rfl rfl rfl rfl)
  | removeGlobal v _ => exact extends_of_arenas rfl rfl rfl rfl
  | rename v name _ => exact extends_revalued rfl (.inl rfl)
  | renameGlobal v name _ _ =>
    have ht : m.Extends { m with globalNames := m.renamedTable v name } :=
      extends_of_arenas rfl rfl rfl rfl
    exact ht.trans (extends_revalued rfl (.inl rfl))
  | changeGlobal v g g' hg ht _ => exact extends_revalued rfl (.inr (.inl ⟨g, g', hg, rfl, ht⟩))
  | addIncoming v b w entries hv _ _ _ _ =>
    exact extends_revalued rfl (.inr (.inr ⟨_, _, kindOf_of_instruction? hv, rfl⟩))
  | dropIncoming v b entries hv =>
    exact extends_revalued rfl (.inr (.inr ⟨_, _, kindOf_of_instruction? hv, rfl⟩))
  | addFunction m₁ name type params ha _ _ _ =>
    exact ha.extends.trans (extends_declared name type params)
  | link f linkage => exact extends_refunctioned fun _ => ⟨rfl, rfl⟩
  | removeFunction f _ =>
    have hf : m.Extends (m.refunctioned f fun x => { x with isRemoved := true }) :=
      extends_refunctioned fun _ => ⟨rfl, rfl⟩
    exact hf.trans (extends_of_arenas rfl rfl rfl rfl)
  | pushBlock name =>
    exact ⟨.refl _, fun _ h => ⟨h, rfl, .inl rfl⟩, fun _ h => (Arena.sameLinks_push _).has _ h,
      fun _ h => ⟨h, rfl, rfl⟩⟩
  | nameBlock b name =>
    exact ⟨.refl _, fun _ h => ⟨h, rfl, .inl rfl⟩,
      fun _ h => (Arena.sameLinks_modifyContent (k := b) _).has _ h, fun _ h => ⟨h, rfl, rfl⟩⟩
  | replace old new _ _ _ =>
    refine ⟨.refl _, fun w h => ⟨(Arena.sameLinks_map _).has w h, ?_, ?_⟩, fun _ h => h,
      fun _ h => ⟨h, rfl, rfl⟩⟩
    · rw [typeOf, value_replaced, replaceIn_type]
      rfl
    · rw [kindOf, kindOf, value_replaced]
      exact replaceIn_becomes old new _

theorem size_withCode {r : Chain .value × Arena .value .block Value}
    (hs : r.2.size = m.values.size) : (m.withCode b r).values.Has v ↔ m.values.Has v := by
  simp [Arena.Has, withCode, hs]

theorem extends_withCode {r : Chain .value × Arena .value .block Value}
    (hs : r.2.size = m.values.size) (hc : ∀ v, r.2.content? v = m.values.content? v) :
    m.Extends (m.withCode b r) where
  types := .refl _
  values v h := by
    have : (m.withCode b r).value v = m.value v := by simp only [value_def, withCode, hc]
    exact ⟨(size_withCode hs).mpr h, by rw [typeOf, this]; rfl, .inl (by rw [kindOf, this]; rfl)⟩
  blocks k h := sameLinks_withCode.has k h
  functions _ h := ⟨h, rfl, rfl⟩

theorem extends_withBlocks {r : Chain .block × Arena .block .function Block}
    (hs : r.2.size = m.blocks.size) : m.Extends (m.withBlocks f r) where
  types := .refl _
  values _ h := ⟨h, rfl, .inl rfl⟩
  blocks k h := by simpa [Arena.Has, withBlocks, hs] using h
  functions k h := by
    refine ⟨by simpa [HasFunction, withBlocks] using h, ?_⟩
    simp only [params, function_def, withBlocks, Array.getElem?_modify,
      Array.getElem?_eq_getElem h]
    split <;> simp

theorem Move.extends (hm : Move m m') : m.Extends m' := by
  cases hm with
  | pushCode b v _ _ _ _ =>
    exact extends_withCode Chain.size_pushBack fun _ => Chain.content?_pushBack
  | insertCode b anchor v _ _ _ _ =>
    exact extends_withCode Chain.size_insertBefore fun _ => Chain.content?_insertBefore
  | dropCode b v _ => exact extends_withCode Chain.size_unlink fun _ => Chain.content?_unlink
  | pushBlocks f b _ _ _ => exact extends_withBlocks Chain.size_pushBack
  | insertBlocks f anchor b _ _ _ => exact extends_withBlocks Chain.size_insertBefore
  | dropBlocks f b _ => exact extends_withBlocks Chain.size_unlink

theorem Move.kindOf_eq (hm : Move m m') (v : ValueId) : m'.kindOf v = m.kindOf v := by
  cases hm <;> simp [kindOf, value_def, withCode, withBlocks]

/-! ### Typing is kept -/

theorem Sound.pushed (h : m.Sound) {type : TypeId} {kind : ValueKind}
    (hc : m.types.contains type) (hk : m.KindFits type kind) : (m.pushed type kind).Sound := by
  have hx := extends_pushed (m := m) type kind
  refine h.of_extends hx h.types (fun v hv => ?_) fun f hf => .inl hf
  obtain hv | rfl := has_pushed.mp hv
  · exact .inl ⟨hv, by rw [kindOf, value_pushed hv]; rfl⟩
  · right
    rw [typeOf, kindOf, value_pushed_new]
    exact ⟨hc, hx.kindFits hc hk⟩

theorem Sound.revalued (h : m.Sound) {g : Value → Value} (hx : m.Extends (m.revalued v g))
    (hk : m.values.Has v → m.KindFits (m.typeOf v) (g (m.value v)).kind) :
    (m.revalued v g).Sound := by
  refine h.of_extends hx h.types (fun w hw => ?_) fun f hf => .inl hf
  have hold : m.values.Has w := by
    simpa [Arena.Has, Module.revalued, Arena.modifyContent] using hw
  by_cases hwv : w = v
  · subst hwv
    right
    obtain ⟨hc, -⟩ := h.values w hold
    rw [hx.typeOf_eq hold, kindOf, value_revalued hold, if_pos rfl]
    exact ⟨hc, hx.kindFits hc (hk hold)⟩
  · left
    refine ⟨hold, ?_⟩
    by_cases hv : m.values.Has v
    · rw [kindOf, value_revalued hv, if_neg hwv]
      rfl
    · rw [revalued_of_not_has hv]

theorem Sound.of_arenas (h : m.Sound) (ht : m'.types = m.types) (hv : m'.values = m.values)
    (hb : m'.blocks = m.blocks) (hf : m'.functions = m.functions) : m'.Sound := by
  refine h.of_extends (extends_of_arenas ht hv hb hf) (ht ▸ h.types) (fun v hv' => .inl ?_)
    fun f hf' => .inl (by simpa [HasFunction, hf] using hf')
  exact ⟨hv ▸ hv', by simp [kindOf, value, hv]⟩

/-- A change that keeps all values and adds no function keeps a module sound. -/
theorem Sound.of_values (h : m.Sound) (hx : m.Extends m') (ht : m'.types = m.types)
    (hv : ∀ v, m'.value v = m.value v) (hs : m'.values.size = m.values.size)
    (hf : m'.functions.size = m.functions.size) : m'.Sound := by
  refine h.of_extends hx (ht ▸ h.types) (fun v hv' => .inl ⟨?_, ?_⟩) fun f hf' => .inl ?_
  · simpa [Arena.Has, hs] using hv'
  · rw [kindOf, hv]
    rfl
  · simpa [HasFunction, hf] using hf'

theorem Sound.replaced (h : m.Sound) {old new : ValueId} (hn : m.values.Has new)
    (ht : m.typeOf old = m.typeOf new) (hx : m.Extends (m.replaced old new)) :
    (m.replaced old new).Sound := by
  refine h.of_extends hx h.types (fun v hv => .inr ?_) fun f hf => .inl hf
  have hold : m.values.Has v := by simpa [Arena.Has, Module.replaced] using hv
  obtain ⟨hc, hk⟩ := h.values v hold
  rw [hx.typeOf_eq hold]
  refine ⟨hc, hx.kindFits hc ?_⟩
  rw [kindOf, value_replaced]
  rw [kindOf] at hk
  unfold replaceIn
  split
  · rename_i i hi
    rw [hi] at hk
    obtain ⟨ho, hb, hf⟩ := hk
    refine ⟨fun w hw => ?_, ?_, hf.mapOperands fun w _ => ?_⟩
    · rw [Instruction.operands_mapOperands] at hw
      obtain ⟨u, hu, rfl⟩ := List.mem_map.mp hw
      split
      · exact hn
      · exact ho u hu
    · rwa [Instruction.blocks_mapOperands]
    · split
      · rename_i he
        rw [he, ht]
      · rfl
  · exact hk

theorem Argues.sound {params : List ValueId} (ha : Argues f m params m') (h : m.Sound) :
    m'.Sound := by
  induction ha with
  | nil => exact h
  | snoc type _ hc ih => exact ih.pushed hc trivial

theorem Quiet.sound (hq : Quiet m m') (h : m.Sound) : m'.Sound := by
  have hx := hq.extends
  cases hq with
  | prepare _ hp =>
    cases hp with
    | types t ht =>
      exact h.of_extends hx (h.types.grows ht) (fun v hv => .inl ⟨hv, rfl⟩) fun f hf => .inl hf
    | constant type kind _ _ hc hk => exact h.pushed hc hk
  | instruction type i hc hk => exact h.pushed hc hk
  | addGlobal type valueType name he hs _ =>
    have hc : m.types.contains type := by
      by_contra hn
      simp [TypeTable.entry_of_not_contains hn] at he
    have hp : (m.pushed type (.global { valueType })).Sound :=
      h.pushed hc ⟨he, hs, by simp⟩
    have hn := hp.revalued (v := ⟨m.values.size⟩) (g := fun x => { x with name := some name })
      (extends_revalued rfl (.inl rfl)) fun hv => (hp.values _ hv).2
    exact hn.of_arenas rfl rfl rfl rfl
  | removeGlobal v _ => exact h.of_arenas rfl rfl rfl rfl
  | rename v name _ => exact h.revalued hx fun hv => (h.values v hv).2
  | renameGlobal v name _ _ =>
    have ht : Sound { m with globalNames := m.renamedTable v name } := h.of_arenas rfl rfl rfl rfl
    exact ht.revalued (extends_revalued rfl (.inl rfl)) fun hv => (ht.values v hv).2
  | changeGlobal v g g' _ _ hk => exact h.revalued hx fun _ => hk
  | addIncoming v b w entries hv ht hw hb _ =>
    refine h.revalued hx fun hhas => ?_
    have hk := (h.values v hhas).2
    rw [kindOf_of_instruction? hv] at hk
    obtain ⟨ho, hbl, hi⟩ := hk
    refine ⟨fun x hx => ?_, fun x hx => ?_, fun e he => ?_⟩
    · simp only [Instruction.operands, List.map_append, List.mem_append, List.map_cons,
        List.map_nil, List.mem_singleton] at hx
      obtain hx | rfl := hx
      · exact ho x hx
      · exact hw
    · simp only [Instruction.blocks, List.map_append, List.mem_append, List.map_cons,
        List.map_nil, List.mem_singleton] at hx
      obtain hx | rfl := hx
      · exact hbl x hx
      · exact hb
    · obtain he | he := List.mem_append.mp he
      · exact hi e he
      · rw [List.mem_singleton.mp he, ht]
  | dropIncoming v b entries hv =>
    refine h.revalued hx fun hhas => ?_
    have hk := (h.values v hhas).2
    rw [kindOf_of_instruction? hv] at hk
    obtain ⟨ho, hbl, hi⟩ := hk
    refine ⟨fun x hx => ho x ?_, fun x hx => hbl x ?_, fun e he => hi e (List.mem_of_mem_filter he)⟩
    · obtain ⟨e, he, rfl⟩ := List.mem_map.mp hx
      exact List.mem_map_of_mem (List.mem_of_mem_filter he)
    · obtain ⟨e, he, rfl⟩ := List.mem_map.mp hx
      exact List.mem_map_of_mem (List.mem_of_mem_filter he)
  | addFunction m₁ name type params ha _ _ hf =>
    have hadded := extends_declared (m := m₁) name type params
    refine (ha.sound h).of_extends hadded (ha.sound h).types (fun v hv => .inl ⟨hv, rfl⟩)
      fun f hf' => ?_
    by_cases hold : m₁.HasFunction f
    · exact .inl hold
    · right
      have : f = ⟨m.functions.size⟩ := by
        obtain ⟨i⟩ := f
        simp only [HasFunction, declared, Array.size_push, Handle.mk.injEq, ha.functions_eq]
          at hf' hold ⊢
        omega
      rwa [this]
  | link f linkage =>
    exact h.of_values hx rfl (fun _ => rfl) rfl (by simp [refunctioned])
  | removeFunction f _ =>
    exact h.of_values hx rfl (fun _ => rfl) rfl (by simp [refunctioned])
  | pushBlock name => exact h.of_values hx rfl (fun _ => rfl) rfl rfl
  | nameBlock b name => exact h.of_values hx rfl (fun _ => rfl) rfl rfl
  | replace old new ho hn ht => exact h.replaced hn ht hx

theorem Move.sound (hm : Move m m') (h : m.Sound) : m'.Sound := by
  have hx := hm.extends
  cases hm with
  | pushCode b v _ _ _ _ =>
    exact h.of_values hx rfl (fun w => by simp [value_def, withCode]) (by simp [withCode]) rfl
  | insertCode b anchor v _ _ _ _ =>
    exact h.of_values hx rfl (fun w => by simp [value_def, withCode]) (by simp [withCode]) rfl
  | dropCode b v _ =>
    exact h.of_values hx rfl (fun w => by simp [value_def, withCode]) (by simp [withCode]) rfl
  | pushBlocks f b _ _ _ =>
    exact h.of_values hx rfl (fun _ => rfl) rfl (by simp [withBlocks])
  | insertBlocks f anchor b _ _ _ =>
    exact h.of_values hx rfl (fun _ => rfl) rfl (by simp [withBlocks])
  | dropBlocks f b _ =>
    exact h.of_values hx rfl (fun _ => rfl) rfl (by simp [withBlocks])

/-! ### Runs of changes -/

abbrev Prepared : Module → Module → Prop := Relation.ReflTransGen Prepares

abbrev Quieted : Module → Module → Prop := Relation.ReflTransGen Quiet

/-- One change of either sort. -/
def Change (m m' : Module) : Prop := Quiet m m' ∨ Move m m'

abbrev Changed : Module → Module → Prop := Relation.ReflTransGen Change

theorem Prepared.quieted (h : Prepared m m') : Quieted m m' :=
  Relation.ReflTransGen.mono Quiet.prepare _ _ h

theorem Quieted.changed (h : Quieted m m') : Changed m m' :=
  Relation.ReflTransGen.mono (fun _ _ => Or.inl) _ _ h

theorem Quieted.ordered (hq : Quieted m m') (h : m.Ordered o) : m'.Ordered o := by
  induction hq with
  | refl => exact h
  | tail _ hs ih => exact hs.ordered ih

theorem Changed.ordered (hc : Changed m m') (h : m.Ordered o) : ∃ o', m'.Ordered o' := by
  induction hc with
  | refl => exact ⟨o, h⟩
  | tail _ hs ih =>
    obtain ⟨o', ih⟩ := ih
    obtain hs | hs := hs
    · exact ⟨o', hs.ordered ih⟩
    · exact hs.ordered ih

theorem Changed.extends (hc : Changed m m') : m.Extends m' := by
  induction hc with
  | refl => exact .refl m
  | tail _ hs ih => exact ih.trans (hs.elim Quiet.extends Move.extends)

theorem Changed.sound (hc : Changed m m') (h : m.Sound) : m'.Sound := by
  induction hc with
  | refl => exact h
  | tail _ hs ih =>
    obtain hs | hs := hs
    · exact hs.sound ih
    · exact hs.sound ih

theorem Quieted.extends (h : Quieted m m') : m.Extends m' := h.changed.extends

theorem Prepared.extends (h : Prepared m m') : m.Extends m' := h.quieted.extends

end SsaKit.Module
