import SsaKit.Integrity
import SsaKit.Proofs.Verification

/-! Exactly what the check of a module from outside asks for. -/
namespace SsaKit

namespace Chain

variable {kind owner : Entity} {α : Type} {a : Arena kind owner α} {c : Chain kind}
  {step : Handle kind → Option (Handle kind)} {start : Option (Handle kind)}
  {l l' : List (Handle kind)} {n : Nat}

/-- Following the successors from the head ends at the tail, after as many nodes as recorded. -/
structure Runs (c : Chain kind) (a : Arena kind owner α) (l : List (Handle kind)) : Prop where
  walk : Walk a.next? c.first l
  length : l.length = c.length
  last : l.getLast? = c.last
  fits : l.length ≤ a.size

theorem Walk.eq (h : Walk step start l) (h' : Walk step start l') : l = l' := by
  induction h generalizing l' with
  | stop =>
    cases h'
    rfl
  | go k rest _ ih =>
    cases h' with
    | go _ rest' h' => rw [ih h']

theorem Walk.start_eq (h : Walk step start l) : start = l.head? := by
  cases h <;> rfl

/-- What follows a member is walked from that member's successor. -/
theorem Walk.suffix (h : Walk step start l) {xs ys : List (Handle kind)} {k : Handle kind}
    (hl : l = xs ++ k :: ys) : Walk step (step k) ys := by
  induction h generalizing xs with
  | stop => simp at hl
  | go j rest hw ih =>
    cases xs with
    | nil =>
      obtain ⟨rfl, rfl⟩ := List.cons.inj hl
      exact hw
    | cons x xs => exact ih (List.cons.inj hl).2

/-- A walk that ends meets no node twice, or it would go round for ever. -/
theorem Walk.nodup (h : Walk step start l) : l.Nodup := by
  induction h with
  | stop => exact .nil
  | go k rest hw ih =>
    refine List.nodup_cons.mpr ⟨fun hk => ?_, ih⟩
    obtain ⟨xs, ys, rfl⟩ := List.append_of_mem hk
    have hlength := congrArg List.length (hw.eq (hw.suffix rfl))
    simp only [List.length_append, List.length_cons] at hlength
    omega

theorem walk_of_follow (h : (follow step (n + 1) start).length ≤ n) :
    Walk step start (follow step (n + 1) start) := by
  induction n generalizing start with
  | zero =>
    cases start with
    | none => exact .stop
    | some k => simp [follow] at h
  | succ n ih =>
    cases start with
    | none => exact .stop
    | some k =>
      rw [follow] at h ⊢
      exact .go k _ (ih (by simpa using h))

theorem members?_eq_some : c.members? a = some l ↔ c.Runs a l := by
  unfold members?
  constructor
  · intro h
    dsimp only at h
    split at h
    · rename_i hseen
      obtain rfl := Option.some_inj.mp h
      obtain ⟨hlength, hsize, hlast⟩ := hseen
      exact ⟨walk_of_follow (by omega), hlength, hlast, hsize⟩
    · cases h
  · intro h
    have hseen : follow a.next? (min a.size c.length + 1) c.first = l :=
      follow_of_walk h.walk (by have := h.length; have := h.fits; omega)
    dsimp only
    rw [hseen, if_pos ⟨h.length, h.fits, h.last⟩]

theorem Runs.toList_eq (h : c.Runs a l) : c.toList a = l :=
  follow_of_walk h.walk h.fits

theorem Holds.runs (h : c.Holds a l) : c.Runs a l :=
  ⟨h.walk_next, h.length.symm, h.last.symm, length_le_size h.nodup h.has⟩

end Chain

namespace Module

variable {m : Module} {v : ValueId} {b : BlockId} {f : FunctionId} {α : Type}

/-! ### Guards -/

@[simp] theorem broken_bind {index : Nat} {message : String} (next : Unit → Except Error Unit) :
    (broken index message >>= next) = broken index message := rfl

@[simp] theorem guard_eq_ok {p : Prop} [Decidable p] {step : Except Error Unit} {index : Nat}
    {message : String} :
    (if p then step else broken index message) = .ok () ↔ p ∧ step = .ok () := by
  by_cases hp : p <;> simp [hp, broken]

@[simp] theorem pure_eq_ok : (pure () : Except Error Unit) = .ok () := rfl

@[simp] theorem then_eq_ok {step rest : Except Error Unit} :
    (step >>= fun _ => rest) = .ok () ↔ step = .ok () ∧ rest = .ok () := by
  cases step <;> simp [bind, Except.bind]

theorem checkEach_eq_ok {entries : Array α} {check : Nat → α → Except Error Unit} :
    checkEach entries check = .ok () ↔ ∀ i (h : i < entries.size), check i entries[i] = .ok () := by
  unfold checkEach
  rw [forM_eq_ok]
  constructor
  · intro h i hi
    exact h (entries[i], i) (List.mem_zipIdx_iff_getElem?.mpr (by simp [hi]))
  · rintro h ⟨a, i⟩ hmem
    obtain ⟨hi, rfl⟩ := Array.getElem?_eq_some_iff.mp (by simpa using List.mem_zipIdx_iff_getElem?.mp hmem)
    exact h i hi

/-! ### Types -/

end Module

namespace TypeTable

variable {t : TypeTable} {id : TypeId}

/-- An entry refers to types of the table, and to earlier ones unless it is a named struct. -/
structure EntryIntact (t : TypeTable) (id : TypeId) : Prop where
  width : ∀ bits, t.entry id = .int bits → 0 < bits ∧ bits ≤ maxIntBits
  children : ∀ c ∈ (t.entry id).children, t.contains c
  earlier : (t.entry id).structName = none → ∀ c ∈ (t.entry id).children, c.index < id.index

/-- All entries refer to types of the table. -/
def Intact (t : TypeTable) : Prop := ∀ id, t.contains id → t.EntryIntact id

theorem entryIntact_iff (hid : t.contains id) : t.EntryIntact id ↔
    (∀ bits, t.entry id = .int bits → 0 < bits ∧ bits ≤ maxIntBits) ∧
    ∀ c ∈ (t.entry id).children,
      c.index < if (t.entry id).structName.isSome then t.size else id.index := by
  have hlt : id.index < t.size := by simpa [contains] using hid
  constructor
  · refine fun h => ⟨h.width, fun c hc => ?_⟩
    split
    · simpa [contains] using h.children c hc
    · rename_i hn
      exact h.earlier (by simpa using hn) c hc
  · rintro ⟨hwidth, hchildren⟩
    refine ⟨hwidth, fun c hc => ?_, fun hn c hc => ?_⟩
    · have hbound := hchildren c hc
      have : c.index < t.size := by split at hbound <;> omega
      simpa [contains] using this
    · simpa [hn] using hchildren c hc

/-- A search for something to refuse finds nothing. -/
theorem find?_throw_eq_ok {l : List TypeId} {p : TypeId → Bool} (error : TypeId → Error) :
    (match l.find? p with
      | some bad => throw (error bad)
      | none => return () : Except Error Unit) = .ok () ↔ ∀ c ∈ l, ¬ p c := by
  rw [← List.find?_eq_none]
  cases l.find? p with
  | none => exact iff_of_true rfl rfl
  | some bad => exact iff_of_false (fun h => by cases h) (fun h => by cases h)

theorem checkHandles_eq_ok : t.checkHandles = .ok () ↔ t.Intact := by
  have hall : t.Intact ↔ ∀ index ∈ List.range t.size, t.EntryIntact ⟨index⟩ :=
    ⟨fun h index hi => h ⟨index⟩ (by simpa [contains] using hi),
      fun h id hid => h id.index (by simpa [contains] using hid)⟩
  unfold checkHandles
  rw [Module.forM_eq_ok, hall]
  refine forall₂_congr fun index hindex => ?_
  rw [entryIntact_iff (by simpa [contains] using hindex)]
  dsimp only
  generalize t.entry ⟨index⟩ = ty
  have hchildren := find?_throw_eq_ok (l := ty.children)
    (p := fun c => (if ty.structName.isSome then t.size else index) ≤ c.index)
    fun bad => .index bad.index s!"type {index} refers to a type outside the registry"
  simp only [decide_eq_true_eq, Nat.not_le] at hchildren
  cases ty with
  | int bits =>
    dsimp only
    split
    · rename_i hbad
      refine iff_of_false (fun h => by cases h) fun h => ?_
      have hin := h.1 bits rfl
      omega
    · rename_i hgood
      refine hchildren.trans ⟨fun h => ⟨fun k hk => ?_, h⟩, fun h => h.2⟩
      obtain rfl := Ty.int.inj hk
      omega
  | _ => exact hchildren.trans ⟨fun h => ⟨by simp, h⟩, fun h => h.2⟩

end TypeTable

namespace Module

variable {m : Module} {v : ValueId} {b : BlockId} {f : FunctionId} {α : Type}

/-! ### Values, blocks and functions -/

/-- The links of a node lead to owners and nodes that there are. -/
structure LinksIntact {kind owner : Entity} (a : Arena kind owner α) (has : Handle owner → Prop)
    (k : Handle kind) : Prop where
  parent : ∀ q, a.parent? k = some q → has q
  prev : ∀ j, a.prev? k = some j → a.Has j
  next : ∀ j, a.next? k = some j → a.Has j

/-- Everything that a value mentions is at hand, and an argument stands where it is listed. -/
structure ValueIntact (m : Module) (v : ValueId) : Prop where
  type : m.types.contains (m.typeOf v)
  mentioned : ∀ t ∈ mentionedTypes (m.kindOf v), m.types.contains t
  operands : ∀ w ∈ m.operands v, m.values.Has w
  blocks : ∀ b ∈ mentionedBlocks (m.kindOf v), m.blocks.Has b
  functions : ∀ f ∈ mentionedFunctions (m.kindOf v), m.HasFunction f
  argument : ∀ f n, m.kindOf v = .argument f n → (m.params f)[n]? = some v
  links : LinksIntact m.values m.blocks.Has v

/-- The ends of a chain are in the arena. -/
structure EndsIntact {kind owner : Entity} (c : Chain kind) (a : Arena kind owner α) : Prop where
  first : ∀ k, c.first = some k → a.Has k
  last : ∀ k, c.last = some k → a.Has k

structure BlockIntact (m : Module) (b : BlockId) : Prop where
  links : LinksIntact m.blocks m.HasFunction b
  ends : EndsIntact (m.block b).chain m.values

/-- A function has a function type with as many parameters as there are values for them. -/
structure FunctionIntact (m : Module) (f : FunctionId) : Prop where
  type : m.types.contains (m.function f).type
  kind : m.types.kind (m.function f).type = .function
  arity : (m.params f).length = ((m.types.entry (m.function f).type).params.getD []).length
  params : ∀ v ∈ m.params f, m.values.Has v
  ends : EndsIntact (m.function f).chain m.blocks

/-- The code of a block is a list of instructions that name the block as their owner. -/
def CodeIntact (m : Module) (b : BlockId) : Prop :=
  ∃ code, (m.block b).chain.Runs m.values code ∧
    ∀ v ∈ code, m.blockOf? v = some b ∧ m.isInstruction v

/-- The body of a function is a list of blocks that name the function as their owner. -/
def BodyIntact (m : Module) (f : FunctionId) : Prop :=
  ∃ body, (m.function f).chain.Runs m.blocks body ∧
    ∀ b ∈ body, m.functionOf? b = some f ∧ m.CodeIntact b

/-- Whatever a module speaks of is in it. -/
structure Intact (m : Module) : Prop where
  types : m.types.Intact
  values : ∀ v, m.values.Has v → m.ValueIntact v
  blocks : ∀ b, m.blocks.Has b → m.BlockIntact b
  functions : ∀ f, m.HasFunction f → m.FunctionIntact f
  globals : ∀ v ∈ m.globals, m.values.Has v
  globalNames : ∀ v ∈ m.globalNames.values, m.values.Has v
  functionNames : ∀ f ∈ m.functionNames.values, m.HasFunction f
  bodies : ∀ f, m.HasFunction f → m.BodyIntact f

theorem hasValue_iff : m.hasValue v ↔ m.values.Has v := decide_eq_true_iff

theorem hasBlock_iff : m.hasBlock b ↔ m.blocks.Has b := decide_eq_true_iff

theorem hasFunction_iff : m.hasFunction f ↔ m.HasFunction f := decide_eq_true_iff

theorem linksIntact_iff {kind owner : Entity} {a : Arena kind owner α} {has : Handle owner → Prop}
    {k : Handle kind} (hk : k.index < a.size) : LinksIntact a has k ↔
      (∀ q, a[k.index].parent = some q → has q) ∧ (∀ j, a[k.index].prev = some j → a.Has j) ∧
        ∀ j, a[k.index].next = some j → a.Has j := by
  have hparent : a.parent? k = a[k.index].parent := by simp [Arena.parent?, hk]
  have hprev : a.prev? k = a[k.index].prev := by simp [Arena.prev?, hk]
  have hnext : a.next? k = a[k.index].next := by simp [Arena.next?, hk]
  rw [← hparent, ← hprev, ← hnext]
  exact ⟨fun h => ⟨h.parent, h.prev, h.next⟩, fun h => ⟨h.1, h.2.1, h.2.2⟩⟩

theorem checkValue_eq_ok (hv : v.index < m.values.size) :
    m.checkValue v.index m.values[v.index] = .ok () ↔ m.ValueIntact v := by
  have hvalue : m.value v = m.values[v.index].content := by simp [value, hv]
  have hlisted : m.isListedArgument v (m.value v).kind ↔
      ∀ f n, m.kindOf v = .argument f n → (m.params f)[n]? = some v := by
    unfold isListedArgument kindOf
    split <;> simp_all
  unfold checkValue
  simp only [broken_bind, guard_eq_ok]
  rw [← hvalue, hlisted]
  simp only [List.all_eq_true, List.mem_cons, forall_eq_or_imp, Bool.and_eq_true, hasValue_iff,
    hasBlock_iff, hasFunction_iff, Option.all_eq_true]
  constructor
  · rintro ⟨⟨htype, hmentioned⟩, ⟨⟨hoperands, hblocks⟩, hfunctions⟩, hargument, ⟨⟨hp, hq⟩, hn⟩, -⟩
    exact ⟨htype, hmentioned, hoperands, hblocks, hfunctions, hargument,
      (linksIntact_iff hv).mpr ⟨hp, hq, hn⟩⟩
  · intro h
    obtain ⟨hp, hq, hn⟩ := (linksIntact_iff hv).mp h.links
    exact ⟨⟨h.type, h.mentioned⟩, ⟨⟨h.operands, h.blocks⟩, h.functions⟩, h.argument,
      ⟨⟨hp, hq⟩, hn⟩, rfl⟩

theorem checkBlockLinks_eq_ok (hb : b.index < m.blocks.size) :
    m.checkBlockLinks b.index m.blocks[b.index] = .ok () ↔ m.BlockIntact b := by
  have hblock : m.block b = m.blocks[b.index].content := by simp [block, hb]
  unfold checkBlockLinks
  simp only [guard_eq_ok]
  rw [← hblock]
  simp only [Bool.and_eq_true, hasValue_iff, hasBlock_iff, hasFunction_iff, Option.all_eq_true]
  constructor
  · rintro ⟨⟨⟨⟨⟨hp, hq⟩, hn⟩, hfirst⟩, hlast⟩, -⟩
    exact ⟨(linksIntact_iff hb).mpr ⟨hp, hq, hn⟩, ⟨hfirst, hlast⟩⟩
  · intro h
    obtain ⟨hp, hq, hn⟩ := (linksIntact_iff hb).mp h.links
    exact ⟨⟨⟨⟨⟨hp, hq⟩, hn⟩, h.ends.first⟩, h.ends.last⟩, rfl⟩

theorem checkFunctionData_eq_ok :
    m.checkFunctionData f.index (m.function f) = .ok () ↔ m.FunctionIntact f := by
  unfold checkFunctionData
  simp only [broken_bind, guard_eq_ok, Bool.and_eq_true, List.all_eq_true, hasValue_iff,
    hasBlock_iff, Option.all_eq_true, decide_eq_true_eq]
  constructor
  · rintro ⟨⟨htype, hkind⟩, ⟨harity, hparams⟩, ⟨hfirst, hlast⟩, -⟩
    exact ⟨htype, hkind, harity, hparams, hfirst, hlast⟩
  · intro h
    exact ⟨⟨h.type, h.kind⟩, ⟨h.arity, h.params⟩, ⟨h.ends.first, h.ends.last⟩, rfl⟩

theorem checkMembers_eq_ok : m.checkMembers b = .ok () ↔ m.CodeIntact b := by
  unfold checkMembers CodeIntact
  simp only [← Chain.members?_eq_some]
  cases (m.block b).chain.members? m.values with
  | none => simp [broken]
  | some code =>
    dsimp only
    simp only [forM_eq_ok, guard_eq_ok, pure_eq_ok, and_true, Bool.and_eq_true, decide_eq_true_eq,
      Option.some_inj, exists_eq_left']

theorem checkBody_eq_ok : m.checkBody f.index (m.function f) = .ok () ↔ m.BodyIntact f := by
  unfold checkBody BodyIntact
  simp only [← Chain.members?_eq_some]
  cases (m.function f).chain.members? m.blocks with
  | none => simp [broken]
  | some body =>
    dsimp only
    simp only [forM_eq_ok, broken_bind, guard_eq_ok, checkMembers_eq_ok, Option.some_inj,
      exists_eq_left']

theorem checkSymbols_eq_ok : m.checkSymbols = .ok () ↔ (∀ v ∈ m.globals, m.values.Has v) ∧
    (∀ v ∈ m.globalNames.values, m.values.Has v) ∧
    ∀ f ∈ m.functionNames.values, m.HasFunction f := by
  unfold checkSymbols
  simp only [guard_eq_ok, pure_eq_ok, and_true, Bool.and_eq_true, List.all_eq_true, hasValue_iff,
    hasFunction_iff, and_assoc]

theorem checkIntegrity_eq_ok : m.checkIntegrity = .ok () ↔ m.Intact := by
  have hfunction {i : Nat} (hi : i < m.functions.size) : m.functions[i] = m.function ⟨i⟩ := by
    simp [function, hi]
  have hvalues : (∀ i (h : i < m.values.size), m.checkValue i m.values[i] = .ok ()) ↔
      ∀ v, m.values.Has v → m.ValueIntact v :=
    ⟨fun h v hv => (checkValue_eq_ok hv).mp (h v.index hv),
      fun h i hi => (checkValue_eq_ok (v := ⟨i⟩) hi).mpr (h ⟨i⟩ hi)⟩
  have hblocks : (∀ i (h : i < m.blocks.size), m.checkBlockLinks i m.blocks[i] = .ok ()) ↔
      ∀ b, m.blocks.Has b → m.BlockIntact b :=
    ⟨fun h b hb => (checkBlockLinks_eq_ok hb).mp (h b.index hb),
      fun h i hi => (checkBlockLinks_eq_ok (b := ⟨i⟩) hi).mpr (h ⟨i⟩ hi)⟩
  have hfunctions : (∀ i (h : i < m.functions.size),
      m.checkFunctionData i m.functions[i] = .ok ()) ↔
      ∀ f, m.HasFunction f → m.FunctionIntact f :=
    ⟨fun h f hf => checkFunctionData_eq_ok.mp (hfunction hf ▸ h f.index hf),
      fun h i hi => hfunction hi ▸ checkFunctionData_eq_ok.mpr (h ⟨i⟩ hi)⟩
  have hbodies : (∀ i (h : i < m.functions.size), m.checkBody i m.functions[i] = .ok ()) ↔
      ∀ f, m.HasFunction f → m.BodyIntact f :=
    ⟨fun h f hf => checkBody_eq_ok.mp (hfunction hf ▸ h f.index hf),
      fun h i hi => hfunction hi ▸ checkBody_eq_ok.mpr (h ⟨i⟩ hi)⟩
  unfold checkIntegrity
  simp only [then_eq_ok, TypeTable.checkHandles_eq_ok, checkEach_eq_ok, checkSymbols_eq_ok, hvalues,
    hblocks, hfunctions, hbodies]
  constructor
  · rintro ⟨htypes, hvalues, hblocks, hfunctions, ⟨hglobals, hnames, hnames'⟩, hbodies⟩
    exact ⟨htypes, hvalues, hblocks, hfunctions, hglobals, hnames, hnames', hbodies⟩
  · intro h
    exact ⟨h.types, h.values, h.blocks, h.functions, ⟨h.globals, h.globalNames, h.functionNames⟩,
      h.bodies⟩

end Module
end SsaKit
