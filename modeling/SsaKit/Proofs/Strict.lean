import SsaKit.Proofs.LoadedChains
import SsaKit.Proofs.Verify

/-! Questions asked of a module so that a handle from elsewhere and a chain without an end have no
answer. In a module that passes the check they have the usual one. -/
namespace SsaKit.Strict

/-! ### Lists of answers -/

section Lists

variable {α β : Type} {l : List α}

theorem mapM_eq {f : α → Option β} {g : α → β} (h : ∀ x ∈ l, f x = some (g x)) :
    l.mapM f = some (l.map g) := by
  induction l with
  | nil => rfl
  | cons x l ih =>
    rw [List.mapM_cons, h x List.mem_cons_self, ih fun y hy => h y (List.mem_cons_of_mem _ hy)]
    rfl

theorem filterM_eq {f : α → Option Bool} {p : α → Bool} (h : ∀ x ∈ l, f x = some (p x)) :
    l.filterM f = some (l.filter p) := by
  have haux : ∀ done, List.filterAuxM f l done = some ((l.filter p).reverse ++ done) := by
    induction l with
    | nil => intro _; rfl
    | cons x l ih =>
      intro done
      rw [List.filterAuxM, h x List.mem_cons_self]
      show List.filterAuxM f l (cond (p x) (x :: done) done) = _
      rw [ih fun y hy => h y (List.mem_cons_of_mem _ hy)]
      cases hx : p x <;> simp [hx]
  rw [List.filterM, haux]
  simp

theorem anyM_eq {f : α → Option Bool} {p : α → Bool} (h : ∀ x ∈ l, f x = some (p x)) :
    l.anyM f = some (l.any p) := by
  induction l with
  | nil => rfl
  | cons x l ih =>
    rw [List.anyM_cons, h x List.mem_cons_self, ih fun y hy => h y (List.mem_cons_of_mem _ hy)]
    cases hx : p x <;> simp [hx]

theorem findM?_eq {f : α → Option Bool} {p : α → Bool} (h : ∀ x ∈ l, f x = some (p x)) :
    l.findM? f = some (l.find? p) := by
  induction l with
  | nil => rfl
  | cons x l ih =>
    rw [List.findM?, h x List.mem_cons_self, ih fun y hy => h y (List.mem_cons_of_mem _ hy)]
    cases hx : p x <;> simp [hx]

theorem findSomeM?_eq {f : α → Option (Option β)} {g : α → Option β}
    (h : ∀ x ∈ l, f x = some (g x)) : l.findSomeM? f = some (l.findSome? g) := by
  induction l with
  | nil => rfl
  | cons x l ih =>
    rw [List.findSomeM?_cons, h x List.mem_cons_self,
      ih fun y hy => h y (List.mem_cons_of_mem _ hy)]
    cases hx : g x <;> simp [hx]

end Lists

/-! ### Chains -/

section Chains

variable {kind owner : Entity} {α : Type} {a : Arena kind owner α} {c : Chain kind}
  {l : List (Handle kind)} {start : Option (Handle kind)} {k : Handle kind}

def next (a : Arena kind owner α) (k : Handle kind) : Option (Option (Handle kind)) :=
  a[k.index]?.map Node.next

/-- The whole chain from a node onwards; none if it has not ended after so many nodes. -/
def follow (a : Arena kind owner α) : Nat → Option (Handle kind) → Option (List (Handle kind))
  | _, none => some []
  | 0, some _ => none
  | n + 1, some k => do
    let rest ← follow a n (← next a k)
    return k :: rest

/-- The members of a chain, which cannot be more than there are nodes. -/
def members (a : Arena kind owner α) (c : Chain kind) : Option (List (Handle kind)) :=
  follow a a.size c.first

theorem next_eq (h : a.Has k) : next a k = some (a.next? k) := by
  have hlt : k.index < a.size := h
  simp [next, Arena.next?, hlt]

theorem follow_eq (h : Chain.Walk a.next? start l) (hl : ∀ k ∈ l, a.Has k) {n : Nat}
    (hn : l.length ≤ n) : follow a n start = some l := by
  induction h generalizing n with
  | stop => cases n <;> rfl
  | go k rest _ ih =>
    cases n with
    | zero => simp at hn
    | succ n =>
      rw [follow, next_eq (hl k List.mem_cons_self)]
      have hrest := ih (fun j hj => hl j (List.mem_cons_of_mem _ hj)) (n := n) (by simpa using hn)
      simp [hrest]

theorem members_eq (h : c.Runs a l) (hl : ∀ k ∈ l, a.Has k) : members a c = some l :=
  follow_eq h.walk hl h.fits

end Chains

/-! ### Entries -/

variable (m : Module)

def value (v : ValueId) : Option Value := m.values[v.index]?.map Node.content

def block (b : BlockId) : Option Block := m.blocks[b.index]?.map Node.content

def function (f : FunctionId) : Option Function := m.functions[f.index]?

def entry (t : TypeId) : Option Ty := m.types.entries[t.index]?

def blockOf? (v : ValueId) : Option (Option BlockId) := m.values[v.index]?.map Node.parent

def functionOf? (b : BlockId) : Option (Option FunctionId) := m.blocks[b.index]?.map Node.parent

def kindOf (v : ValueId) : Option ValueKind := (value m v).map Value.kind

def typeOf (v : ValueId) : Option TypeId := (value m v).map Value.type

def instruction? (v : ValueId) : Option (Option Instruction) :=
  (kindOf m v).map ValueKind.instruction?

def label (b : BlockId) : Option String :=
  (block m b).map fun x => x.name.getD s!"bb{b.index}"

def functionName (f : FunctionId) : Option String := (function m f).map Function.name

def isRemoved (f : FunctionId) : Option Bool := (function m f).map Function.isRemoved

def instructions (b : BlockId) : Option (List ValueId) := do members m.values (← block m b).chain

def blocksOf (f : FunctionId) : Option (List BlockId) := do members m.blocks (← function m f).chain

def instructionsOf (f : FunctionId) : Option (List ValueId) := do
  return (← (← blocksOf m f).mapM (instructions m)).flatten

def liveFunctions : Option (List FunctionId) :=
  ((List.range m.functions.size).map Handle.mk).filterM fun f => do return !(← isRemoved m f)

def successors (b : BlockId) : Option (List BlockId) := do
  let some last := (← block m b).chain.last | return []
  let i ← instruction? m last
  return ((i.filter Instruction.isTerminator).map Instruction.successors).getD []

/-! ### Users and callers -/

def reads (used user : ValueId) : Option Bool := do
  return (← instruction? m user).any fun i => i.operands.contains used

def users (v : ValueId) : Option (List ValueId) := do
  let code ← (← liveFunctions m).mapM (instructionsOf m)
  code.flatten.filterM (reads m v)

def isCallTo (callee : FunctionId) (v : ValueId) : Option Bool := do
  match ← instruction? m v with
  | some (.call c _) => return c = callee
  | _ => return false

def callers (callee : FunctionId) : Option (List FunctionId) := do
  (← liveFunctions m).filterM fun f => do (← instructionsOf m f).anyM (isCallTo m callee)

/-! ### Verification -/

def predecessors (f : FunctionId) (b : BlockId) : Option (List BlockId) := do
  (← blocksOf m f).filterM fun p => do return (← successors m p).contains b

def mergesAll (f : FunctionId) (b : BlockId) (incoming : List (BlockId × ValueId)) :
    Option Bool := do
  let sources := incoming.map (·.1)
  let expected ← predecessors m f b
  return sources.all expected.contains && expected.all sources.contains && decide sources.Nodup

def operandFault (f : FunctionId) (v : ValueId) : Option (Option String) := do
  match ← kindOf m v with
  | .argument owner _ =>
    let name ← functionName m owner
    return if owner = f then none else some s!"argument of '{name}' used here"
  | .instruction _ =>
    let owner ← match ← blockOf? m v with
      | some b => functionOf? m b
      | none => some none
    return if owner = some f then none
      else some s!"operand {v.index} is not an instruction of this function"
  | .global _ =>
    return if m.globalNames.values.contains v then none
      else some s!"operand {v.index} refers to a removed global"
  | _ => return none

def checkSuccessors (f : FunctionId) (b : BlockId) : Option (Except String Unit) := do
  let from_ ← label m b
  match ← (← successors m b).findM? fun s => do return (← functionOf? m s) ≠ some f with
  | some s => return .error s!"block {from_} branches to {← label m s} outside the function"
  | none => return .ok ()

def checkOperands (f : FunctionId) (b : BlockId) (i : Instruction) :
    Option (Except String Unit) := do
  let place ← label m b
  match ← i.operands.findSomeM? (operandFault m f) with
  | some fault => return .error s!"in block {place}: {fault}"
  | none => return .ok ()

def checkInstruction (f : FunctionId) (b : BlockId) (last : ValueId) (afterPhis : Bool)
    (v : ValueId) : Option (Except String Unit) := do
  let place ← label m b
  match ← instruction? m v with
  | none => return .error s!"block {place} holds a non-instruction"
  | some i =>
    let merged ← match i with
      | .phi incoming => mergesAll m f b incoming
      | _ => some true
    let removed ← match i with
      | .call callee _ => isRemoved m callee
      | _ => some false
    let operands ← checkOperands m f b i
    return do
      if i.isTerminator && v ≠ last then
        throw s!"block {place} has a terminator before its end"
      if !i.isTerminator && v = last then
        throw s!"block {place} does not end with a terminator"
      if i.isPhi then
        unless afterPhis do throw s!"phi after a non-phi in block {place}"
        unless merged do throw s!"phi in block {place} does not list each predecessor exactly once"
      if removed then throw s!"block {place} calls a removed function"
      operands

def checkInstructions (f : FunctionId) (b : BlockId) (last : ValueId) :
    Bool → List ValueId → Option (Except String Unit)
  | _, [] => some (.ok ())
  | afterPhis, v :: rest => do
    let here ← checkInstruction m f b last afterPhis v
    let i ← instruction? m v
    let after ← checkInstructions f b last (afterPhis && i.any Instruction.isPhi) rest
    return do
      here
      after

def checkBlock (f : FunctionId) (b : BlockId) : Option (Except String Unit) := do
  let place ← label m b
  match (← block m b).chain.last with
  | none => return .error s!"block {place} is empty"
  | some last => checkInstructions m f b last true (← instructions m b)

def checkFunction (f : FunctionId) : Option (Except String Unit) := do
  let branches ← (← blocksOf m f).mapM (checkSuccessors m f)
  let bodies ← (← blocksOf m f).mapM (checkBlock m f)
  return do
    branches.forM id
    bodies.forM id

def verifyFunction (f : FunctionId) : Option (Except Error Unit) := do
  let name ← functionName m f
  return (← checkFunction m f).mapError (.verification name)

def verify : Option (Except Error Unit) := do
  return (← (← liveFunctions m).mapM (verifyFunction m)).forM id

/-! ### The usual answers -/

variable {m} {v : ValueId} {b : BlockId} {f : FunctionId} {t : TypeId} {i : Instruction}

theorem value_eq (hv : m.values.Has v) : value m v = some (m.value v) := by
  have hlt : v.index < m.values.size := hv
  simp [value, Module.value, hlt]

theorem block_eq (hb : m.blocks.Has b) : block m b = some (m.block b) := by
  have hlt : b.index < m.blocks.size := hb
  simp [block, Module.block, hlt]

theorem function_eq (hf : m.HasFunction f) : function m f = some (m.function f) := by
  have hlt : f.index < m.functions.size := hf
  simp [function, Module.function, hlt]

theorem entry_eq (ht : m.types.contains t) : entry m t = some (m.types.entry t) := by
  have hlt := TypeTable.contains_iff.mp ht
  simp [entry, TypeTable.entry, hlt]

theorem blockOf?_eq (hv : m.values.Has v) : blockOf? m v = some (m.blockOf? v) := by
  have hlt : v.index < m.values.size := hv
  simp [blockOf?, Module.blockOf?, Arena.parent?, hlt]

theorem functionOf?_eq (hb : m.blocks.Has b) : functionOf? m b = some (m.functionOf? b) := by
  have hlt : b.index < m.blocks.size := hb
  simp [functionOf?, Module.functionOf?, Arena.parent?, hlt]

theorem kindOf_eq (hv : m.values.Has v) : kindOf m v = some (m.kindOf v) := by
  rw [kindOf, value_eq hv]
  rfl

theorem typeOf_eq (hv : m.values.Has v) : typeOf m v = some (m.typeOf v) := by
  rw [typeOf, value_eq hv]
  rfl

theorem instruction?_eq (hv : m.values.Has v) : instruction? m v = some (m.instruction? v) := by
  rw [instruction?, kindOf_eq hv]
  rfl

theorem label_eq (hb : m.blocks.Has b) : label m b = some (m.label b) := by
  rw [label, block_eq hb]
  rfl

theorem functionName_eq (hf : m.HasFunction f) : functionName m f = some (m.functionName f) := by
  rw [functionName, function_eq hf]
  rfl

theorem isRemoved_eq (hf : m.HasFunction f) : isRemoved m f = some (m.isRemoved f) := by
  rw [isRemoved, function_eq hf]
  rfl

theorem has_of_mem_handles (hf : f ∈ (List.range m.functions.size).map Handle.mk) :
    m.HasFunction f := by
  obtain ⟨i, hi, rfl⟩ := List.mem_map.mp hf
  exact List.mem_range.mp hi

theorem liveFunctions_eq : liveFunctions m = some m.liveFunctions :=
  filterM_eq fun f hf => by rw [isRemoved_eq (has_of_mem_handles hf)]; rfl

theorem has_of_mem_liveFunctions (hf : f ∈ m.liveFunctions) : m.HasFunction f :=
  has_of_mem_handles (List.mem_of_mem_filter hf)

theorem reads_eq (used : ValueId) (hv : m.values.Has v) : reads m used v = some (m.reads used v) := by
  rw [reads, instruction?_eq hv]
  rfl

theorem isCallTo_eq (callee : FunctionId) (hv : m.values.Has v) :
    isCallTo m callee v = some (m.isCallTo callee v) := by
  rw [isCallTo, instruction?_eq hv, Module.isCallTo]
  rcases m.instruction? v with _ | i
  · rfl
  · cases i <;> rfl

theorem successors_of_empty (hlast : (m.block b).chain.last = none) : m.successors b = [] := by
  rw [Module.successors, Module.terminator?, hlast]
  rfl

theorem successors_of_last {last : ValueId} (hlast : (m.block b).chain.last = some last) :
    m.successors b =
      (((m.instruction? last).filter Instruction.isTerminator).map Instruction.successors).getD [] := by
  rw [Module.successors, Module.terminator?, hlast]
  cases hi : m.instruction? last with
  | none => simp [Option.filter, hi]
  | some i => cases ht : i.isTerminator <;> simp [Option.filter, hi, ht]

theorem mem_mentionedBlocks {s : BlockId} (hs : s ∈ i.successors) :
    s ∈ Module.mentionedBlocks (.instruction i) := by
  cases i with
  | phi incoming => cases hs
  | _ => exact hs

section Intact

variable (h : m.Intact)
include h

theorem blocksOf_eq (hf : m.HasFunction f) : blocksOf m f = some (m.blocksOf f) := by
  have hl := h.lists_blocks f
  rw [blocksOf, function_eq hf]
  exact members_eq hl.runs fun b hb => Arena.has_of_parent (hl.parent b hb)

theorem has_of_mem_blocksOf (hb : b ∈ m.blocksOf f) : m.blocks.Has b :=
  Arena.has_of_parent ((h.lists_blocks f).parent b hb)

theorem has_of_mem_instructions (hb : b ∈ m.blocksOf f) (hv : v ∈ m.instructions b) :
    m.values.Has v :=
  Arena.has_of_parent ((h.code hb).lists.1.parent v hv)

theorem instructions_eq (hb : b ∈ m.blocksOf f) : instructions m b = some (m.instructions b) := by
  rw [instructions, block_eq (has_of_mem_blocksOf h hb)]
  exact members_eq (h.code hb).lists.1.runs fun v hv => has_of_mem_instructions h hb hv

theorem instructionsOf_eq (hf : m.HasFunction f) :
    instructionsOf m f = some (m.instructionsOf f) := by
  rw [instructionsOf, blocksOf_eq h hf]
  show (do return (← (m.blocksOf f).mapM (instructions m)).flatten) = _
  rw [mapM_eq fun b hb => instructions_eq h hb]
  rfl

theorem has_of_mem_instructionsOf (hv : v ∈ m.instructionsOf f) : m.values.Has v := by
  obtain ⟨b, hb, hv⟩ := List.mem_flatMap.mp hv
  exact has_of_mem_instructions h hb hv

theorem users_eq (used : ValueId) : users m used = some (m.users used) := by
  rw [users, liveFunctions_eq]
  show (do
    let code ← m.liveFunctions.mapM (instructionsOf m)
    code.flatten.filterM (reads m used)) = _
  rw [mapM_eq fun f hf => instructionsOf_eq h (has_of_mem_liveFunctions hf)]
  refine filterM_eq fun v hv => reads_eq used ?_
  obtain ⟨code, hcode, hv⟩ := List.mem_flatten.mp hv
  obtain ⟨f, -, rfl⟩ := List.mem_map.mp hcode
  exact has_of_mem_instructionsOf h hv

theorem callers_eq (callee : FunctionId) : callers m callee = some (m.callers callee) := by
  rw [callers, liveFunctions_eq]
  refine filterM_eq fun f hf => ?_
  rw [instructionsOf_eq h (has_of_mem_liveFunctions hf)]
  exact anyM_eq fun v hv => isCallTo_eq callee (has_of_mem_instructionsOf h hv)

theorem successors_eq (hb : m.blocks.Has b) : successors m b = some (m.successors b) := by
  rw [successors, block_eq hb]
  cases hlast : (m.block b).chain.last with
  | none => simp [hlast, successors_of_empty hlast]
  | some last =>
    simp only [hlast, Option.bind_eq_bind, Option.bind_some]
    rw [instruction?_eq ((h.blocks b hb).ends.last last hlast), successors_of_last hlast]
    rfl

theorem has_of_mem_successors (hb : m.blocks.Has b) {s : BlockId} (hs : s ∈ m.successors b) :
    m.blocks.Has s := by
  cases hlast : (m.block b).chain.last with
  | none => simp [successors_of_empty hlast] at hs
  | some last =>
    rw [successors_of_last hlast] at hs
    cases hi : m.instruction? last with
    | none => simp [hi] at hs
    | some i =>
      refine (h.values last ((h.blocks b hb).ends.last last hlast)).blocks s ?_
      rw [Module.kindOf_of_instruction? hi]
      refine mem_mentionedBlocks ?_
      cases ht : i.isTerminator <;> simp_all [Option.filter]

theorem predecessors_eq (hf : m.HasFunction f) (b : BlockId) :
    predecessors m f b = some (m.predecessors f b) := by
  rw [predecessors, blocksOf_eq h hf]
  exact filterM_eq fun p hp => by rw [successors_eq h (has_of_mem_blocksOf h hp)]; rfl

theorem mergesAll_eq (hf : m.HasFunction f) (b : BlockId) (incoming : List (BlockId × ValueId)) :
    mergesAll m f b incoming = some (m.mergesAll f b incoming) := by
  rw [mergesAll, predecessors_eq h hf]
  rfl

theorem operandFault_eq (f : FunctionId) (hv : m.values.Has v) :
    operandFault m f v = some (m.operandFault f v) := by
  have hi := h.values v hv
  rw [operandFault, kindOf_eq hv, Module.operandFault]
  cases hk : m.kindOf v with
  | argument owner n =>
    have howner : m.HasFunction owner := hi.functions owner (by simp [hk, Module.mentionedFunctions])
    simp [functionName_eq howner]
  | instruction i =>
    simp only [Option.bind_eq_bind, Option.bind_some, blockOf?_eq hv]
    cases hb : m.blockOf? v with
    | none => rfl
    | some b =>
      have hhas : m.blocks.Has b := hi.links.parent b hb
      simp only [functionOf?_eq hhas, Option.bind_some]
      rfl
  | _ => rfl

theorem checkSuccessors_eq (f : FunctionId) (hb : m.blocks.Has b) :
    checkSuccessors m f b = some (m.checkSuccessors f b) := by
  have howner : ∀ s ∈ m.successors b,
      ((functionOf? m s).bind fun owner => pure (decide (owner ≠ some f))) =
        some (decide (m.functionOf? s ≠ some f)) := fun s hs => by
    rw [functionOf?_eq (has_of_mem_successors h hb hs)]
    rfl
  rw [checkSuccessors, label_eq hb, successors_eq h hb, Module.checkSuccessors]
  simp only [Option.bind_eq_bind, Option.bind_some]
  rw [findM?_eq howner]
  cases hs : (m.successors b).find? fun s => m.functionOf? s ≠ some f with
  | none => simp
  | some s =>
    have hhas := has_of_mem_successors h hb (List.mem_of_find?_eq_some hs)
    simp [label_eq hhas]

theorem checkOperands_eq (f : FunctionId) (hb : m.blocks.Has b)
    (hi : ∀ w ∈ i.operands, m.values.Has w) :
    checkOperands m f b i = some (m.checkOperands f b i) := by
  rw [checkOperands, label_eq hb, Module.checkOperands]
  simp only [Option.bind_eq_bind, Option.bind_some]
  rw [findSomeM?_eq fun w hw => operandFault_eq h f (hi w hw)]
  cases i.operands.findSome? (m.operandFault f) <;> rfl

theorem checkInstruction_eq (hf : m.HasFunction f) (hb : m.blocks.Has b) (hv : m.values.Has v)
    (last : ValueId) (afterPhis : Bool) :
    checkInstruction m f b last afterPhis v = some (m.checkInstruction f b last afterPhis v) := by
  rw [checkInstruction, label_eq hb, instruction?_eq hv, Module.checkInstruction]
  cases hi : m.instruction? v with
  | none => rfl
  | some i =>
    have hk := Module.kindOf_of_instruction? hi
    have hin := h.values v hv
    have hoperands : ∀ w ∈ i.operands, m.values.Has w := fun w hw =>
      hin.operands w (by rw [Module.operands, hk]; exact hw)
    simp only [Option.bind_eq_bind, Option.bind_some]
    rw [checkOperands_eq h f hb hoperands]
    cases i with
    | phi incoming =>
      simp only [mergesAll_eq h hf]
      rfl
    | call callee args =>
      have hcallee : m.HasFunction callee :=
        hin.functions callee (by simp [hk, Module.mentionedFunctions])
      simp only [isRemoved_eq hcallee]
      rfl
    | _ => rfl

theorem checkInstructions_eq (hf : m.HasFunction f) (hb : m.blocks.Has b) (last : ValueId)
    {code : List ValueId} (hcode : ∀ v ∈ code, m.values.Has v) (afterPhis : Bool) :
    checkInstructions m f b last afterPhis code =
      some (m.checkInstructions f b last afterPhis code) := by
  induction code generalizing afterPhis with
  | nil => rfl
  | cons v rest ih =>
    have hv := hcode v List.mem_cons_self
    rw [checkInstructions, checkInstruction_eq h hf hb hv, instruction?_eq hv]
    simp only [Option.bind_eq_bind, Option.bind_some]
    rw [ih fun w hw => hcode w (List.mem_cons_of_mem _ hw)]
    rfl

theorem checkBlock_eq (hf : m.HasFunction f) (hb : b ∈ m.blocksOf f) :
    checkBlock m f b = some (m.checkBlock f b) := by
  have hhas := has_of_mem_blocksOf h hb
  rw [checkBlock, label_eq hhas, block_eq hhas, Module.checkBlock]
  cases hlast : (m.block b).chain.last with
  | none => simp [hlast]
  | some last =>
    simp only [hlast, Option.bind_eq_bind, Option.bind_some]
    rw [instructions_eq h hb]
    exact checkInstructions_eq h hf hhas last (fun v hv => has_of_mem_instructions h hb hv) true

theorem checkFunction_eq (hf : m.HasFunction f) :
    checkFunction m f = some (m.checkFunction f) := by
  rw [checkFunction, blocksOf_eq h hf]
  simp only [Option.bind_eq_bind, Option.bind_some]
  rw [mapM_eq fun b hb => checkSuccessors_eq h f (has_of_mem_blocksOf h hb),
    mapM_eq fun b hb => checkBlock_eq h hf hb]
  simp [Module.checkFunction, List.forM_map]

theorem verify_eq : verify m = some m.verify := by
  rw [verify, liveFunctions_eq]
  simp only [Option.bind_eq_bind, Option.bind_some]
  have hfunction : ∀ f ∈ m.liveFunctions, verifyFunction m f = some (m.verifyFunction f) := by
    intro f hf
    have hhas := has_of_mem_liveFunctions hf
    rw [verifyFunction, functionName_eq hhas, checkFunction_eq h hhas]
    rfl
  rw [mapM_eq hfunction]
  simp [Module.verify, List.forM_map]

end Intact

end SsaKit.Strict
