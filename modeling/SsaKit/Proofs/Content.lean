import SsaKit.Proofs.Layout

/-! What stays the same when blocks and instructions only change their places. -/
namespace SsaKit

namespace Order

open Classical in
/-- The order without some blocks and their code. -/
noncomputable def without (o : Order) (gone : BlockId → Prop) : Order where
  blocks f := (o.blocks f).filter fun b => ¬ gone b
  code b := if gone b then [] else o.code b

theorem without_without (o : Order) (gone gone' : BlockId → Prop) :
    (o.without gone).without gone' = o.without fun b => gone b ∨ gone' b := by
  ext1
  · funext f
    simp only [without, List.filter_filter]
    refine List.filter_congr fun b _ => ?_
    by_cases h : gone b <;> by_cases h' : gone' b <;> simp [h, h']
  · funext b
    by_cases h : gone b <;> by_cases h' : gone' b <;> simp [without, h, h']

theorem without_none (o : Order) : (o.without fun _ => False) = o := by
  ext1 <;> simp [without]

end Order

namespace Module

open Attempt

variable {m m' m'' : Module} {o o' : Order} {v w : ValueId} {b : BlockId} {f : FunctionId}

/-- A function without its body. -/
def head (m : Module) (f : FunctionId) : Function := { m.function f with chain := {} }

/-- Two modules that differ in their values, links and chains only. -/
structure SameOutline (m m' : Module) : Prop where
  types : m'.types = m.types
  values : m'.values.size = m.values.size
  blocks : m'.blocks.size = m.blocks.size
  blockName : ∀ b, (m'.block b).name = (m.block b).name
  functions : m'.functions.size = m.functions.size
  head : ∀ f, m'.head f = m.head f
  functionNames : m'.functionNames = m.functionNames
  globals : m'.globals = m.globals
  globalNames : m'.globalNames = m.globalNames

/-- Two modules that differ in their links and chains only. -/
structure SameContent (m m' : Module) : Prop extends m.SameOutline m' where
  value : ∀ v, m'.value v = m.value v

theorem functionName_of_head (h : m'.head f = m.head f) : m'.functionName f = m.functionName f := by
  have := congrArg Function.name h
  exact this

theorem isRemoved_of_head (h : m'.head f = m.head f) : m'.isRemoved f = m.isRemoved f := by
  have := congrArg Function.isRemoved h
  exact this

theorem params_of_head (h : m'.head f = m.head f) : m'.params f = m.params f := by
  have := congrArg Function.params h
  exact this

theorem functionType_of_head (h : m'.head f = m.head f) :
    (m'.function f).type = (m.function f).type := by
  have := congrArg Function.type h
  exact this

namespace SameOutline

theorem refl (m : Module) : m.SameOutline m :=
  ⟨rfl, rfl, rfl, fun _ => rfl, rfl, fun _ => rfl, rfl, rfl, rfl⟩

theorem trans (h : m.SameOutline m') (h' : m'.SameOutline m'') : m.SameOutline m'' where
  types := h'.types.trans h.types
  values := h'.values.trans h.values
  blocks := h'.blocks.trans h.blocks
  blockName b := (h'.blockName b).trans (h.blockName b)
  functions := h'.functions.trans h.functions
  head f := (h'.head f).trans (h.head f)
  functionNames := h'.functionNames.trans h.functionNames
  globals := h'.globals.trans h.globals
  globalNames := h'.globalNames.trans h.globalNames

section

variable (h : m.SameOutline m')
include h

theorem symm : m'.SameOutline m where
  types := h.types.symm
  values := h.values.symm
  blocks := h.blocks.symm
  blockName b := (h.blockName b).symm
  functions := h.functions.symm
  head f := (h.head f).symm
  functionNames := h.functionNames.symm
  globals := h.globals.symm
  globalNames := h.globalNames.symm

theorem label (b : BlockId) : m'.label b = m.label b := by
  rw [Module.label, Module.label, h.blockName]

theorem isRemoved (f : FunctionId) : m'.isRemoved f = m.isRemoved f := isRemoved_of_head (h.head f)

theorem liveFunctions : m'.liveFunctions = m.liveFunctions := by
  unfold Module.liveFunctions
  rw [h.functions]
  exact List.filter_congr fun f _ => by rw [h.isRemoved]

end

end SameOutline

namespace SameContent

theorem refl (m : Module) : m.SameContent m := ⟨.refl m, fun _ => rfl⟩

theorem trans (h : m.SameContent m') (h' : m'.SameContent m'') : m.SameContent m'' where
  toSameOutline := h.toSameOutline.trans h'.toSameOutline
  value v := (h'.value v).trans (h.value v)

section

variable (h : m.SameContent m')
include h

theorem symm : m'.SameContent m := ⟨h.toSameOutline.symm, fun v => (h.value v).symm⟩

theorem kindOf (v : ValueId) : m'.kindOf v = m.kindOf v := congrArg Value.kind (h.value v)

theorem typeOf (v : ValueId) : m'.typeOf v = m.typeOf v := congrArg Value.type (h.value v)

theorem instruction? (v : ValueId) : m'.instruction? v = m.instruction? v :=
  congrArg ValueKind.instruction? (h.kindOf v)

theorem extended : m.Extends m' where
  types := h.types ▸ .refl _
  values v hv := ⟨by rwa [Arena.Has, h.values], h.typeOf v, .inl (h.kindOf v)⟩
  blocks b hb := by rwa [Arena.Has, h.blocks]
  functions f hf :=
    ⟨by rwa [HasFunction, h.functions], functionType_of_head (h.head f), params_of_head (h.head f)⟩

theorem sound (hs : m.Sound) : m'.Sound where
  types := h.types ▸ hs.types
  values v hv := by
    obtain ⟨hc, hk⟩ := hs.values v (by rwa [Arena.Has, ← h.values])
    rw [h.typeOf, h.kindOf, h.types]
    exact ⟨hc, h.extended.kindFits hc hk⟩
  functions f hf := by
    have hf : m.HasFunction f := by rwa [HasFunction, ← h.functions]
    exact h.extended.functionFits hf (hs.functions f hf)

end

end SameContent

theorem block_withCode_name (r : Chain .value × Arena .value .block Value) (k : BlockId) :
    ((m.withCode b r).block k).name = (m.block k).name := by
  by_cases hb : m.blocks.Has b
  · obtain ⟨x, hx⟩ := content?_of_has hb
    simp only [block_def, withCode, content?_modifyContent hb]
    by_cases hk : k = b
    · subst hk
      simp [hx]
    · simp [hk]
  · have hsame : (m.withCode b r).blocks = m.blocks := by
      have hle : m.blocks.size ≤ b.index := Nat.le_of_not_lt hb
      apply Array.ext (by simp [withCode, Arena.modifyContent])
      intro i hi hi'
      have hne : b.index ≠ i := by omega
      simp [withCode, Arena.modifyContent, Array.getElem_modify, hne]
    rw [block_def, block_def, hsame]

theorem sameContent_withCode {r : Chain .value × Arena .value .block Value}
    (hs : r.2.size = m.values.size) (hc : ∀ v, r.2.content? v = m.values.content? v) :
    m.SameContent (m.withCode b r) where
  types := rfl
  value v := by simp only [value_def, withCode, hc]
  values := hs
  blocks := by simp [withCode, Arena.modifyContent]
  blockName := block_withCode_name r
  functions := rfl
  head _ := rfl
  functionNames := rfl
  globals := rfl
  globalNames := rfl

theorem sameContent_withBlocks {r : Chain .block × Arena .block .function Block}
    (hs : r.2.size = m.blocks.size) (hc : ∀ b, r.2.content? b = m.blocks.content? b) :
    m.SameContent (m.withBlocks f r) where
  types := rfl
  value _ := rfl
  values := rfl
  blocks := hs
  blockName b := by simp only [block_def, withBlocks, hc]
  functions := by simp [withBlocks]
  head k := by
    simp only [Module.head, function_def, withBlocks, Array.getElem?_modify]
    split
    · cases m.functions[k.index]? <;> rfl
    · rfl
  functionNames := rfl
  globals := rfl
  globalNames := rfl

theorem sameContent_detached (m : Module) (v : ValueId) : m.SameContent (m.detached v) := by
  unfold detached
  split
  · exact sameContent_withCode Chain.size_unlink fun _ => Chain.content?_unlink
  · exact .refl m

theorem removeBlock_content (b : BlockId) :
    Ends (removeBlock b) m (fun _ => m.SameContent) fun _ => False := by
  unfold removeBlock
  simp only [ends_bind, ends_get]
  refine (ends_forM (P := m.SameContent) (fun v _ t ht => ?_) (.refl m)).mono (fun _ t ht => ?_)
    fun _ ht => ht
  · exact ht.trans (sameContent_withCode Chain.size_unlink fun _ => Chain.content?_unlink)
  · split
    · exact ht.trans (sameContent_withBlocks Chain.size_unlink fun _ => Chain.content?_unlink)
    · exact ht

/-! ### Questions that the order and the instructions answer -/

namespace Ordered

theorem entry?_eq (ho : m.Ordered o) : m.entry? f = (o.blocks f).head? := (ho.blocks.holds f).first

theorem last_eq (ho : m.Ordered o) : (m.block b).chain.last = (o.code b).getLast? :=
  (ho.code.holds b).last

theorem isDeclaration_eq (ho : m.Ordered o) : m.isDeclaration f = decide (o.blocks f = []) := by
  have hlength : (m.function f).chain.length = (o.blocks f).length := (ho.blocks.holds f).length
  simp [isDeclaration, hlength]

theorem successors_eq (ho : m.Ordered o) : m.successors b =
    (((o.code b).getLast?.bind m.instruction?).map Instruction.successors).getD [] := by
  unfold successors terminator?
  rw [ho.last_eq]
  cases (o.code b).getLast? with
  | none => rfl
  | some v =>
    cases hv : m.instruction? v with
    | none => simp [hv, Option.filter]
    | some i =>
      cases i <;> simp [hv, Option.filter, Instruction.isTerminator, Instruction.successors]

/-- Control leaves a block for the same blocks as long as its last instruction goes there. -/
theorem successors_congr (ho : m.Ordered o) (ho' : m'.Ordered o') (hc : o'.code b = o.code b)
    (hi : ∀ v ∈ o.code b, (m'.instruction? v).map Instruction.successors =
      (m.instruction? v).map Instruction.successors) : m'.successors b = m.successors b := by
  rw [ho.successors_eq, ho'.successors_eq, hc]
  cases hl : (o.code b).getLast? with
  | none => rfl
  | some v => simpa using congrArg (·.getD []) (hi v (List.mem_of_getLast? hl))

theorem has_of_mem_blocks (ho : m.Ordered o) (hb : b ∈ o.blocks f) : m.blocks.Has b :=
  (ho.blocks.holds f).has b hb

theorem has_of_mem_code (ho : m.Ordered o) (hv : v ∈ o.code b) : m.values.Has v :=
  (ho.code.holds b).has v hv

end Ordered

/-! ### Removed blocks -/

theorem filter_ne_of_split {α : Type} [DecidableEq α] {l xs ys : List α} {a : α} (hn : l.Nodup)
    (hl : l = xs ++ a :: ys) : l.filter (· ≠ a) = xs ++ ys := by
  have hsub := List.nodup_middle.mp (hl ▸ hn)
  have hout := (List.nodup_cons.mp hsub).1
  have apart : ∀ x ∈ xs ++ ys, x ≠ a := fun x hx he => hout (he ▸ hx)
  rw [hl, List.filter_append, List.filter_cons_of_neg (by simp),
    List.filter_eq_self.mpr fun x hx => by simpa using apart x (List.mem_append_left _ hx),
    List.filter_eq_self.mpr fun x hx => by simpa using apart x (List.mem_append_right _ hx)]

theorem Ordered.eq_without_of_removesBlock (ho : m.Ordered o) (h : o.RemovesBlock o' b) :
    o' = o.without (· = b) := by
  have hcode : (o.setCode b []).code = (o.without (· = b)).code := by
    funext k
    by_cases hk : k = b <;> simp [Order.setCode, Order.without, hk]
  have apart : ∀ f, b ∉ o.blocks f → (o.without (· = b)).blocks f = o.blocks f := fun f hf =>
    List.filter_eq_self.mpr fun k hk => by
      have hne : k ≠ b := fun he => hf (he ▸ hk)
      simpa using hne
  rcases h with ⟨f, xs, ys, hl, rfl⟩ | ⟨hn, rfl⟩
  · ext1
    · funext k
      by_cases hk : k = f
      · subst hk
        have hsplit := filter_ne_of_split (ho.blocks.holds k).nodup hl
        simpa [Order.setBlocks, Order.without] using hsplit.symm
      · have hout : b ∉ o.blocks k := fun hb =>
          hk (ho.blocks.disjoint hb (hl ▸ by simp : b ∈ (o.setCode b []).blocks f))
        rw [apart k hout]
        simp [Order.setBlocks, Order.setCode, hk]
    · exact hcode
  · ext1
    · funext k
      exact (apart k (hn k)).symm
    · exact hcode

theorem mem_definedFunctions :
    f ∈ m.definedFunctions ↔ f ∈ m.liveFunctions ∧ m.isDeclaration f = false := by
  simp [definedFunctions]

theorem Ordered.defined_of_mem (ho : m.Ordered o) (hf : f ∈ m.liveFunctions)
    (hb : b ∈ m.blocksOf f) : f ∈ m.definedFunctions := by
  refine mem_definedFunctions.mpr ⟨hf, ?_⟩
  rw [ho.blocksOf_eq] at hb
  rw [ho.isDeclaration_eq, decide_eq_false_iff_not]
  exact List.ne_nil_of_mem hb

/-! ### Reading and detaching -/

/-- What an instruction reads. -/
def readOf (m : Module) (v : ValueId) : List ValueId :=
  ((m.instruction? v).map Instruction.operands).getD []

theorem mem_readOf : w ∈ readOf m v ↔ ∃ i, m.instruction? v = some i ∧ w ∈ i.operands := by
  unfold readOf
  cases m.instruction? v <;> simp

theorem has_of_mem_readOf (hs : m.Sound) (hw : w ∈ readOf m v) : m.values.Has w := by
  obtain ⟨i, hi, hw⟩ := mem_readOf.mp hw
  exact hs.operands_has hi w hw

/-- An instruction out of its block, and everything else where it was. -/
theorem Ordered.detached_order (ho : m.Ordered o) (v : ValueId) :
    (m.detached v).Ordered ⟨o.blocks, fun b => (o.code b).filter (· ≠ v)⟩ := by
  obtain ⟨o', ho', hd⟩ := ho.detached v
  have hsame : o' = ⟨o.blocks, fun b => (o.code b).filter (· ≠ v)⟩ := by
    ext1
    · rcases hd with ⟨b, xs, ys, -, rfl⟩ | ⟨-, rfl⟩ <;> rfl
    · funext b
      rw [← ho'.instructions_eq, ho.instructions_detached, ho.instructions_eq]
  exact hsame ▸ ho'

end Module
end SsaKit
