import SsaKit.Module.Layout
import SsaKit.Proofs.Threads

/-! The program order of a module: the list of every function and of every block. -/
namespace SsaKit

/-- Blocks in functions and instructions in blocks, as plain lists. -/
@[ext] structure Order where
  blocks : FunctionId → List BlockId
  code : BlockId → List ValueId

namespace Order

variable (o : Order)

/-- The same order but for one block's code. -/
def setCode (b : BlockId) (l : List ValueId) : Order :=
  { o with code := Function.update o.code b l }

/-- The same order but for one function's blocks. -/
def setBlocks (f : FunctionId) (l : List BlockId) : Order :=
  { o with blocks := Function.update o.blocks f l }

end Order

namespace Module

variable {m m' : Module} {o : Order} {b : BlockId} {f : FunctionId} {v anchor : ValueId}

def order (m : Module) : Order := ⟨m.blocksOf, m.instructions⟩

/-- The links of a module hold the lists of an order. -/
structure Ordered (m : Module) (o : Order) : Prop where
  code : Threads (fun b => (m.block b).chain) m.values o.code
  blocks : Threads (fun f => (m.function f).chain) m.blocks o.blocks

theorem Ordered.order_eq (h : m.Ordered o) : m.order = o := by
  ext1
  · exact h.blocks.list_eq.symm
  · exact h.code.list_eq.symm

theorem Ordered.instructions_eq (h : m.Ordered o) : m.instructions b = o.code b :=
  congrFun (congrArg Order.code h.order_eq) b

theorem Ordered.blocksOf_eq (h : m.Ordered o) : m.blocksOf f = o.blocks f :=
  congrFun (congrArg Order.blocks h.order_eq) f

theorem Ordered.blockOf?_eq_some (h : m.Ordered o) : m.blockOf? v = some b ↔ v ∈ o.code b :=
  h.code.parent v b

theorem Ordered.functionOf?_eq_some (h : m.Ordered o) :
    m.functionOf? b = some f ↔ b ∈ o.blocks f :=
  h.blocks.parent b f

/-- An order is kept by whatever keeps the links and the chains. -/
theorem Ordered.congr (h : m.Ordered o) (hv : Arena.SameLinks m.values m'.values)
    (hb : Arena.SameLinks m.blocks m'.blocks) (hc : ∀ b, (m'.block b).chain = (m.block b).chain)
    (hf : ∀ f, (m'.function f).chain = (m.function f).chain) : m'.Ordered o where
  code := by simpa only [hc] using h.code.congr hv
  blocks := by simpa only [hf] using h.blocks.congr hb

/-! ### Reading a changed module -/

theorem value_def : m.value v = (m.values.content? v).getD default := by
  unfold value Arena.content?
  cases m.values[v.index]? <;> rfl

theorem block_def : m.block b = (m.blocks.content? b).getD default := by
  unfold block Arena.content?
  cases m.blocks[b.index]? <;> rfl

/-- A new chain for a block, in an arena that it goes with. -/
def withCode (m : Module) (b : BlockId) (r : Chain .value × Arena .value .block Value) : Module :=
  { m with values := r.2, blocks := m.blocks.modifyContent b fun c => { c with chain := r.1 } }

/-- A new chain for a function, in an arena that it goes with. -/
def withBlocks (m : Module) (f : FunctionId)
    (r : Chain .block × Arena .block .function Block) : Module :=
  { m with
    blocks := r.2
    functions := m.functions.modify f.index fun c => { c with chain := r.1 } }

theorem function_def {f : FunctionId} : m.function f = (m.functions[f.index]?).getD default := by
  rw [function, Array.getD_eq_getD_getElem?]

theorem content?_modifyContent {kind owner : Entity} {α : Type} {a : Arena kind owner α}
    {k j : Handle kind} {g : α → α} (hk : a.Has k) :
    (a.modifyContent k g).content? j = if j = k then (a.content? k).map g else a.content? j := by
  unfold Arena.modifyContent Arena.content?
  rw [Array.getElem?_modify]
  by_cases hj : j = k
  · subst hj
    simp [Array.getElem?_eq_getElem hk]
  · simp [Handle.index_inj, hj, Ne.symm hj]

theorem content?_of_has {kind owner : Entity} {α : Type} {a : Arena kind owner α}
    {k : Handle kind} (hk : a.Has k) : ∃ x, a.content? k = some x :=
  ⟨a[k.index].content, by simp [Arena.content?, Array.getElem?_eq_getElem hk]⟩

theorem block_withCode {r : Chain .value × Arena .value .block Value} (hb : m.blocks.Has b) :
    (fun k => ((m.withCode b r).block k).chain) =
      Function.update (fun k => (m.block k).chain) b r.1 := by
  funext k
  obtain ⟨x, hx⟩ := content?_of_has hb
  simp only [block_def, withCode, content?_modifyContent hb]
  by_cases hk : k = b
  · subst hk
    simp [hx]
  · simp [hk]

theorem function_withBlocks {r : Chain .block × Arena .block .function Block}
    (hf : f.index < m.functions.size) :
    (fun k => ((m.withBlocks f r).function k).chain) =
      Function.update (fun k => (m.function k).chain) f r.1 := by
  funext k
  simp only [function_def, withBlocks, Array.getElem?_modify]
  by_cases hk : k = f
  · subst hk
    simp [Array.getElem?_eq_getElem hf]
  · simp [Handle.index_inj, hk, Ne.symm hk]

theorem Ordered.has_of_mem (h : m.Ordered o) (hv : v ∈ o.code b) : m.blocks.Has b := by
  by_contra hn
  have hb : m.block b = default := by
    simp [block_def, Arena.content?, Array.getElem?_eq_none (Nat.le_of_not_lt hn)]
  have hl := (h.code.holds b).length
  simp only [hb] at hl
  exact List.ne_nil_of_mem hv (List.length_eq_zero_iff.mp hl.symm)

theorem Ordered.hasFunction_of_mem (h : m.Ordered o) (hb : b ∈ o.blocks f) :
    f.index < m.functions.size := by
  by_contra hn
  have hf : m.function f = default := by
    simp [function_def, Array.getElem?_eq_none (Nat.le_of_not_lt hn)]
  have hl := (h.blocks.holds f).length
  simp only [hf] at hl
  exact List.ne_nil_of_mem hb (List.length_eq_zero_iff.mp hl.symm)

theorem sameLinks_withCode {r : Chain .value × Arena .value .block Value} :
    Arena.SameLinks m.blocks (m.withCode b r).blocks :=
  Arena.sameLinks_modifyContent (k := b) fun (c : Block) => { c with chain := r.1 }

/-! ### Linking and unlinking -/

/-- A new chain for a block, with the code that it holds. -/
theorem Ordered.withCode {r : Chain .value × Arena .value .block Value} {l : List ValueId}
    (h : m.Ordered o) (hb : m.blocks.Has b)
    (hr : Threads (Function.update (fun k => (m.block k).chain) b r.1) r.2
      (Function.update o.code b l)) : (m.withCode b r).Ordered (o.setCode b l) where
  code := by
    rw [block_withCode hb]
    exact hr
  blocks := h.blocks.congr sameLinks_withCode

/-- A new chain for a function, with the blocks that it holds. -/
theorem Ordered.withBlocks {r : Chain .block × Arena .block .function Block} {l : List BlockId}
    (h : m.Ordered o) (hf : f.index < m.functions.size)
    (hc : ∀ b, r.2.content? b = m.blocks.content? b)
    (hr : Threads (Function.update (fun k => (m.function k).chain) f r.1) r.2
      (Function.update o.blocks f l)) : (m.withBlocks f r).Ordered (o.setBlocks f l) where
  code := by
    have : (fun k => ((m.withBlocks f r).block k).chain) = fun k => (m.block k).chain := by
      funext k
      simp only [block_def, Module.withBlocks, hc]
    rw [this]
    exact h.code
  blocks := by
    rw [function_withBlocks hf]
    exact hr

theorem Ordered.pushCode (h : m.Ordered o) (hb : m.blocks.Has b) (hv : m.values.Has v)
    (hn : m.blockOf? v = none) :
    (m.withCode b ((m.block b).chain.pushBack m.values b v)).Ordered
      (o.setCode b (o.code b ++ [v])) :=
  h.withCode hb (h.code.pushBack hv hn)

theorem Ordered.insertCode {xs ys : List ValueId} (h : m.Ordered o) (hv : m.values.Has v)
    (hn : m.blockOf? v = none) (hl : o.code b = xs ++ anchor :: ys) :
    (m.withCode b ((m.block b).chain.insertBefore m.values b anchor v)).Ordered
      (o.setCode b (xs ++ v :: anchor :: ys)) :=
  h.withCode (h.has_of_mem (v := anchor) (by simp [hl])) (h.code.insertBefore hv hn hl)

theorem Ordered.dropCode {xs ys : List ValueId} (h : m.Ordered o)
    (hl : o.code b = xs ++ v :: ys) :
    (m.withCode b ((m.block b).chain.unlink m.values v)).Ordered (o.setCode b (xs ++ ys)) :=
  h.withCode (h.has_of_mem (v := v) (by simp [hl])) (h.code.unlink hl)

theorem Ordered.pushBlocks (h : m.Ordered o) (hf : f.index < m.functions.size)
    (hb : m.blocks.Has b) (hn : m.functionOf? b = none) :
    (m.withBlocks f ((m.function f).chain.pushBack m.blocks f b)).Ordered
      (o.setBlocks f (o.blocks f ++ [b])) :=
  h.withBlocks hf (fun _ => Chain.content?_pushBack) (h.blocks.pushBack hb hn)

theorem Ordered.insertBlocks {k : BlockId} {xs ys : List BlockId} (h : m.Ordered o)
    (hb : m.blocks.Has b) (hn : m.functionOf? b = none) (hl : o.blocks f = xs ++ k :: ys) :
    (m.withBlocks f ((m.function f).chain.insertBefore m.blocks f k b)).Ordered
      (o.setBlocks f (xs ++ b :: k :: ys)) :=
  h.withBlocks (h.hasFunction_of_mem (b := k) (by simp [hl]))
    (fun _ => Chain.content?_insertBefore) (h.blocks.insertBefore hb hn hl)

theorem Ordered.dropBlocks {xs ys : List BlockId} (h : m.Ordered o)
    (hl : o.blocks f = xs ++ b :: ys) :
    (m.withBlocks f ((m.function f).chain.unlink m.blocks b)).Ordered
      (o.setBlocks f (xs ++ ys)) :=
  h.withBlocks (h.hasFunction_of_mem (b := b) (by simp [hl])) (fun _ => Chain.content?_unlink)
    (h.blocks.unlink hl)

end Module
end SsaKit
