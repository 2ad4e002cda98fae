import SsaKit.Proofs.Symbol

/-! What every operation on the layout does to the order of blocks and instructions. -/
namespace SsaKit

namespace Order

variable (o o' : Order)

/-- An instruction at the end of a block. -/
def AppendsCode (b : BlockId) (v : ValueId) : Prop := o' = o.setCode b (o.code b ++ [v])

/-- An instruction right before another one, in the block of that one. -/
def InsertsCode (anchor v : ValueId) : Prop :=
  ∃ b xs ys, o.code b = xs ++ anchor :: ys ∧ o' = o.setCode b (xs ++ v :: anchor :: ys)

/-- An instruction taken out of its block, if it is in one. -/
def DropsCode (v : ValueId) : Prop :=
  (∃ b xs ys, o.code b = xs ++ v :: ys ∧ o' = o.setCode b (xs ++ ys)) ∨
    ((∀ b, v ∉ o.code b) ∧ o' = o)

/-- A block at the end of a function. -/
def AppendsBlock (f : FunctionId) (b : BlockId) : Prop := o' = o.setBlocks f (o.blocks f ++ [b])

/-- A block right before another one, in the function of that one. -/
def InsertsBlock (anchor b : BlockId) : Prop :=
  ∃ f xs ys, o.blocks f = xs ++ anchor :: ys ∧ o' = o.setBlocks f (xs ++ b :: anchor :: ys)

/-- A block taken out of its function, if it is in one. -/
def DropsBlock (b : BlockId) : Prop :=
  (∃ f xs ys, o.blocks f = xs ++ b :: ys ∧ o' = o.setBlocks f (xs ++ ys)) ∨
    ((∀ f, b ∉ o.blocks f) ∧ o' = o)

/-- A block emptied and taken out of its function. -/
def RemovesBlock (b : BlockId) : Prop := DropsBlock (o.setCode b []) o' b

/-- All blocks of a function emptied and taken out of it. -/
def RemovesBlocks (f : FunctionId) : Prop :=
  o'.blocks = Function.update o.blocks f [] ∧
    o'.code = fun b => if b ∈ o.blocks f then [] else o.code b

end Order

namespace Module

open Attempt

variable {m m' : Module} {o : Order} {α : Type} {v anchor : ValueId} {b : BlockId}
  {f : FunctionId}

/-- A step that keeps the order when it fails, and relates it to the new one when it succeeds. -/
def Reorders (step : Edit α) (m : Module) (o : Order) (spec : α → Order → Prop) : Prop :=
  Ends step m (fun a m' => Changed m m' ∧ ∃ o', m'.Ordered o' ∧ spec a o')
    fun m' => Changed m m' ∧ m'.Ordered o

theorem Quietly.reorders {step : Edit α} (h : Quietly step m) (ho : m.Ordered o) :
    Reorders step m o fun _ o' => o' = o :=
  h.mono (fun _ _ hq => ⟨Quieted.changed hq, o, Quieted.ordered hq ho, rfl⟩)
    fun _ hq => ⟨Quieted.changed hq, Quieted.ordered hq ho⟩

theorem Ordered.not_mem_of_blockOf? (ho : m.Ordered o) (h : m.blockOf? v = none) (b : BlockId) :
    v ∉ o.code b := fun hv => by
  rw [ho.blockOf?_eq_some.mpr hv] at h
  cases h

theorem Ordered.not_mem_of_functionOf? (ho : m.Ordered o) (h : m.functionOf? b = none)
    (f : FunctionId) : b ∉ o.blocks f := fun hb => by
  rw [ho.functionOf?_eq_some.mpr hb] at h
  cases h

/-! ### Blocks -/

/-- A block that was just made: at hand, and in no function. -/
theorem pushBlock_new (m : Module) (name : Option String) :
    let m' : Module := { m with blocks := m.blocks.push { content := { name } } }
    m'.blocks.Has ⟨m.blocks.size⟩ ∧ m'.functionOf? ⟨m.blocks.size⟩ = none := by
  refine ⟨by simp [Arena.Has], ?_⟩
  simp [functionOf?, Arena.parent?]

theorem appendBlock_reorders (ho : m.Ordered o) (hf : m.HasFunction f) (name : String) :
    Reorders (appendBlock f name) m o fun b o' => o.AppendsBlock o' f b := by
  unfold Reorders appendBlock pushBlock
  simp only [ends_bind, ends_modifyGet, ends_pure]
  have hq := Quiet.pushBlock m (nameOf name)
  obtain ⟨hb, hn⟩ := pushBlock_new m (nameOf name)
  exact ⟨.tail (.single (.inl hq)) (.inr (.pushBlocks _ f _ hf hb hn)), _,
    (hq.ordered ho).pushBlocks hf hb hn, rfl⟩

theorem insertBlockBefore_reorders {anchor : BlockId} (ho : m.Ordered o) (name : String) :
    Reorders (insertBlockBefore anchor name) m o fun r o' => match r with
      | some b => o.InsertsBlock o' anchor b
      | none => (∀ f, anchor ∉ o.blocks f) ∧ o' = o := by
  unfold Reorders insertBlockBefore pushBlock
  simp only [ends_bind, ends_get]
  split
  · rename_i hn
    exact ⟨.refl, o, ho, ho.not_mem_of_functionOf? hn, rfl⟩
  · rename_i f hf
    simp only [ends_bind, ends_modifyGet, ends_pure]
    have hq := Quiet.pushBlock m (nameOf name)
    obtain ⟨hb, hn⟩ := pushBlock_new m (nameOf name)
    have hold := (Arena.sameLinks_push (a := m.blocks) { name := nameOf name }).parent anchor
    obtain ⟨xs, ys, hl⟩ := List.append_of_mem (ho.functionOf?_eq_some.mp hf)
    exact ⟨.tail (.single (.inl hq)) (.inr (.insertBlocks _ f anchor _ (hold.trans hf) hb hn)), _,
      (hq.ordered ho).insertBlocks hb hn hl, f, xs, ys, hl, rfl⟩

theorem setBlockName_quietly (b : BlockId) (name : String) : Quietly (setBlockName b name) m :=
  .single (.nameBlock m b (nameOf name))

theorem setCode_setCode (l l' : List ValueId) : (o.setCode b l).setCode b l' = o.setCode b l' := by
  simp [Order.setCode]

/-- Emptying a block instruction by instruction. -/
theorem ends_clear {l : List ValueId} {ok : Unit → Module → Prop} {failed : Module → Prop}
    (ho : m.Ordered (o.setCode b l))
    (h : ∀ m', Changed m m' → m'.Ordered (o.setCode b []) → m'.functions = m.functions →
      m'.blocks.parent? = m.blocks.parent? → ok () m') :
    Ends (l.forM fun v => Edit.relink b fun c a => c.unlink a v) m ok failed := by
  induction l generalizing m with
  | nil => exact h m .refl ho rfl rfl
  | cons v l ih =>
    have hv : m.blockOf? v = some b := ho.blockOf?_eq_some.mpr (by simp [Order.setCode])
    have hm := Move.dropCode m b v hv
    have hhead : (o.setCode b (v :: l)).code b = [] ++ v :: l := by simp [Order.setCode]
    have ho' := ho.dropCode hhead
    rw [List.nil_append, setCode_setCode] at ho'
    refine ih ho' fun m' hc hfin hf hp => h m' (.head (.inr hm) hc) hfin hf ?_
    rw [hp]
    exact funext fun k => sameLinks_withCode.parent k

theorem ends_removeBlock {ok : Unit → Module → Prop} {failed : Module → Prop} (ho : m.Ordered o)
    (h : ∀ m' o', Changed m m' → m'.Ordered o' → o.RemovesBlock o' b → ok () m') :
    Ends (removeBlock b) m ok failed := by
  unfold removeBlock
  simp only [ends_bind, ends_get]
  have hsame : o.setCode b (m.instructions b) = o := by
    simp [Order.setCode, ho.instructions_eq]
  refine ends_clear (hsame ▸ ho) fun m' hc ho' _ hp => ?_
  have hfunction : m'.functionOf? b = m.functionOf? b := congrFun hp b
  split
  · rename_i f hf
    obtain ⟨xs, ys, hl⟩ := List.append_of_mem (ho.functionOf?_eq_some.mp hf)
    exact h _ _ (hc.tail (.inr (.dropBlocks m' f b (hfunction.trans hf)))) (ho'.dropBlocks hl)
      (.inl ⟨f, xs, ys, hl, rfl⟩)
  · rename_i hn
    have hn : m.functionOf? b = none := by
      cases hf : m.functionOf? b with
      | none => rfl
      | some f => exact (hn f hf).elim
    exact h m' _ hc ho' (.inr ⟨ho.not_mem_of_functionOf? hn, rfl⟩)

theorem removeBlock_reorders (ho : m.Ordered o) (b : BlockId) :
    Reorders (removeBlock b) m o fun _ o' => o.RemovesBlock o' b :=
  ends_removeBlock ho fun _ o' hc ho' hr => ⟨hc, o', ho', hr⟩

/-- The first block of a function is removed from the head of its list. -/
theorem removesBlock_head {o' : Order} {l : List BlockId} (ho : m.Ordered o)
    (hl : o.blocks f = b :: l) (hr : o.RemovesBlock o' b) :
    o' = (o.setCode b []).setBlocks f l := by
  have hmem : b ∈ o.blocks f := by simp [hl]
  obtain ⟨k, xs, ys, hk, rfl⟩ | ⟨hn, -⟩ := hr
  · have hk : o.blocks k = xs ++ b :: ys := hk
    obtain rfl : k = f := ho.blocks.disjoint (k := b) (by simp [hk]) hmem
    have hnd : (b :: l).Nodup := hl ▸ (ho.blocks.holds k).nodup
    rw [hl] at hk
    cases xs with
    | nil =>
      obtain rfl : l = ys := by simpa using hk
      rfl
    | cons x xs =>
      simp only [List.cons_append, List.cons.injEq] at hk
      exact absurd (by simp [hk.2] : b ∈ l) (List.nodup_cons.mp hnd).1
  · exact absurd hmem (hn f)

theorem ends_removeBlocks {l : List BlockId} {ok : Unit → Module → Prop}
    {failed : Module → Prop} (ho : m.Ordered o) (hl : o.blocks f = l)
    (h : ∀ m' o', Changed m m' → m'.Ordered o' → o.RemovesBlocks o' f → ok () m') :
    Ends (l.forM removeBlock) m ok failed := by
  induction l generalizing m o with
  | nil =>
    refine h m o .refl ho ⟨?_, ?_⟩
    · rw [← hl, Function.update_eq_self]
    · simp [hl]
  | cons b l ih =>
    change Ends (removeBlock b >>= fun _ => l.forM removeBlock) m _ _
    rw [ends_bind]
    refine ends_removeBlock ho fun m1 o1 hc1 ho1 hr1 => ?_
    obtain rfl := removesBlock_head ho hl hr1
    refine ih ho1 (by simp [Order.setBlocks]) fun m2 o2 hc2 ho2 hr2 => ?_
    refine h m2 o2 (hc1.trans hc2) ho2 ⟨?_, ?_⟩
    · rw [hr2.1]
      simp [Order.setBlocks, Order.setCode]
    · rw [hr2.2]
      funext k
      by_cases hk : k = b
      · simp [Order.setBlocks, Order.setCode, hk, hl]
      · simp [Order.setBlocks, Order.setCode, hk, hl]

theorem functionName_refunctioned {g : Function → Function} (hg : ∀ x, (g x).name = x.name)
    (k : FunctionId) : (m.refunctioned f g).functionName k = m.functionName k := by
  simp only [functionName, function_def, refunctioned, Array.getElem?_modify]
  split
  · cases m.functions[k.index]? <;> simp [hg]
  · rfl

/-- A function is marked as removed or not, whatever else changes in it. -/
theorem isRemoved_refunctioned {g : Function → Function}
    (hg : ∀ x, (g x).isRemoved = x.isRemoved) (k : FunctionId) :
    (m.refunctioned f g).isRemoved k = m.isRemoved k := by
  simp only [isRemoved, function_def, refunctioned, Array.getElem?_modify]
  split
  · cases m.functions[k.index]? <;> simp [hg]
  · rfl

theorem isRemoved_withBlocks {r : Chain .block × Arena .block .function Block} (k : FunctionId) :
    (m.withBlocks f r).isRemoved k = m.isRemoved k :=
  isRemoved_refunctioned (m := m) (f := f) (g := fun c => { c with chain := r.1 }) (fun _ => rfl) k

theorem removeBlocks_isRemoved (f : FunctionId) (l : List BlockId) :
    Ends (l.forM removeBlock) m (fun _ t => t.isRemoved f = m.isRemoved f)
      fun t => t.isRemoved f = m.isRemoved f := by
  refine ends_forM (P := fun t => isRemoved t f = m.isRemoved f) (fun b _ t ht => ?_) rfl
  unfold removeBlock
  simp only [ends_bind, ends_get]
  refine (ends_forM (P := fun u => isRemoved u f = m.isRemoved f) (fun v _ u hu => ?_) ht).mono
    (fun _ u hu => ?_) fun _ hu => hu
  · exact hu
  · split
    · exact (isRemoved_withBlocks f).trans hu
    · exact hu

theorem removeFunction_reorders (ho : m.Ordered o) (f : FunctionId) :
    Reorders (removeFunction f) m o fun _ o' => if m.isRemoved f then o' = o
      else o.RemovesBlocks o' f := by
  unfold Reorders removeFunction
  simp only [ends_bind, ends_get]
  split
  · exact ⟨.refl, o, ho, rfl⟩
  · rename_i hlive
    split
    · exact ⟨.refl, ho⟩
    · rw [ends_bind]
      have hblocks : Ends ((m.blocksOf f).forM removeBlock) m
          (fun _ m1 => ∃ o1, Changed m m1 ∧ m1.Ordered o1 ∧ o.RemovesBlocks o1 f) fun _ => False :=
        ends_removeBlocks ho ho.blocksOf_eq.symm fun _ o1 hc ho1 hr => ⟨o1, hc, ho1, hr⟩
      refine (hblocks.and (removeBlocks_isRemoved f _)).mono (fun _ m1 h1 => ?_)
        fun _ h1 => h1.1.elim
      obtain ⟨⟨o1, hc, ho1, hr⟩, hmark⟩ := h1
      have hq := Quiet.removeFunction m1 f (hmark.trans (by simpa using hlive))
      simp only [Edit.modifyFunction, ends_bind, ends_modify]
      rw [← functionName_refunctioned (m := m1) (f := f)
        (g := fun x => { x with isRemoved := true }) (fun _ => rfl) f] at hq
      exact ⟨hc.tail (.inl hq), o1, hq.ordered ho1, hr⟩

/-! ### Instructions -/

theorem has_of_isInstruction (h : m.isInstruction v) : m.values.Has v :=
  has_of_kindOf fun hk => by simp [isInstruction, instruction?, hk, ValueKind.instruction?] at h

theorem ends_checkDetached {ok : Unit → Module → Prop} {failed : Module → Prop}
    (h : m.isInstruction v → m.blockOf? v = none → ok () m) (hfailed : failed m) :
    Ends (checkDetached v) m ok failed := by
  unfold checkDetached
  simp only [ends_bind, ends_get]
  split
  · rename_i hi
    split
    · exact hfailed
    · rename_i hn
      exact h hi (by simpa using hn)
  · exact hfailed

theorem appendInstruction_reorders (ho : m.Ordered o) (hb : m.blocks.Has b) :
    Reorders (appendInstruction b v) m o fun _ o' => o.AppendsCode o' b v := by
  unfold Reorders appendInstruction
  rw [ends_bind]
  refine ends_checkDetached (fun hi hn => ?_) ⟨.refl, ho⟩
  have hv := has_of_isInstruction hi
  exact ⟨.single (.inr (.pushCode m b v hb hv hn hi)), _, ho.pushCode hb hv hn, rfl⟩

theorem insertInstructionBefore_reorders (ho : m.Ordered o) :
    Reorders (insertInstructionBefore anchor v) m o fun _ o' => o.InsertsCode o' anchor v := by
  unfold Reorders insertInstructionBefore
  rw [ends_bind]
  refine ends_checkDetached (fun hi hn => ?_) ⟨.refl, ho⟩
  simp only [ends_bind, ends_get]
  have hv := has_of_isInstruction hi
  split
  · rename_i b ha
    obtain ⟨xs, ys, hl⟩ := List.append_of_mem (ho.blockOf?_eq_some.mp ha)
    exact ⟨.single (.inr (.insertCode m b anchor v ha hv hn hi)), _, ho.insertCode hv hn hl,
      b, xs, ys, hl, rfl⟩
  · exact ⟨.refl, ho⟩

/-- A module in which an instruction is out of its block. -/
def detached (m : Module) (v : ValueId) : Module :=
  match m.blockOf? v with
  | some b => m.withCode b ((m.block b).chain.unlink m.values v)
  | none => m

theorem ends_detach {ok : Unit → Module → Prop} {failed : Module → Prop}
    (h : ok () (m.detached v)) : Ends (detachInstruction v) m ok failed := by
  unfold detachInstruction
  unfold detached at h
  simp only [ends_bind, ends_get]
  cases hv : m.blockOf? v with
  | some b =>
    rw [hv] at h
    exact h
  | none =>
    rw [hv] at h
    exact h

theorem changed_detached (m : Module) (v : ValueId) : Changed m (m.detached v) := by
  unfold detached
  split
  · rename_i b hv
    exact .single (.inr (.dropCode m b v hv))
  · exact .refl

theorem Ordered.detached (ho : m.Ordered o) (v : ValueId) :
    ∃ o', (m.detached v).Ordered o' ∧ o.DropsCode o' v := by
  unfold Module.detached
  split
  · rename_i b hv
    obtain ⟨xs, ys, hl⟩ := List.append_of_mem (ho.blockOf?_eq_some.mp hv)
    exact ⟨_, ho.dropCode hl, .inl ⟨b, xs, ys, hl, rfl⟩⟩
  · rename_i hn
    exact ⟨o, ho, .inr ⟨ho.not_mem_of_blockOf? hn, rfl⟩⟩

/-- An instruction out of its block is out of every list. -/
theorem Ordered.instructions_detached (ho : m.Ordered o) (v : ValueId) (b : BlockId) :
    (m.detached v).instructions b = (m.instructions b).filter (· ≠ v) := by
  obtain ⟨o', ho', hd⟩ := ho.detached v
  have apart : ∀ {l : List ValueId}, v ∉ l → l.filter (· ≠ v) = l := fun hl =>
    List.filter_eq_self.mpr fun x hx => by
      have hne : x ≠ v := fun he => hl (he ▸ hx)
      simpa using hne
  rw [ho'.instructions_eq, ho.instructions_eq]
  rcases hd with ⟨k, xs, ys, hk, rfl⟩ | ⟨hn, rfl⟩
  · by_cases hb : b = k
    · subst hb
      have hnodup := (ho.code.holds b).nodup
      rw [hk] at hnodup
      have hout := List.nodup_middle.mp hnodup
      have hxy := (List.nodup_cons.mp hout).1
      have hx : v ∉ xs := fun hx => hxy (List.mem_append_left _ hx)
      have hy : v ∉ ys := fun hy => hxy (List.mem_append_right _ hy)
      rw [hk, List.filter_append, List.filter_cons_of_neg (by simp), apart hx, apart hy]
      simp [Order.setCode]
    · have hv : v ∉ o.code b := fun hv =>
        hb (ho.code.disjoint hv (by simp [hk]))
      rw [apart hv]
      simp [Order.setCode, hb]
  · exact (apart (hn b)).symm

theorem value_detached (m : Module) (v w : ValueId) : (m.detached v).value w = m.value w := by
  unfold detached
  split
  · simp [value_def, withCode]
  · rfl

theorem size_detached (m : Module) (v : ValueId) :
    (m.detached v).values.size = m.values.size := by
  unfold detached
  split
  · exact Chain.size_unlink
  · rfl

theorem ends_detachInstruction {ok : Unit → Module → Prop} {failed : Module → Prop}
    (ho : m.Ordered o)
    (h : ∀ m' o', Changed m m' → m'.Ordered o' → o.DropsCode o' v → ok () m') :
    Ends (detachInstruction v) m ok failed := by
  obtain ⟨o', ho', hd⟩ := ho.detached v
  exact ends_detach (h _ o' (changed_detached m v) ho' hd)

theorem detachInstruction_reorders (ho : m.Ordered o) (v : ValueId) :
    Reorders (detachInstruction v) m o fun _ o' => o.DropsCode o' v :=
  ends_detachInstruction ho fun _ o' hc ho' hd => ⟨hc, o', ho', hd⟩

theorem eraseInstruction_reorders (ho : m.Ordered o) (v : ValueId) :
    Reorders (eraseInstruction v) m o fun _ o' => o.DropsCode o' v := by
  unfold Reorders eraseInstruction
  simp only [ends_bind, ends_get]
  split
  · exact ⟨.refl, ho⟩
  · exact detachInstruction_reorders ho v

/-! ### Operands -/

theorem replaceAllUses_quietly {old new : ValueId} (ho : m.values.Has old)
    (hn : m.values.Has new) : Quietly (replaceAllUses old new) m := by
  rw [replaceAllUses_eq]
  unfold Quietly
  simp only [ends_bind, ends_get]
  split
  · rename_i ht
    exact .single (.replace m old new ho hn ht)
  · exact .refl

theorem addIncoming_quietly {incoming : ValueId} (hb : m.blocks.Has b)
    (hw : m.values.Has incoming) : Quietly (addIncoming v b incoming) m := by
  unfold Quietly addIncoming
  simp only [ends_bind, ends_get]
  split
  · rename_i ht
    split
    · rename_i entries he
      split
      · exact .refl
      · rename_i hfree
        refine .single (.addIncoming m v b incoming entries he ht hw hb fun e hmem heq => hfree ?_)
        exact List.any_eq_true.mpr ⟨e, hmem, by simp [heq]⟩
    · exact .refl
  · exact .refl

theorem removeIncoming_quietly (v : ValueId) (b : BlockId) :
    Quietly (removeIncoming v b) m := by
  unfold Quietly removeIncoming
  simp only [ends_bind, ends_get]
  split
  · rename_i entries he
    exact .single (.dropIncoming m v b entries he)
  · exact .refl

end Module
end SsaKit
