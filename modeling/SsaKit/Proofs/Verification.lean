import SsaKit.Proofs.Content
import SsaKit.Proofs.Verify

/-! Exactly what verification asks for, and when a function with less code still has it. -/
namespace SsaKit.Module

variable {m m' : Module} {o o' : Order} {f : FunctionId} {b k : BlockId} {last v w : ValueId}
  {afterPhis afterPhis' : Bool} {l l' : List ValueId} {i i' : Instruction} {kept : BlockId → Prop}

/-! ### What is checked -/

theorem forM_eq_ok {α ε : Type} {check : α → Except ε Unit} {xs : List α} :
    xs.forM check = .ok () ↔ ∀ x ∈ xs, check x = .ok () := by
  refine ⟨forM_ok, fun h => ?_⟩
  induction xs with
  | nil => rfl
  | cons x xs ih =>
    change (check x >>= fun _ => xs.forM check) = .ok ()
    rw [h x (by simp)]
    exact ih fun y hy => h y (by simp [hy])

theorem checkOperands_eq_ok :
    m.checkOperands f b i = .ok () ↔ ∀ w ∈ i.operands, m.operandFault f w = none := by
  rw [← List.findSome?_eq_none_iff]
  unfold checkOperands
  split <;> simp_all

/-- What is in its place only has its operands checked. -/
theorem InPlace.checkInstruction_eq (h : m.InPlace f b last afterPhis v i) :
    m.checkInstruction f b last afterPhis v = m.checkOperands f b i := by
  have hlast : (i.isTerminator && decide (v ≠ last)) = false := by
    cases ht : i.isTerminator with
    | false => rfl
    | true => simpa using h.terminator.mp ht
  have hinner : (!i.isTerminator && decide (v = last)) = false := by
    cases ht : i.isTerminator with
    | true => rfl
    | false =>
      have hne : v ≠ last := fun he => by simpa [ht] using h.terminator.mpr he
      simpa using hne
  unfold checkInstruction
  rw [h.instruction]
  simp only [hlast, hinner]
  cases i with
  | phi incoming =>
    obtain ⟨hafter, hmerges⟩ := h.phi incoming rfl
    simp [hafter, hmerges]
  | call callee args => simp [h.callee callee args rfl]
  | _ => rfl

theorem checkInstruction_eq_ok : m.checkInstruction f b last afterPhis v = .ok () ↔
    ∃ i, m.InPlace f b last afterPhis v i ∧ ∀ w ∈ i.operands, m.operandFault f w = none := by
  constructor
  · intro h
    obtain ⟨i, hi⟩ := inPlace_of_check h
    rw [hi.checkInstruction_eq] at h
    exact ⟨i, hi, checkOperands_eq_ok.mp h⟩
  · rintro ⟨i, hi, hw⟩
    rw [hi.checkInstruction_eq]
    exact checkOperands_eq_ok.mpr hw

theorem checkInstructions_eq_ok : m.checkInstructions f b last afterPhis l = .ok () ↔
    m.Placed f b last afterPhis l ∧ ∀ v ∈ l, ∀ w ∈ readOf m v, m.operandFault f w = none := by
  induction l generalizing afterPhis with
  | nil => exact ⟨fun _ => ⟨.nil _, by simp⟩, fun _ => rfl⟩
  | cons v l ih =>
    have hcons : m.checkInstructions f b last afterPhis (v :: l) = .ok () ↔
        m.checkInstruction f b last afterPhis v = .ok () ∧ m.checkInstructions f b last
          (afterPhis && (m.instruction? v).any Instruction.isPhi) l = .ok () := by
      rw [checkInstructions]
      cases m.checkInstruction f b last afterPhis v with
      | error e => simp [bind, Except.bind]
      | ok u => simp [bind, Except.bind]
    rw [hcons, ih, checkInstruction_eq_ok]
    constructor
    · rintro ⟨⟨i, hi, hw⟩, hplaced, hread⟩
      rw [hi.instruction, Option.any_some] at hplaced
      refine ⟨.cons hi hplaced, fun u hu w hmem => ?_⟩
      rcases List.mem_cons.mp hu with rfl | hu
      · obtain ⟨j, hj, hmem⟩ := mem_readOf.mp hmem
        obtain rfl := Option.some_inj.mp (hi.instruction.symm.trans hj)
        exact hw w hmem
      · exact hread u hu w hmem
    · rintro ⟨hplaced, hread⟩
      cases hplaced with
      | cons hi hplaced =>
        refine ⟨⟨_, hi, fun w hw => hread v (by simp) w (mem_readOf.mpr ⟨_, hi.instruction, hw⟩)⟩,
          ?_, fun u hu => hread u (by simp [hu])⟩
        rwa [hi.instruction, Option.any_some]

/-- A verified function whose code reads nothing but what is at hand. -/
structure Checked (m : Module) (f : FunctionId) : Prop extends m.Verified f where
  readable : ∀ v ∈ m.instructionsOf f, ∀ w ∈ readOf m v, m.operandFault f w = none

theorem checkSuccessors_eq_ok :
    m.checkSuccessors f b = .ok () ↔ ∀ s ∈ m.successors b, m.functionOf? s = some f := by
  unfold checkSuccessors
  split
  · rename_i s hfind
    have hs : m.functionOf? s ≠ some f := by simpa using List.find?_some hfind
    simpa using ⟨s, List.mem_of_find?_eq_some hfind, hs⟩
  · rename_i hfind
    simpa using hfind

theorem checkBlock_eq_ok : m.checkBlock f b = .ok () ↔ ∃ last, (m.block b).chain.last = some last ∧
    m.checkInstructions f b last true (m.instructions b) = .ok () := by
  unfold checkBlock
  cases (m.block b).chain.last <;> simp

theorem checkFunction_eq_ok : m.checkFunction f = .ok () ↔ m.Checked f := by
  have hboth : m.checkFunction f = .ok () ↔ (m.blocksOf f).forM (m.checkSuccessors f) = .ok () ∧
      (m.blocksOf f).forM (m.checkBlock f) = .ok () := by
    unfold checkFunction
    cases (m.blocksOf f).forM (m.checkSuccessors f) with
    | error e => simp [bind, Except.bind]
    | ok u => simp [bind, Except.bind]
  rw [hboth, forM_eq_ok, forM_eq_ok]
  simp only [checkSuccessors_eq_ok, checkBlock_eq_ok, checkInstructions_eq_ok]
  constructor
  · rintro ⟨hinside, hblocks⟩
    refine ⟨⟨hinside, fun b hb => ?_⟩, fun v hv => ?_⟩
    · obtain ⟨last, hlast, hplaced, -⟩ := hblocks b hb
      exact ⟨last, hlast, hplaced⟩
    · obtain ⟨b, hb, hmem⟩ := List.mem_flatMap.mp hv
      obtain ⟨last, -, -, hread⟩ := hblocks b hb
      exact hread v hmem
  · intro h
    refine ⟨h.inside, fun b hb => ?_⟩
    obtain ⟨last, hlast, hplaced⟩ := h.placed b hb
    exact ⟨last, hlast, hplaced, fun v hmem => h.readable v (List.mem_flatMap.mpr ⟨b, hb, hmem⟩)⟩

/-- A module passes verification exactly when all of its live functions do. -/
theorem verify_eq_ok : m.verify = .ok () ↔ ∀ f ∈ m.liveFunctions, m.Checked f := by
  unfold verify
  rw [forM_eq_ok]
  refine forall₂_congr fun f _ => ?_
  rw [← checkFunction_eq_ok, verifyFunction]
  cases m.checkFunction f <;> simp [Except.mapError]

/-! ### Operands at hand -/

theorem Ordered.blockOf?_bind_functionOf? (ho : m.Ordered o) :
    (m.blockOf? v).bind m.functionOf? = some f ↔ v ∈ m.instructionsOf f := by
  rw [Option.bind_eq_some_iff, instructionsOf, List.mem_flatMap]
  simp only [ho.blockOf?_eq_some, ho.functionOf?_eq_some, ho.blocksOf_eq, ho.instructions_eq,
    and_comm]

/-- What is read of the code of a function is code of that function. -/
theorem Ordered.mem_instructionsOf_of_readable (ho : m.Ordered o)
    (h : m.operandFault f w = none) (hi : m.instruction? w = some i) : w ∈ m.instructionsOf f := by
  unfold operandFault at h
  rw [kindOf_of_instruction? hi] at h
  by_contra hn
  simp [mt ho.blockOf?_bind_functionOf?.mp hn] at h

/-- An operand stays at hand as long as its block and its name are not taken away. -/
theorem operandFault_kept (ho : m.Ordered o) (ho' : m'.Ordered o')
    (hkind : m'.kindOf w = m.kindOf w ∨
      ∃ i i', m.kindOf w = .instruction i ∧ m'.kindOf w = .instruction i')
    (hcode : w ∈ m.instructionsOf f → w ∈ m'.instructionsOf f)
    (hname : ∀ g, m.kindOf w = .global g → w ∈ m.globalNames.values → w ∈ m'.globalNames.values)
    (h : m.operandFault f w = none) : m'.operandFault f w = none := by
  have code {i i' : Instruction} (hk : m.kindOf w = .instruction i)
      (hk' : m'.kindOf w = .instruction i') : m'.operandFault f w = none := by
    have hin : w ∈ m.instructionsOf f :=
      ho.mem_instructionsOf_of_readable h (i := i) (by rw [instruction?, hk]; rfl)
    unfold operandFault
    simp [hk', ho'.blockOf?_bind_functionOf?.mpr (hcode hin)]
  obtain hsame | ⟨i, i', hi, hi'⟩ := hkind
  · cases hk : m.kindOf w with
    | instruction i => exact code hk (hsame.trans hk)
    | argument owner position =>
      unfold operandFault at h ⊢
      rw [hsame, hk]
      simpa [hk] using h
    | global g =>
      unfold operandFault at h ⊢
      rw [hsame, hk]
      have hin : w ∈ m.globalNames.values := by
        by_contra hn
        simp [hk, hn] at h
      simp [hname g hk hin]
    | _ =>
      unfold operandFault
      rw [hsame, hk]
  · exact code hi hi'

/-! ### Less code -/

theorem getLast?_filter {α : Type} {p : α → Bool} {l : List α} (h : ∀ a ∈ l.getLast?, p a) :
    (l.filter p).getLast? = l.getLast? := by
  obtain rfl | ⟨xs, a, rfl⟩ := l.eq_nil_or_concat'
  · rfl
  · simp [List.filter_append, h a (by simp)]

/-- Every block of a verified function ends with a terminator. -/
theorem Verified.terminator_of_getLast? (h : m.Verified f) (ho : m.Ordered o)
    (hb : b ∈ m.blocksOf f) (hl : (m.instructions b).getLast? = some v) :
    ∃ i, m.instruction? v = some i ∧ i.isTerminator := by
  obtain ⟨last, hlast, hplaced⟩ := h.placed b hb
  rw [ho.last_eq, ← ho.instructions_eq] at hlast
  obtain rfl : v = last := Option.some_inj.mp (hl.symm.trans hlast)
  obtain ⟨afterPhis, i, hplace⟩ := hplaced.inPlace_of_mem (List.mem_of_getLast? hl)
  exact ⟨i, hplace.instruction, hplace.terminator.mpr rfl⟩

/-- An instruction that ends a block as another one does, calls what that one calls, and merges what
that one merges from the blocks that are kept. -/
structure Echoes (kept : BlockId → Prop) (i i' : Instruction) : Prop where
  isTerminator : i'.isTerminator = i.isTerminator
  isPhi : i'.isPhi = i.isPhi
  successors : i'.successors = i.successors
  phi : ∀ incoming', i' = .phi incoming' → ∃ incoming, i = .phi incoming ∧
    ((incoming.map (·.1)).Nodup → (incoming'.map (·.1)).Nodup) ∧
    ∀ k, k ∈ incoming'.map (·.1) ↔ k ∈ incoming.map (·.1) ∧ kept k
  callee : ∀ callee args', i' = .call callee args' → ∃ args, i = .call callee args

/-- An instruction echoes itself if all that it merges comes from blocks that are kept. -/
theorem Echoes.refl (h : ∀ incoming, i = .phi incoming → ∀ k ∈ incoming.map (·.1), kept k) :
    Echoes kept i i where
  isTerminator := rfl
  isPhi := rfl
  successors := rfl
  phi incoming hi := ⟨incoming, hi, id, fun k => (and_iff_left_of_imp (h incoming hi k)).symm⟩
  callee _ args hi := ⟨args, hi⟩

/-- A function that lost blocks and instructions, but no end of a block and nothing that is read by
what it kept. -/
structure Narrows (m m' : Module) (f : FunctionId) (kept : BlockId → Prop) : Prop where
  blocks : ∀ b, b ∈ m'.blocksOf f ↔ b ∈ m.blocksOf f ∧ kept b
  closed : ∀ b ∈ m'.blocksOf f, ∀ s ∈ m.successors b, kept s
  code : ∀ b ∈ m'.blocksOf f, (m'.instructions b).Sublist (m.instructions b)
  last : ∀ b ∈ m'.blocksOf f, (m'.instructions b).getLast? = (m.instructions b).getLast?
  echoes : ∀ b ∈ m'.blocksOf f, ∀ v ∈ m'.instructions b, ∀ i, m.instruction? v = some i →
    ∃ i', m'.instruction? v = some i' ∧ Echoes kept i i'
  callee : ∀ v ∈ m'.instructionsOf f, ∀ callee args,
    m.instruction? v = some (.call callee args) → m'.isRemoved callee = m.isRemoved callee
  readable : ∀ v ∈ m'.instructionsOf f, ∀ w ∈ readOf m' v, m'.operandFault f w = none

theorem mergesAll_iff {incoming : List (BlockId × ValueId)} : m.mergesAll f b incoming ↔
    (incoming.map (·.1)).Nodup ∧ ∀ k, k ∈ incoming.map (·.1) ↔ k ∈ m.predecessors f b := by
  simp only [mergesAll, Bool.and_eq_true, List.all_eq_true, List.contains_iff_mem,
    decide_eq_true_eq]
  exact ⟨fun h => ⟨h.2, fun k => ⟨h.1.1 k, h.1.2 k⟩⟩,
    fun h => ⟨⟨fun k => (h.2 k).mp, fun k => (h.2 k).mpr⟩, h.1⟩⟩

theorem mem_predecessors : k ∈ m.predecessors f b ↔ k ∈ m.blocksOf f ∧ b ∈ m.successors k := by
  simp [predecessors]

namespace Narrows

variable (hn : m.Narrows m' f kept) (h : m.Verified f) (ho : m.Ordered o) (ho' : m'.Ordered o')
include hn h ho ho'

theorem successors_eq (hb : b ∈ m'.blocksOf f) : m'.successors b = m.successors b := by
  have hlast := hn.last b hb
  rw [ho.successors_eq, ho'.successors_eq, ← ho.instructions_eq, ← ho'.instructions_eq, hlast]
  cases hl : (m.instructions b).getLast? with
  | none => rfl
  | some v =>
    obtain ⟨last, afterPhis, i, hplace⟩ :=
      h.inPlace ((hn.blocks b).mp hb).1 (List.mem_of_getLast? hl)
    obtain ⟨i', hi', hechoes⟩ :=
      hn.echoes b hb v (List.mem_of_getLast? (hlast.trans hl)) i hplace.instruction
    simp [hplace.instruction, hi', hechoes.successors]

theorem mem_predecessors : k ∈ m'.predecessors f b ↔ k ∈ m.predecessors f b ∧ kept k := by
  rw [Module.mem_predecessors, Module.mem_predecessors]
  constructor
  · rintro ⟨hk, hs⟩
    rw [hn.successors_eq h ho ho' hk] at hs
    obtain ⟨hold, hkept⟩ := (hn.blocks k).mp hk
    exact ⟨⟨hold, hs⟩, hkept⟩
  · rintro ⟨⟨hold, hs⟩, hkept⟩
    have hk := (hn.blocks k).mpr ⟨hold, hkept⟩
    rw [← hn.successors_eq h ho ho' hk] at hs
    exact ⟨hk, hs⟩

theorem inPlace (hb : b ∈ m'.blocksOf f) (hv : v ∈ m'.instructions b)
    (hplace : m.InPlace f b last afterPhis v i) (hafter : afterPhis → afterPhis') :
    ∃ i', m'.InPlace f b last afterPhis' v i' ∧ i'.isPhi = i.isPhi := by
  obtain ⟨i', hi', hechoes⟩ := hn.echoes b hb v hv i hplace.instruction
  refine ⟨i', ⟨hi', ?_, fun incoming' he => ?_, fun callee args' he => ?_⟩, hechoes.isPhi⟩
  · rw [hechoes.isTerminator]
    exact hplace.terminator
  · obtain ⟨incoming, he, hnodup, hmem⟩ := hechoes.phi incoming' he
    obtain ⟨hphis, hmerges⟩ := hplace.phi incoming he
    obtain ⟨hsources, hall⟩ := mergesAll_iff.mp hmerges
    refine ⟨hafter hphis, mergesAll_iff.mpr ⟨hnodup hsources, fun k => ?_⟩⟩
    rw [hmem, hall, hn.mem_predecessors h ho ho']
  · obtain ⟨args, he⟩ := hechoes.callee callee args' he
    rw [hn.callee v (List.mem_flatMap.mpr ⟨b, hb, hv⟩) callee args (he ▸ hplace.instruction)]
    exact hplace.callee callee args he

/-- Fewer instructions are in place behind no more others than before. -/
theorem placed (hb : b ∈ m'.blocksOf f) (hplaced : m.Placed f b last afterPhis l)
    (hl : l'.Sublist l) (hin : ∀ v ∈ l', v ∈ m'.instructions b)
    (hafter : afterPhis → afterPhis') : m'.Placed f b last afterPhis' l' := by
  induction hl generalizing afterPhis afterPhis' with
  | slnil => exact .nil _
  | cons v _ ih =>
    cases hplaced with
    | cons hi hl => exact ih hl hin fun hphis => hafter (Bool.and_eq_true_iff.mp hphis).1
  | cons_cons v _ ih =>
    cases hplaced with
    | cons hi hl =>
      obtain ⟨i', hi', hphi⟩ := hn.inPlace h ho ho' hb (hin v (by simp)) hi hafter
      refine .cons hi' (ih hl (fun u hu => hin u (by simp [hu])) fun hphis => ?_)
      rw [hphi]
      rw [Bool.and_eq_true] at hphis ⊢
      exact ⟨hafter hphis.1, hphis.2⟩

/-- A function that lost code in this way is still verified. -/
theorem checked : m'.Checked f where
  inside b hb s hs := by
    rw [hn.successors_eq h ho ho' hb] at hs
    have hold := ho.functionOf?_eq_some.mp (h.inside b ((hn.blocks b).mp hb).1 s hs)
    rw [← ho.blocksOf_eq] at hold
    refine ho'.functionOf?_eq_some.mpr ?_
    rw [← ho'.blocksOf_eq]
    exact (hn.blocks s).mpr ⟨hold, hn.closed b hb s hs⟩
  placed b hb := by
    obtain ⟨last, hlast, hplaced⟩ := h.placed b ((hn.blocks b).mp hb).1
    refine ⟨last, ?_, hn.placed h ho ho' hb hplaced (hn.code b hb) (fun _ hv => hv) id⟩
    rw [ho'.last_eq, ← ho'.instructions_eq, hn.last b hb, ho.instructions_eq, ← ho.last_eq, hlast]
  readable := hn.readable

end Narrows
end SsaKit.Module
