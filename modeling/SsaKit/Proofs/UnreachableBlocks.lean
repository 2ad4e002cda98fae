import SsaKit.Proofs.Agreement
import SsaKit.Proofs.Reachable
import SsaKit.Proofs.Search
import SsaKit.Transform.Pipeline

/-! Removal of unreachable blocks: what goes is what control cannot come to, and no run can tell. -/
namespace SsaKit

open Attempt SsaKit.Module Transform

variable {m m' : Module} {o : Order} {f g : FunctionId} {b s : BlockId} {v w : ValueId}
  {drop : ValueId → BlockId → Prop} {gone : BlockId → Prop}

namespace Module

/-- Control may come to a block from the entry of a function. -/
def Entered (m : Module) (f : FunctionId) (b : BlockId) : Prop :=
  ∃ entry ∈ m.entry? f, m.Reaches entry b

theorem Entered.edge (h : m.Entered f b) (he : m.Edge b s) : m.Entered f s := by
  obtain ⟨entry, hentry, hr⟩ := h
  exact ⟨entry, hentry, hr.tail he⟩

theorem Ordered.entry_mem (ho : m.Ordered o) {entry : BlockId} (h : entry ∈ m.entry? f) :
    entry ∈ m.blocksOf f := by
  rw [ho.entry?_eq] at h
  rw [ho.blocksOf_eq]
  exact List.mem_of_head? h

/-- An edge of a verified function stays inside. -/
theorem Verified.edge (hv : m.Verified f) (ho : m.Ordered o) (hb : b ∈ m.blocksOf f)
    (he : m.Edge b s) : s ∈ m.blocksOf f := by
  rw [ho.blocksOf_eq]
  exact ho.functionOf?_eq_some.mp (hv.inside b hb s he)

theorem Verified.reaches (hv : m.Verified f) (ho : m.Ordered o) (hb : b ∈ m.blocksOf f)
    (hr : m.Reaches b s) : s ∈ m.blocksOf f := by
  induction hr with
  | refl => exact hb
  | tail _ he ih => exact hv.edge ho ih he

theorem Verified.entered_mem (hv : m.Verified f) (ho : m.Ordered o) (h : m.Entered f b) :
    b ∈ m.blocksOf f := by
  obtain ⟨entry, hentry, hr⟩ := h
  exact hv.reaches ho (ho.entry_mem hentry) hr

/-- The search for reachable blocks finds where control may come to. -/
theorem Verified.mem_reachable_iff (hv : m.Verified f) (ho : m.Ordered o) {entry : BlockId}
    (he : m.entry? f = some entry) : b ∈ reachable m entry ↔ m.Entered f b := by
  have hin := ho.entry_mem (Option.mem_def.mpr he)
  rw [mem_reachable fun k hk => ?_]
  · simp [Entered, he]
  · have hk := hv.reaches ho hin hk
    rw [ho.blocksOf_eq] at hk
    exact ho.has_of_mem_blocks hk

/-- A block of a function that control cannot come to. -/
def Stranded (m : Module) (f : FunctionId) (b : BlockId) : Prop :=
  b ∈ m.blocksOf f ∧ ¬ m.Entered f b

/-- A phi in a block that control may come to names a block that it cannot come to. -/
def Sheds (m : Module) (f : FunctionId) (v : ValueId) (b : BlockId) : Prop :=
  m.Stranded f b ∧ (∃ k ∈ m.blocksOf f, m.Entered f k ∧ v ∈ m.instructions k) ∧
    ∃ entries, m.instruction? v = some (.phi entries)

/-! ### Cutting phis -/

end Module

open Classical in
/-- A phi without what it takes from some blocks, and everything else as it is. -/
noncomputable def ValueKind.cut (kind : ValueKind) (drop : BlockId → Prop) : ValueKind :=
  match kind with
  | .instruction (.phi entries) => .instruction (.phi (entries.filter fun e => ¬ drop e.1))
  | kind => kind

theorem ValueKind.cut_none (kind : ValueKind) : (kind.cut fun _ => False) = kind := by
  unfold cut
  split <;> simp

namespace Module

/-- A module in which phis lost what they took from some blocks, and some blocks are gone. -/
structure Cut (m : Module) (drop : ValueId → BlockId → Prop) (gone : BlockId → Prop)
    (m' : Module) : Prop extends m.SameOutline m' where
  changed : Changed m m'
  ordered : m'.Ordered (m.order.without gone)
  value : ∀ v, m'.value v = { m.value v with kind := (m.kindOf v).cut (drop v) }

namespace Cut

theorem refl (ho : m.Ordered o) : m.Cut (fun _ _ => False) (fun _ => False) m where
  toSameOutline := .refl m
  changed := .refl
  ordered := by
    rw [Order.without_none, ho.order_eq]
    exact ho
  value v := by
    rw [ValueKind.cut_none]
    rfl

theorem congr {drop' : ValueId → BlockId → Prop} {gone' : BlockId → Prop}
    (h : m.Cut drop gone m') (hd : ∀ v b, drop v b ↔ drop' v b) (hg : ∀ b, gone b ↔ gone' b) :
    m.Cut drop' gone' m' := by
  obtain rfl : drop = drop' := funext fun v => funext fun b => propext (hd v b)
  obtain rfl : gone = gone' := funext fun b => propext (hg b)
  exact h

section

variable (h : m.Cut drop gone m')
include h

theorem typeOf (v : ValueId) : m'.typeOf v = m.typeOf v := by
  rw [Module.typeOf, h.value]
  rfl

theorem kindOf (v : ValueId) : m'.kindOf v = (m.kindOf v).cut (drop v) := by
  rw [Module.kindOf, h.value]

open Classical in
theorem instruction?_phi {entries : List (BlockId × ValueId)}
    (hv : m.instruction? v = some (.phi entries)) :
    m'.instruction? v = some (.phi (entries.filter fun e => ¬ drop v e.1)) := by
  rw [Module.instruction?, h.kindOf, kindOf_of_instruction? hv]
  rfl

theorem instruction?_other (hv : ∀ entries, m.instruction? v ≠ some (.phi entries)) :
    m'.instruction? v = m.instruction? v := by
  rw [Module.instruction?, h.kindOf]
  unfold ValueKind.cut
  split
  · rename_i entries hk
    exact absurd (by rw [Module.instruction?, hk]; rfl) (hv entries)
  · rfl

/-- An instruction stays one. -/
theorem instruction?_some {i : Instruction} (hi : m.instruction? v = some i) :
    ∃ i', m'.instruction? v = some i' := by
  by_cases hv : ∃ entries, m.instruction? v = some (.phi entries)
  · obtain ⟨entries, he⟩ := hv
    exact ⟨_, h.instruction?_phi he⟩
  · exact ⟨i, (h.instruction?_other fun entries he => hv ⟨entries, he⟩).trans hi⟩

theorem phi_iff : (∃ entries, m'.instruction? v = some (.phi entries)) ↔
    ∃ entries, m.instruction? v = some (.phi entries) := by
  by_cases hv : ∃ entries, m.instruction? v = some (.phi entries)
  · obtain ⟨entries, he⟩ := hv
    exact ⟨fun _ => ⟨entries, he⟩, fun _ => ⟨_, h.instruction?_phi he⟩⟩
  · rw [h.instruction?_other fun entries he => hv ⟨entries, he⟩]

/-- A block that is still there has the code and the edges that it had. -/
theorem instructions_eq (hb : ¬ gone b) : m'.instructions b = m.instructions b := by
  rw [h.ordered.instructions_eq]
  simp [Order.without, hb, order]

open Classical in
theorem blocksOf_eq : m'.blocksOf f = (m.blocksOf f).filter fun b => ¬ gone b := by
  rw [h.ordered.blocksOf_eq]
  rfl

theorem successors_eq (ho : m.Ordered m.order) (hb : ¬ gone b) :
    m'.successors b = m.successors b := by
  refine ho.successors_congr h.ordered (by simp [Order.without, hb]) fun v _ => ?_
  by_cases hv : ∃ entries, m.instruction? v = some (.phi entries)
  · obtain ⟨entries, he⟩ := hv
    rw [h.instruction?_phi he, he]
    rfl
  · rw [h.instruction?_other fun entries he => hv ⟨entries, he⟩]

/-! ### One step -/

theorem removeIncoming {entries : List (BlockId × ValueId)}
    (hv : m.instruction? v = some (.phi entries)) (b : BlockId) :
    Ends (discard (Module.removeIncoming v b)) m'
      (fun _ => m.Cut (fun w s => drop w s ∨ w = v ∧ s = b) gone) fun _ => False := by
  have hi := h.instruction?_phi hv
  have hhas : m'.values.Has v := has_of_kindOf (by simp [kindOf_of_instruction? hi])
  unfold Module.removeIncoming
  simp only [ends_discard, ends_bind, ends_get, hi]
  refine ⟨⟨h.types, (size_revalued _ _ _).trans h.values, h.blocks, h.blockName, h.functions,
    h.head, h.functionNames, h.globals, h.globalNames⟩, h.changed.tail (.inl (.dropIncoming m' v b _ hi)),
    h.ordered.of_values (sameLinks_revalued _) rfl rfl, fun w => ?_⟩
  change (m'.revalued v _).value w = _
  rw [value_revalued hhas]
  by_cases hw : w = v
  · subst hw
    rw [if_pos rfl, h.value]
    simp only [kindOf_of_instruction? hv, ValueKind.cut, List.filter_filter]
    congr 3
    refine List.filter_congr fun e _ => ?_
    by_cases hd : drop w e.1 <;> by_cases hb : e.1 = b <;> simp [hd, hb]
  · rw [if_neg hw, h.value]
    simp [hw]

theorem removeBlock (b : BlockId) :
    Ends (Module.removeBlock b) m' (fun _ => m.Cut drop fun k => gone k ∨ k = b)
      fun _ => False := by
  have horder : Ends (Module.removeBlock b) m' (fun _ t => ∃ o', Changed m' t ∧ t.Ordered o' ∧
      (m.order.without gone).RemovesBlock o' b) fun _ => False :=
    ends_removeBlock h.ordered fun t o' hc ho hr => ⟨o', hc, ho, hr⟩
  refine (horder.and (removeBlock_content b)).mono (fun _ t ht => ?_) fun _ ht => ht.1
  obtain ⟨⟨o', hc, ho, hr⟩, hcontent⟩ := ht
  refine ⟨h.toSameOutline.trans hcontent.toSameOutline, h.changed.trans hc, ?_, fun v => ?_⟩
  · rw [← Order.without_without, ← h.ordered.eq_without_of_removesBlock hr]
    exact ho
  · rw [hcontent.value, h.value]

theorem dropBlock {phis : List ValueId}
    (hphis : ∀ v ∈ phis, ∃ entries, m.instruction? v = some (.phi entries)) (b : BlockId) :
    Ends (Transform.dropBlock phis b) m'
      (fun _ => m.Cut (fun w s => drop w s ∨ w ∈ phis ∧ s = b) fun k => gone k ∨ k = b)
      fun _ => False := by
  unfold Transform.dropBlock
  rw [ends_bind]
  refine (ends_forM_stages (P := fun done => m.Cut (fun w s => drop w s ∨ w ∈ done ∧ s = b) gone)
    (fun done v rest hl t ht => ?_) (h.congr (by simp) fun _ => .rfl)).mono
    (fun _ t ht => ht.removeBlock b) fun _ ht => ht
  obtain ⟨entries, hv⟩ := hphis v (by simp [hl])
  refine (ht.removeIncoming hv b).mono (fun _ u hu => hu.congr (fun w s => ?_) fun _ => .rfl)
    fun _ hu => hu
  rw [List.mem_append, List.mem_singleton]
  tauto

theorem dropBlocks {phis : List ValueId}
    (hphis : ∀ v ∈ phis, ∃ entries, m.instruction? v = some (.phi entries)) (dead : List BlockId) :
    Ends (dead.forM (Transform.dropBlock phis)) m'
      (fun _ => m.Cut (fun w s => drop w s ∨ w ∈ phis ∧ s ∈ dead) fun k => gone k ∨ k ∈ dead)
      fun _ => False := by
  refine ends_forM_stages
    (P := fun done => m.Cut (fun w s => drop w s ∨ w ∈ phis ∧ s ∈ done) fun k => gone k ∨ k ∈ done)
    (fun done b rest _ t ht => ?_) (h.congr (by simp) (by simp))
  refine (ht.dropBlock hphis b).mono (fun _ u hu => hu.congr (fun w s => ?_) fun k => ?_)
    fun _ hu => hu
  · rw [List.mem_append, List.mem_singleton]
    tauto
  · rw [List.mem_append, List.mem_singleton]
    tauto

/-! ### One function -/

/-- In a function that was not changed yet, control comes to the same blocks as before. -/
theorem reaches_iff (ho : m.Ordered m.order) (hv : m.Verified f)
    (hfresh : ∀ b ∈ m.blocksOf f, ¬ gone b) (hb : b ∈ m.blocksOf f) :
    m'.Reaches b s ↔ m.Reaches b s := by
  have hedge : ∀ {b}, b ∈ m.blocksOf f → ∀ s, m'.Edge b s ↔ m.Edge b s := fun hb s => by
    rw [Edge, Edge, h.successors_eq ho (hfresh _ hb)]
  constructor
  · intro hr
    induction hr with
    | refl => exact .refl
    | tail _ he ih => exact ih.tail ((hedge (hv.reaches ho hb ih) _).mp he)
  · intro hr
    induction hr with
    | refl => exact .refl
    | tail hr he ih => exact ih.tail ((hedge (hv.reaches ho hb hr) _).mpr he)

theorem removeUnreachableIn (ho : m.Ordered m.order) (hv : m.Verified f)
    (hfresh : ∀ b ∈ m.blocksOf f, ¬ gone b) :
    Ends (Transform.removeUnreachableIn f) m' (fun _ =>
      m.Cut (fun v s => drop v s ∨ m.Sheds f v s) fun b => gone b ∨ m.Stranded f b)
      fun _ => False := by
  have hblocks : m'.blocksOf f = m.blocksOf f := by
    rw [h.blocksOf_eq]
    exact List.filter_eq_self.mpr fun b hb => by simpa using hfresh b hb
  have hentry : m'.entry? f = m.entry? f := by
    rw [h.ordered.entry?_eq, ho.entry?_eq, ← h.ordered.blocksOf_eq, hblocks]
    rfl
  unfold Transform.removeUnreachableIn
  simp only [ends_bind, ends_get, hentry]
  split
  · rename_i hnone
    have hempty : ∀ b, ¬ m.Stranded f b := fun b hb => by
      rw [ho.entry?_eq, List.head?_eq_none_iff] at hnone
      have hmem : b ∈ m.order.blocks f := hb.1
      rw [hnone] at hmem
      cases hmem
    exact h.congr (fun v s => by simp [Sheds, hempty]) fun b => by simp [hempty]
  · rename_i entry hsome
    have hin := ho.entry_mem hsome
    have hseen : ∀ b, b ∈ reachable m' entry ↔ m.Entered f b := fun b => by
      rw [mem_reachable fun k hk => ?_, h.reaches_iff ho hv hfresh hin]
      · constructor
        · exact fun hr => ⟨entry, hsome, hr⟩
        · rintro ⟨k, hk, hr⟩
          obtain rfl : entry = k := by simpa [hsome] using hk
          exact hr
      · have hk := hv.reaches ho hin ((h.reaches_iff ho hv hfresh hin).mp hk)
        rw [← hblocks, h.ordered.blocksOf_eq] at hk
        exact h.ordered.has_of_mem_blocks hk
    rw [hblocks]
    have hphis : ∀ v, v ∈ phisOf m' ((m.blocksOf f).filter fun b => (reachable m' entry).contains b)
        ↔ (∃ k ∈ m.blocksOf f, m.Entered f k ∧ v ∈ m.instructions k) ∧
          ∃ entries, m.instruction? v = some (.phi entries) := fun v => by
      have hcode : (∃ k ∈ m.blocksOf f, m.Entered f k ∧ v ∈ m'.instructions k) ↔
          ∃ k ∈ m.blocksOf f, m.Entered f k ∧ v ∈ m.instructions k :=
        exists_congr fun k => and_congr_right fun hk => by rw [h.instructions_eq (hfresh k hk)]
      have hphi : (m'.instruction? v).any Instruction.isPhi ↔
          ∃ entries, m'.instruction? v = some (.phi entries) := by
        cases m'.instruction? v with
        | none => simp
        | some i => cases i <;> simp [Instruction.isPhi]
      rw [← hcode, ← h.phi_iff, ← hphi]
      simp [phisOf, hseen, and_assoc]
    have hdead : ∀ b, b ∈ (m.blocksOf f).filter (fun b => !(reachable m' entry).contains b) ↔
        m.Stranded f b := fun b => by simp [Stranded, hseen]
    rw [ends_bind]
    refine (h.dropBlocks (fun v hv => ((hphis v).mp hv).2) _).mono (fun _ t ht => ?_) fun _ ht => ht
    refine ht.congr (fun v s => ?_) fun b => by rw [hdead]
    rw [hphis, hdead, Sheds, and_comm]

end

end Cut

/-! ### All functions -/

/-- Every phi sheds what it took from unreachable blocks, and these are gone. -/
def Purged (m m' : Module) : Prop :=
  m.Cut (fun v s => ∃ f ∈ m.definedFunctions, m.Sheds f v s)
    (fun b => ∃ f ∈ m.definedFunctions, m.Stranded f b) m'

theorem ends_removeUnreachable (ho : m.Ordered m.order) (hv : m.verify = .ok ()) :
    Ends removeUnreachable m (fun _ => m.Purged) fun _ => False := by
  unfold removeUnreachable
  simp only [ends_bind, ends_get, ends_pure]
  refine ends_mapM_stages (P := fun done => m.Cut (fun v s => ∃ f ∈ done, m.Sheds f v s)
    fun b => ∃ f ∈ done, m.Stranded f b) (fun done f rest hl t ht => ?_)
    ((Cut.refl ho).congr (by simp) (by simp))
  have hdefined : f ∈ m.definedFunctions := by simp [hl]
  have hnew : f ∉ done := fun hf => by
    have hn : m.definedFunctions.Nodup := by
      refine (List.Nodup.filter _ ?_).filter _
      exact List.nodup_range.map fun _ _ he => (Handle.mk.injEq _ _).mp he
    rw [hl] at hn
    exact (List.nodup_cons.mp (List.nodup_middle.mp hn)).1 (List.mem_append_left _ hf)
  refine (ht.removeUnreachableIn ho (verified_of_verify hv (mem_definedFunctions.mp hdefined).1)
    fun b hb => ?_).mono (fun _ u hu => hu.congr (fun v s => ?_) fun b => ?_) fun _ hu => hu
  · rintro ⟨g, hg, hstranded⟩
    have hgf : g = f := ho.blocks.disjoint hstranded.1 hb
    exact hnew (hgf ▸ hg)
  · simp [or_and_right, exists_or]
  · simp [or_and_right, exists_or]

/-! ### Runs -/

theorem Ordered.stranded_iff (ho : m.Ordered m.order) (hf : f ∈ m.definedFunctions)
    (hb : b ∈ m.blocksOf f) :
    (∃ f ∈ m.definedFunctions, m.Stranded f b) ↔ ¬ m.Entered f b := by
  constructor
  · rintro ⟨g, -, hg⟩
    obtain rfl : g = f := ho.blocks.disjoint hg.1 hb
    exact hg.2
  · exact fun hn => ⟨f, hf, hb, hn⟩

theorem Ordered.not_stranded (ho : m.Ordered m.order) (hv : m.verify = .ok ())
    (hf : f ∈ m.definedFunctions) (hb : m.Entered f b) : ¬ ∃ f ∈ m.definedFunctions, m.Stranded f b := by
  have hverified := verified_of_verify hv (mem_definedFunctions.mp hf).1
  rw [ho.stranded_iff hf (hverified.entered_mem ho hb), not_not]
  exact hb

namespace Purged

variable (h : m.Purged m') (ho : m.Ordered m.order) (hv : m.verify = .ok ())
include h ho

open Classical in
theorem blocksOf_eq (hf : f ∈ m.definedFunctions) :
    m'.blocksOf f = (m.blocksOf f).filter fun b => m.Entered f b := by
  rw [Cut.blocksOf_eq h]
  refine List.filter_congr fun b hb => decide_eq_decide.mpr ?_
  rw [ho.stranded_iff hf hb, not_not]

open Classical in
/-- The entry of a function is kept. -/
theorem head?_blocksOf (hf : f ∈ m.liveFunctions) :
    (m'.blocksOf f).head? = (m.blocksOf f).head? := by
  cases hl : m.blocksOf f with
  | nil =>
    rw [Cut.blocksOf_eq h, hl]
    rfl
  | cons entry rest =>
    have hentry : m.Entered f entry := ⟨entry, by rw [ho.entry?_eq, ← ho.blocksOf_eq, hl]; rfl, .refl⟩
    rw [h.blocksOf_eq ho (ho.defined_of_mem hf (b := entry) (by simp [hl])), hl,
      List.filter_cons_of_pos (by simpa using hentry)]
    rfl

theorem entry?_eq (hf : f ∈ m.liveFunctions) : m'.entry? f = m.entry? f := by
  rw [Cut.ordered h |>.entry?_eq, ho.entry?_eq, ← (Cut.ordered h).blocksOf_eq, ← ho.blocksOf_eq,
    h.head?_blocksOf ho hf]

theorem isDeclaration_eq (hf : f ∈ m.liveFunctions) : m'.isDeclaration f = m.isDeclaration f := by
  have hentry := h.head?_blocksOf ho hf
  rw [(Cut.ordered h).isDeclaration_eq, ho.isDeclaration_eq, ← (Cut.ordered h).blocksOf_eq,
    ← ho.blocksOf_eq, decide_eq_decide, ← List.head?_eq_none_iff, hentry, List.head?_eq_none_iff]

include hv

open Classical in
theorem mem_blocksOf (hf : f ∈ m.definedFunctions) : b ∈ m'.blocksOf f ↔ m.Entered f b := by
  have hverified := verified_of_verify hv (mem_definedFunctions.mp hf).1
  rw [h.blocksOf_eq ho hf, List.mem_filter, decide_eq_true_eq]
  exact ⟨And.right, fun hb => ⟨hverified.entered_mem ho hb, hb⟩⟩

open Classical in
/-- A phi keeps what it takes from the blocks that are kept. -/
theorem phi_eq (hf : f ∈ m.definedFunctions) (hb : m.Entered f b) (hmem : v ∈ m.instructions b)
    {entries : List (BlockId × ValueId)} (hi : m.instruction? v = some (.phi entries)) :
    m'.instruction? v = some (.phi (entries.filter fun e => m.Entered f e.1)) := by
  have hverified := verified_of_verify hv (mem_definedFunctions.mp hf).1
  have hin := hverified.entered_mem ho hb
  obtain ⟨last, afterPhis, i, hplace⟩ := hverified.inPlace hin hmem
  obtain rfl : .phi entries = i := Option.some_inj.mp (hi.symm.trans hplace.instruction)
  rw [Cut.instruction?_phi h hi]
  congr 2
  refine List.filter_congr fun e he => decide_eq_decide.mpr ?_
  have hsource : e.1 ∈ m.blocksOf f :=
    List.mem_of_mem_filter (mem_of_mergesAll (hplace.phi entries rfl).2 he)
  rw [← not_iff_not, not_not, ← ho.stranded_iff hf hsource]
  constructor
  · rintro ⟨g, hg, hsheds⟩
    exact ⟨g, hg, hsheds.1⟩
  · rintro ⟨g, hg, hstranded⟩
    obtain rfl : g = f := ho.blocks.disjoint hstranded.1 hsource
    exact ⟨g, hg, hstranded, ⟨b, hin, hb, hmem⟩, entries, hi⟩

end Purged

end Module

namespace Setting

open SsaKit.Module

variable (host : Host) (limits : Limits)

/-- Cut phis and missing blocks change no constant and no lookup in a frame. -/
theorem sameConstants_of_cut (h : m.Cut drop gone m') :
    (⟨m, host, limits⟩ : Setting).SameConstants ⟨m', host, limits⟩ fun _ => True where
  host := rfl
  types := h.types
  values := h.values
  typeOf v _ := h.typeOf v
  kindOf v _ := by
    rw [h.kindOf]
    unfold ValueKind.cut
    split
    · rename_i hk
      exact .inr ⟨_, _, hk, rfl⟩
    · exact .inl rfl
  listed v _ _ := by simp only [isListed, h.globals]
  closed _ _ _ _ := trivial

theorem lookup_filter {entries : List (BlockId × ValueId)} {p : BlockId → Bool} (hb : p b) :
    (entries.filter fun e => p e.1).lookup b = entries.lookup b := by
  induction entries with
  | nil => rfl
  | cons e entries ih =>
    obtain ⟨k, w⟩ := e
    by_cases hk : p k
    · rw [List.filter_cons, if_pos hk, List.lookup_cons, List.lookup_cons, ih]
    · have hne : (b == k) = false := by
        rw [beq_eq_false_iff_ne]
        rintro rfl
        exact hk hb
      rw [List.filter_cons, if_neg hk, List.lookup_cons, hne, ih]

open Classical in
/-- Runs stay among the blocks that control may come to, and find everything there. -/
theorem agreesOn_purged (h : m.Purged m') (hs : m.Sound) (ho : m.Ordered m.order)
    (hv : m.verify = .ok ()) : (⟨m, host, limits⟩ : Setting).AgreesOn ⟨m', host, limits⟩
      (· ∈ m.liveFunctions) fun f b => f ∈ m.definedFunctions ∧ m.Entered f b where
  host := rfl
  limits := rfl
  types := h.types
  head f hf := sameHead_of_head (h.head f) (h.isDeclaration_eq ho hf) (h.entry?_eq ho hf)
  entry f hf b hb := ⟨ho.defined_of_mem hf (ho.entry_mem hb), b, hb, .refl⟩
  inside f b hb := (verified_of_verify hv (mem_definedFunctions.mp hb.1).1).entered_mem ho hb.2
  closed f b hb s hs := ⟨hb.1, hb.2.edge hs⟩
  label f b _ := h.label b
  instructions f b hb := Cut.instructions_eq h (ho.not_stranded hv hb.1 hb.2)
  code f b hb v hmem := by
    refine ⟨Cut.typeOf h v, ?_⟩
    have hverified := verified_of_verify hv (mem_definedFunctions.mp hb.1).1
    have hin := hverified.entered_mem ho hb.2
    obtain ⟨last, afterPhis, i, hplace⟩ := hverified.inPlace hin hmem
    have hread (w : ValueId) := (sameConstants_of_cut host limits h).sameRead (v := w) trivial
    change Option.Rel _ (m.instruction? v) (m'.instruction? v)
    rw [hplace.instruction]
    by_cases hphi : ∃ entries, i = .phi entries
    · obtain ⟨entries, rfl⟩ := hphi
      rw [h.phi_eq ho hv hb.1 hb.2 hmem hplace.instruction]
      refine .some (.phi (fun s hs => ?_) fun e _ _ => hread e.2)
      exact lookup_filter (p := fun k => decide (m.Entered f k)) (by simpa using hs.2)
    · rw [Cut.instruction?_other h fun entries he =>
        hphi ⟨entries, Option.some_inj.mp (hplace.instruction.symm.trans he)⟩, hplace.instruction]
      refine .some (.other ?_ (fun w _ => hread w) fun callee args hc => ?_)
      · cases i with
        | phi entries => exact (hphi ⟨entries, rfl⟩).elim
        | _ => rfl
      · have hfits := hs.instructionFits hplace.instruction
        rw [hc] at hfits
        exact mem_liveFunctions.mpr ⟨hfits.1, hplace.callee callee args hc⟩

end Setting

open Classical in
/-- Removal of unreachable blocks comes to its end, keeps exactly the blocks that control may come to
in their order, and exactly what phis take from these. No run of a function can tell the difference,
by its result, its fault or the machine that it leaves behind. -/
theorem Module.Reachable.unreachable_blocks (h : m.Reachable) (hv : m.verify = .ok ()) :
    ∃ changed m', Pass.unreachableBlockElim.run.outcome m = (.ok changed, m') ∧
      (∀ f ∈ m.definedFunctions,
        m'.blocksOf f = (m.blocksOf f).filter (fun b => m.Entered f b) ∧
        ∀ b ∈ m'.blocksOf f, m'.instructions b = m.instructions b ∧
          ∀ v ∈ m'.instructions b, ∀ entries, m.instruction? v = some (.phi entries) →
            m'.instruction? v = some (.phi (entries.filter fun e => e.1 ∈ m'.blocksOf f))) ∧
      ∀ (host : Host) (limits : Limits), ∀ f ∈ m.liveFunctions,
        (∀ levels args, (⟨m', host, limits⟩ : Setting).call levels f args =
          (⟨m, host, limits⟩ : Setting).call levels f args) ∧
        ∀ args, (⟨m', host, limits⟩ : Setting).runFunction f args =
          (⟨m, host, limits⟩ : Setting).runFunction f args := by
  have ho := h.ordered
  obtain ⟨changed, m', hrun, hp⟩ := (ends_removeUnreachable ho hv).exists_ok
  refine ⟨changed, m', hrun, fun f hf => ⟨hp.blocksOf_eq ho hf, fun b hb => ?_⟩,
    fun host limits f hf => ?_⟩
  · have hentered := (hp.mem_blocksOf ho hv hf).mp hb
    have hcode := Cut.instructions_eq hp (ho.not_stranded hv hf hentered)
    refine ⟨hcode, fun v hmem entries hi => ?_⟩
    rw [hcode] at hmem
    rw [hp.phi_eq ho hv hf hentered hmem hi]
    congr 2
    exact List.filter_congr fun e _ => decide_eq_decide.mpr (hp.mem_blocksOf ho hv hf).symm
  · have hagrees := Setting.agreesOn_purged host limits hp h.sound ho hv
    exact ⟨fun levels args => congrFun (hagrees.call_eq ho hv levels hf) args,
      hagrees.runFunction_eq ho hv hf⟩

/-- A program with a phi that takes one value from the entry and one from an orphaned block. -/
def orphaning : List Call :=
  [.types (.ofType (.int 32)),
    .symbol (.declareFunction "merge" ⟨0⟩ [] false),
    .layout (.appendBlock ⟨0⟩ "entry"),
    .layout (.appendBlock ⟨0⟩ "orphan"),
    .layout (.appendBlock ⟨0⟩ "exit"),
    .constant (.integer ⟨0⟩ 6),
    .constant (.integer ⟨0⟩ 7),
    .setCursor (some { block := ⟨0⟩ }),
    .emission (.br ⟨2⟩),
    .setCursor (some { block := ⟨1⟩ }),
    .emission (.br ⟨2⟩),
    .setCursor (some { block := ⟨2⟩ }),
    .emission (.phi ⟨0⟩ [(⟨0⟩, ⟨0⟩), (⟨1⟩, ⟨1⟩)]),
    .emission (.ret ⟨0⟩)]

/-- The builder after those calls. -/
def orphaned : Builder := Builder.replay { module := { name := "orphaning" } } orphaning

theorem reachable_orphaned : orphaned.Reachable :=
  Builder.Replays.reachable (by decide +kernel) (Builder.reachable_empty "orphaning")

/-- Without the orphan the program returns what it did, on as many steps. -/
theorem orphan_removed : orphaned.module.verify = .ok () ∧ ∃ changed m',
    Pass.unreachableBlockElim.run.outcome orphaned.module = (.ok changed, m') ∧
      (⟨m', .standard, { steps := 3 }⟩ : Setting).runFunction ⟨0⟩ [] = .ok (.int 32 6) := by
  have hv : orphaned.module.verify = .ok () := by decide +kernel
  obtain ⟨changed, m', hrun, -, hruns⟩ :=
    Module.Reachable.unreachable_blocks (m := orphaned.module) reachable_orphaned.module hv
  refine ⟨hv, changed, m', hrun, ?_⟩
  rw [(hruns .standard { steps := 3 } ⟨0⟩ (by decide +kernel)).2]
  decide +kernel

end SsaKit
