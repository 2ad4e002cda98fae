import SsaKit.Proofs.ConstantPropagation
import SsaKit.Proofs.Erasure
import SsaKit.Proofs.Origin
import SsaKit.Proofs.UnreachableBlocks
import SsaKit.Proofs.Verification

/-! What passes take for granted beyond verification, and how a pass that takes only code away keeps
all of it: erasing dead instructions and folding constants do. -/
namespace SsaKit

open SsaKit.Module Transform

variable {m m' : Module} {o o' : Order} {f : FunctionId} {b k : BlockId} {v w : ValueId}
  {word : UInt64} {bits : Nat} {dead : ValueId → Prop} {kept : BlockId → Prop}

namespace Module

/-! ### Code that control comes to reads no other code -/

/-- What an instruction reads when control comes to it. A phi reads what it takes from the blocks
that control may come from. -/
inductive Consults (m : Module) (f : FunctionId) (v : ValueId) : ValueId → Prop
  | phi {incoming : List (BlockId × ValueId)} {source : BlockId} {w : ValueId} :
    m.instruction? v = some (.phi incoming) → (source, w) ∈ incoming → m.Entered f source →
    Consults m f v w
  | other {i : Instruction} {w : ValueId} : m.instruction? v = some i → i.isPhi = false →
    w ∈ i.operands → Consults m f v w

/-- An instruction that stays the same consults what it did, if control comes to no more blocks. -/
theorem Consults.of_eq (h : m'.Consults f v w) (hi : m'.instruction? v = m.instruction? v)
    (hn : ∀ b, m'.Entered f b → m.Entered f b) : m.Consults f v w := by
  cases h with
  | phi hphi he hs => exact .phi (hi.symm.trans hphi) he (hn _ hs)
  | other hother hphi hw => exact .other (hi.symm.trans hother) hphi hw

/-- No instruction that control may come to reads one that it cannot come to. -/
def Separate (m : Module) : Prop :=
  ∀ f ∈ m.liveFunctions, ∀ b, m.Entered f b → ∀ v ∈ m.instructions b, ∀ w, m.Consults f v w →
    ∀ k, m.Stranded f k → w ∉ m.instructions k

/-- The name of a global on the list stands for that global, if it stands for any. -/
def OwnsNames (m : Module) : Prop :=
  ∀ v ∈ m.globals, ∀ e ∈ m.globalNames.entries, (m.value v).name = some e.1 → e.2 = v

namespace Narrows

variable (hn : m.Narrows m' f kept) (h : m.Verified f) (ho : m.Ordered o) (ho' : m'.Ordered o')
  (hentry : m'.entry? f = m.entry? f)
include hn h ho ho' hentry

/-- Control comes to the same blocks as before. -/
theorem entered_iff : m'.Entered f b ↔ m.Entered f b := by
  have hverified := (hn.checked h ho ho').toVerified
  constructor
  · rintro ⟨entry, he, hr⟩
    have hin := ho'.entry_mem he
    refine ⟨entry, hentry ▸ he, ?_⟩
    induction hr with
    | refl => exact .refl
    | tail hr hedge ih =>
      refine ih.tail ?_
      rwa [Edge, ← hn.successors_eq h ho ho' (hverified.reaches ho' hin hr)]
  · rintro ⟨entry, he, hr⟩
    have hin := ho'.entry_mem (hentry.symm ▸ he)
    refine ⟨entry, hentry.symm ▸ he, ?_⟩
    induction hr with
    | refl => exact .refl
    | tail hr hedge ih =>
      refine ih.tail ?_
      rwa [Edge, hn.successors_eq h ho ho' (hverified.reaches ho' hin ih)]

/-- Code that is kept apart stays apart. -/
theorem separate_at
    (hconsults : ∀ b, m'.Entered f b → ∀ v ∈ m'.instructions b, ∀ w ∈ m'.instructionsOf f,
      m'.Consults f v w → m.Consults f v w)
    (hseparate : ∀ b, m.Entered f b → ∀ v ∈ m.instructions b, ∀ w, m.Consults f v w →
      ∀ k, m.Stranded f k → w ∉ m.instructions k) (hb : m'.Entered f b)
    (hv : v ∈ m'.instructions b) (hw : m'.Consults f v w) (hk : m'.Stranded f k) :
    w ∉ m'.instructions k := by
  intro hmem
  have hverified := (hn.checked h ho ho').toVerified
  have hin := hverified.entered_mem ho' hb
  refine hseparate b ((hn.entered_iff h ho ho' hentry).mp hb) v ((hn.code b hin).mem hv) w
    (hconsults b hb v hv w (List.mem_flatMap.mpr ⟨k, hk.1, hmem⟩) hw) k
    ⟨((hn.blocks k).mp hk.1).1, ?_⟩ ((hn.code k hk.1).mem hmem)
  rw [← hn.entered_iff h ho ho' hentry]
  exact hk.2

end Narrows

theorem OwnsNames.mono (h : m.OwnsNames) (hglobals : ∀ v ∈ m'.globals, v ∈ m.globals)
    (hentries : ∀ e ∈ m'.globalNames.entries, e ∈ m.globalNames.entries)
    (hnames : ∀ v ∈ m'.globals, (m'.value v).name = (m.value v).name) : m'.OwnsNames :=
  fun v hv e he hname =>
    h v (hglobals v hv) e (hentries e he) ((hnames v hv).symm.trans hname)

end Module

/-- What a pass takes for granted of a verified module. -/
def Pass.Safe (m : Module) : Pass → Prop
  | .unreachableBlockElim => m.Separate
  | .globalDce => m.OwnsNames
  | .dce | .constProp => True

namespace Module

/-- A module that came from another one by changes and still is as safe to pass on as that one. -/
structure Keeps (m m' : Module) : Prop where
  changed : Changed m m'
  verified : m'.verify = .ok ()
  safe : ∀ p : Pass, p.Safe m → p.Safe m'

/-- Functions that all lost code in a good way, and names that all stayed their owners', are enough. -/
theorem Keeps.of_narrows (hc : Changed m m') (hv : m.verify = .ok ()) (ho : m.Ordered o)
    (ho' : m'.Ordered o') (hlive : ∀ f ∈ m'.liveFunctions, f ∈ m.liveFunctions)
    (hn : ∀ f ∈ m'.liveFunctions, ∃ kept, m.Narrows m' f kept)
    (hentry : ∀ f ∈ m'.liveFunctions, m'.entry? f = m.entry? f)
    (hconsults : ∀ f ∈ m'.liveFunctions, ∀ b, m'.Entered f b → ∀ v ∈ m'.instructions b,
      ∀ w ∈ m'.instructionsOf f, m'.Consults f v w → m.Consults f v w)
    (hnames : m.OwnsNames → m'.OwnsNames) : m.Keeps m' where
  changed := hc
  verified := verify_eq_ok.mpr fun f hf => by
    obtain ⟨kept, hn⟩ := hn f hf
    exact hn.checked (verified_of_verify hv (hlive f hf)) ho ho'
  safe p hp := by
    cases p with
    | globalDce => exact hnames hp
    | dce => trivial
    | unreachableBlockElim =>
      intro f hf b hb v hmem w hw k hk
      obtain ⟨kept, hn⟩ := hn f hf
      exact hn.separate_at (verified_of_verify hv (hlive f hf)) ho ho' (hentry f hf)
        (hconsults f hf) (hp f (hlive f hf)) hb hmem hw hk
    | constProp => trivial

/-! ### Dead code -/

namespace Erased

variable (h : m.Erased dead m') (ho : m.Ordered o)
include h ho

open Classical in
theorem narrows (hf : f ∈ m.liveFunctions) (hc : m.Checked f) :
    m.Narrows m' f fun _ => True where
  blocks b := by simp [h.blocksOf_eq]
  closed _ _ _ _ := trivial
  code b _ := by
    rw [h.instructions_eq]
    exact List.filter_sublist
  last b hb := by
    rw [h.instructions_eq]
    refine getLast?_filter fun v hv => ?_
    rw [h.blocksOf_eq] at hb
    obtain ⟨i, hi, hterm⟩ := hc.terminator_of_getLast? ho hb hv
    rw [decide_eq_true_eq]
    intro hdead
    obtain ⟨j, hj, hidle⟩ := h.idle v hdead
    obtain rfl := Option.some_inj.mp (hi.symm.trans hj)
    rw [Instruction.hasSideEffects_of_isTerminator hterm] at hidle
    cases hidle
  echoes _ _ v _ i hi := ⟨i, (h.instruction? v).trans hi, .refl fun _ _ _ _ => trivial⟩
  callee _ _ callee _ _ := h.isRemoved callee
  readable v hv w hw := by
    obtain ⟨hv, hlive⟩ := h.mem_instructionsOf.mp hv
    rw [h.readOf_eq] at hw
    refine operandFault_kept ho h.ordered (.inl (h.kindOf w)) (fun hin => ?_) (fun _ _ hname => ?_)
      (hc.readable v hv w hw)
    · exact h.mem_instructionsOf.mpr ⟨hin, h.unread f hf v hv hlive w hw⟩
    · rwa [h.globalNames]

theorem keeps (hv : m.verify = .ok ()) : m.Keeps m' := by
  have hchecked := verify_eq_ok.mp hv
  have hlive : m'.liveFunctions = m.liveFunctions := h.liveFunctions
  refine .of_narrows h.changed hv ho h.ordered (fun f hf => hlive ▸ hf)
    (fun f hf => ⟨_, h.narrows ho (hlive ▸ hf) (hchecked f (hlive ▸ hf))⟩)
    (fun f _ => h.entry?_eq ho f) (fun f hf b _ v _ w _ hw => ?_) fun hn => ?_
  · have hc := hchecked f (hlive ▸ hf)
    have hn := h.narrows ho (hlive ▸ hf) hc
    exact hw.of_eq (h.instruction? v) fun k =>
      (hn.entered_iff hc.toVerified ho h.ordered (h.entry?_eq ho f)).mp
  · refine hn.mono (fun v hv => h.globals ▸ hv) (fun e he => h.globalNames ▸ he) fun v _ => ?_
    rw [h.value]

end Erased

/-! ### Constants -/

theorem liveFunctions_folded (m : Module) (v : ValueId) (word : UInt64) :
    (m.folded v word).liveFunctions = m.liveFunctions := by
  simp only [liveFunctions, isRemoved, function_def, functions_folded]

theorem blocksOf_folded (ho : m.Ordered o) (f : FunctionId) :
    (m.folded v word).blocksOf f = m.blocksOf f := by
  rw [(ordered_folded ho).blocksOf_eq, ho.blocksOf_eq]

theorem entry_folded (ho : m.Ordered o) (f : FunctionId) :
    Module.entry? (m.folded v word) f = m.entry? f := by
  rw [(ordered_folded ho).entry?_eq, ho.entry?_eq]

theorem mem_instructionsOf_folded (ho : m.Ordered o) :
    w ∈ (m.folded v word).instructionsOf f ↔ w ∈ m.instructionsOf f ∧ w ≠ v := by
  simp [instructionsOf, blocksOf_folded ho, instructions_folded ho, ← and_assoc]

theorem echoes_mapOperands (g : ValueId → ValueId) (i : Instruction) :
    Echoes (fun _ => True) i (i.mapOperands g) where
  isTerminator := by cases i <;> rfl
  isPhi := Instruction.isPhi_mapOperands g i
  successors := Instruction.successors_mapOperands g i
  phi incoming' hi := by
    cases i with
    | phi incoming =>
      cases hi
      exact ⟨incoming, rfl, by simp [Function.comp_def], by simp [Function.comp_def]⟩
    | _ => cases hi
  callee _ _ hi := by
    cases i with
    | call callee args =>
      cases hi
      exact ⟨args, rfl⟩
    | _ => cases hi

theorem eq_of_standIn {c x : ValueId} (h : Setting.standIn v c x = w) (hw : w ≠ c) :
    x = w ∧ x ≠ v := by
  unfold Setting.standIn at h
  split at h
  · exact absurd h.symm hw
  · rename_i hne
    exact ⟨h, hne⟩

/-- What is read once the constant stands in: the constant, or what was read before. -/
theorem readOf_folded (hw : m.values.Has w) {u : ValueId} (hu : u ∈ readOf (m.folded v word) w) :
    u = ⟨m.values.size⟩ ∨ u ∈ readOf m w ∧ u ≠ v := by
  obtain ⟨i', hi', hu⟩ := mem_readOf.mp hu
  rw [instruction?_folded hw] at hi'
  obtain ⟨i, hi, rfl⟩ := Option.map_eq_some_iff.mp hi'
  rw [Instruction.operands_mapOperands] at hu
  obtain ⟨x, hx, hstand⟩ := List.mem_map.mp hu
  by_cases hnew : u = ⟨m.values.size⟩
  · exact .inl hnew
  · obtain ⟨rfl, hne⟩ := eq_of_standIn hstand hnew
    exact .inr ⟨mem_readOf.mpr ⟨i, hi, hx⟩, hne⟩

theorem Ordered.has_of_mem_instructionsOf (ho : m.Ordered o) (hw : w ∈ m.instructionsOf f) :
    m.values.Has w := by
  obtain ⟨b, -, hmem⟩ := List.mem_flatMap.mp hw
  rw [ho.instructions_eq] at hmem
  exact ho.has_of_mem_code hmem

/-- An instruction consults what it did before, but for the constant. -/
theorem consults_of_folded (hn : ∀ b, (m.folded v word).Entered f b → m.Entered f b)
    {u : ValueId} (hu : m.values.Has u) (hnew : w ≠ ⟨m.values.size⟩)
    (h : (m.folded v word).Consults f u w) : m.Consults f u w := by
  cases h with
  | phi hfolded he hs =>
    rw [instruction?_folded hu] at hfolded
    obtain ⟨i, hi, hphi⟩ := Option.map_eq_some_iff.mp hfolded
    cases i with
    | phi incoming =>
      cases hphi
      obtain ⟨e, he, hsame⟩ := List.mem_map.mp he
      obtain ⟨hsource, hvalue⟩ := Prod.mk.inj hsame
      obtain ⟨hvalue, -⟩ := eq_of_standIn hvalue hnew
      exact .phi hi (by rwa [← hsource, ← hvalue]) (hn _ hs)
    | _ => cases hphi
  | other hfolded hphi hw =>
    rw [instruction?_folded hu] at hfolded
    obtain ⟨i, hi, rfl⟩ := Option.map_eq_some_iff.mp hfolded
    rw [Instruction.operands_mapOperands] at hw
    obtain ⟨x, hx, hstand⟩ := List.mem_map.mp hw
    obtain ⟨rfl, -⟩ := eq_of_standIn hstand hnew
    exact .other hi (by rwa [Instruction.isPhi_mapOperands] at hphi) hx

section

variable (hcomes : m.ComesTo v bits word) (hs : m.Sound) (ho : m.Ordered o)
include hcomes ho

include hs in
theorem narrows_folded (hc : m.Checked f) : m.Narrows (m.folded v word) f fun _ => True where
  blocks b := by simp [blocksOf_folded ho]
  closed _ _ _ _ := trivial
  code b _ := by
    rw [instructions_folded ho]
    exact List.filter_sublist
  last b hb := by
    rw [instructions_folded ho]
    refine getLast?_filter fun u hu => ?_
    rw [blocksOf_folded ho] at hb
    obtain ⟨i, hi, hterm⟩ := hc.terminator_of_getLast? ho hb hu
    rw [decide_eq_true_eq]
    rintro rfl
    obtain ⟨j, hj, -, hinner, -⟩ := hcomes.settled
    obtain rfl := Option.some_inj.mp (hi.symm.trans hj)
    rw [hterm] at hinner
    cases hinner
  echoes b hb u hu i hi := by
    have hhas : m.values.Has u := has_of_kindOf (by simp [kindOf_of_instruction? hi])
    exact ⟨_, by rw [instruction?_folded hhas, hi, Option.map_some], echoes_mapOperands _ i⟩
  callee _ _ callee _ _ := by simp only [isRemoved, function_def, functions_folded]
  readable u hu w hw := by
    obtain ⟨hu, -⟩ := (mem_instructionsOf_folded ho).mp hu
    obtain rfl | ⟨hw, hne⟩ := readOf_folded (ho.has_of_mem_instructionsOf hu) hw
    · unfold operandFault
      rw [kindOf, value_folded_new]
    · refine operandFault_kept ho (ordered_folded ho) (kindOf_folded (has_of_mem_readOf hs hw))
        (fun hin => (mem_instructionsOf_folded ho).mpr ⟨hin, hne⟩) (fun _ _ hname => ?_)
        (hc.readable u hu w hw)
      rwa [globalNames_folded]

include hs in
theorem keeps_folded (hv : m.verify = .ok ()) (hl : m.ListsGlobals) (hhas : m.values.Has v) :
    m.Keeps (m.folded v word) := by
  have hchecked := verify_eq_ok.mp hv
  have hlive : (m.folded v word).liveFunctions = m.liveFunctions := liveFunctions_folded m v word
  have hn : ∀ f ∈ (m.folded v word).liveFunctions, m.Narrows (m.folded v word) f fun _ => True :=
    fun f hf => narrows_folded hcomes hs ho (hchecked f (hlive ▸ hf))
  refine .of_narrows (changed_folded hs hhas hcomes) hv ho (ordered_folded ho)
    (fun f hf => hlive ▸ hf) (fun f hf => ⟨_, hn f hf⟩) (fun f _ => entry_folded ho f)
    (fun f hf b hb u hu w hw hconsults => ?_) fun hnames => ?_
  · have hverified := (hchecked f (hlive ▸ hf)).toVerified
    have hin := ((hn f hf).checked hverified ho (ordered_folded ho)).entered_mem
      (ordered_folded ho) hb
    have hold : ∀ {x}, x ∈ (m.folded v word).instructionsOf f → m.values.Has x := fun hx =>
      ho.has_of_mem_instructionsOf ((mem_instructionsOf_folded ho).mp hx).1
    refine consults_of_folded (fun k => ((hn f hf).entered_iff hverified ho (ordered_folded ho)
      (entry_folded ho f)).mp) (hold (List.mem_flatMap.mpr ⟨b, hin, hu⟩)) ?_ hconsults
    rintro rfl
    exact Nat.lt_irrefl _ (hold hw)
  · refine hnames.mono (fun w hw => by rwa [globals_folded] at hw)
      (fun e he => by rwa [globalNames_folded] at he) fun w hw => ?_
    rw [globals_folded] at hw
    obtain ⟨g, hk⟩ := hl w hw
    rw [value_folded (has_of_kindOf (by simp [hk]))]
    unfold replaceIn
    split <;> rfl

end

end Module
end SsaKit
