import SsaKit.Proofs.Acceptance

/-! Passes on a verified module: each one comes to its end, reports whether it changed anything, and
leaves nothing for itself to do. -/
namespace SsaKit

open Attempt SsaKit.Module Transform

variable {m m' : Module} {o : Order} {f : FunctionId} {b : BlockId} {v : ValueId} {p : Pass}

/-! ### Rounds -/

/-- A loop that works off one list after the other, until a list is empty. -/
structure Rounds {α : Type} (work : Module → List α) (step : α → Edit Unit)
    (loop : Nat → Bool → Edit Bool) : Prop where
  zero : ∀ changed, loop 0 changed = pure changed
  succ : ∀ fuel changed, loop (fuel + 1) changed = do
    let found := work (← get)
    if found.isEmpty then return changed
    found.forM step
    loop fuel true

namespace Rounds

variable {α : Type} {work : Module → List α} {step : α → Edit Unit} {loop : Nat → Bool → Edit Bool}
  {fuel : Nat} {changed : Bool}

theorem rests (h : Rounds work step loop) (hw : work m = []) :
    Ends (loop (fuel + 1) changed) m (fun c t => c = changed ∧ t = m) fun _ => False := by
  rw [h.succ]
  simp [hw]

/-- If every round makes the code shorter, the fuel is enough for the list to get empty. -/
theorem ends (h : Rounds work step loop) {P : Module → Prop} (size : Module → Nat)
    (hround : ∀ t, P t → work t ≠ [] →
      Ends ((work t).forM step) t (fun _ u => P u ∧ size u < size t) fun _ => False)
    (hm : P m) (hfuel : size m < fuel) :
    Ends (loop fuel changed) m
      (fun c t => P t ∧ work t = [] ∧ (c = false → changed = false ∧ t = m)) fun _ => False := by
  induction fuel generalizing m changed with
  | zero => omega
  | succ fuel ih =>
    rw [h.succ]
    simp only [ends_bind, ends_get]
    split
    · rename_i hempty
      exact ⟨hm, List.isEmpty_iff.mp hempty, fun hc => ⟨hc, rfl⟩⟩
    · rename_i hwork
      rw [ends_bind]
      refine (hround m hm (by simpa using hwork)).mono (fun _ u hu => ?_) fun _ hu => hu
      refine (ih hu.1 (by omega)).mono (fun c t ht => ?_) fun _ ht => ht
      exact ⟨ht.1, ht.2.1, fun hc => absurd (ht.2.2 hc).1 (by decide)⟩

end Rounds

theorem eraseRounds_rounds : Rounds deadCode eraseInstruction eraseRounds :=
  ⟨fun _ => rfl, fun _ _ => rfl⟩

theorem foldRounds_rounds : Rounds foldable (fun (v, word) => replaceByConstant v word) foldRounds :=
  ⟨fun _ => rfl, fun _ _ => rfl⟩

namespace Module

/-! ### The length of the code -/

theorem Ordered.nodup_instructionsOf (ho : m.Ordered o) : (m.instructionsOf f).Nodup := by
  refine List.nodup_flatMap.mpr ⟨fun b _ => ?_, ?_⟩
  · rw [ho.instructions_eq]
    exact (ho.code.holds b).nodup
  · rw [ho.blocksOf_eq]
    refine (ho.blocks.holds f).nodup.imp fun hne v hv hv' => hne ?_
    rw [ho.instructions_eq] at hv hv'
    exact ho.code.disjoint hv hv'

theorem Ordered.nodup_codeOf (ho : m.Ordered o) : (codeOf m).Nodup := by
  refine List.nodup_flatMap.mpr ⟨fun f _ => ho.nodup_instructionsOf, ?_⟩
  refine ((nodup_liveFunctions m).filter _).imp fun hne v hv hv' => hne ?_
  obtain ⟨b, hb, hv⟩ := List.mem_flatMap.mp hv
  obtain ⟨b', hb', hv'⟩ := List.mem_flatMap.mp hv'
  rw [ho.instructions_eq] at hv hv'
  obtain rfl := ho.code.disjoint hv hv'
  rw [ho.blocksOf_eq] at hb hb'
  exact ho.blocks.disjoint hb hb'

theorem Ordered.has_of_mem_codeOf (ho : m.Ordered o) (hv : v ∈ codeOf m) : m.values.Has v := by
  obtain ⟨f, -, hv⟩ := List.mem_flatMap.mp hv
  obtain ⟨b, -, hv⟩ := List.mem_flatMap.mp hv
  rw [ho.instructions_eq] at hv
  exact ho.has_of_mem_code hv

theorem Ordered.length_codeOf_le (ho : m.Ordered o) : (codeOf m).length ≤ m.values.size :=
  Chain.length_le_size ho.nodup_codeOf fun _ => ho.has_of_mem_codeOf

/-- Code that loses an instruction gets shorter. -/
theorem Ordered.length_codeOf_lt (ho : m'.Ordered o) (hsub : ∀ u ∈ codeOf m', u ∈ codeOf m)
    (hv : v ∈ codeOf m) (hn : v ∉ codeOf m') : (codeOf m').length < (codeOf m).length := by
  have hnodup : (v :: codeOf m').Nodup := List.nodup_cons.mpr ⟨hn, ho.nodup_codeOf⟩
  exact (hnodup.subperm (List.cons_subset.mpr ⟨hv, hsub⟩)).length_le

/-! ### Dead instructions and constants -/

theorem Erased.mem_codeOf_iff {dead : ValueId → Prop} (h : m.Erased dead m') (ho : m.Ordered o) :
    v ∈ codeOf m' ↔ v ∈ codeOf m ∧ ¬ dead v := by
  simp only [Erased.mem_codeOf h.ordered, Erased.mem_codeOf ho, h.liveFunctions,
    h.mem_instructionsOf]
  tauto

theorem eraseDead_settles (ho : m.Ordered o) :
    Ends eraseDead m (fun c t => deadCode t = [] ∧ (c = false → t = m)) fun _ => False := by
  unfold eraseDead
  rw [ends_bind, ends_get]
  refine (eraseRounds_rounds.ends (P := fun t => ∃ o, t.Ordered o)
    (fun t => (codeOf t).length) (fun t ht hdead => ?_) ⟨o, ho⟩
    (Nat.lt_succ_of_le ho.length_codeOf_le)).mono (fun c t ht => ?_) fun _ ht => ht
  · obtain ⟨o, ho⟩ := ht
    refine (Erased.refl ho).round.mono (fun _ u hu => ⟨⟨_, hu.ordered⟩, ?_⟩) fun _ hu => hu
    obtain ⟨v, hv⟩ := List.exists_mem_of_ne_nil _ hdead
    refine hu.ordered.length_codeOf_lt (fun w hw => ((hu.mem_codeOf_iff ho).mp hw).1)
      (Erased.mem_deadCode.mp hv).1 fun hw => ?_
    exact ((hu.mem_codeOf_iff ho).mp hw).2 (.inr hv)
  · exact ⟨ht.2.1, fun hc => (ht.2.2 hc).2⟩

theorem mem_codeOf_folded {w : ValueId} {word : UInt64} (ho : m.Ordered o) :
    w ∈ codeOf (m.folded v word) ↔ w ∈ codeOf m ∧ w ≠ v := by
  have hlive : (m.folded v word).liveFunctions = m.liveFunctions := by
    simp only [liveFunctions, isRemoved, function, functions_folded]
  simp only [Erased.mem_codeOf (ordered_folded ho), Erased.mem_codeOf ho, hlive, instructionsOf,
    (ordered_folded ho).blocksOf_eq, ho.blocksOf_eq, instructions_folded ho, List.mem_flatMap,
    List.mem_filter, decide_eq_true_eq]
  tauto

theorem mem_codeOf_of_mem_foldable {p : ValueId × UInt64} (h : p ∈ foldable m) :
    p.1 ∈ codeOf m := by
  obtain ⟨u, hu, hp⟩ := List.mem_filterMap.mp h
  obtain ⟨word, -, rfl⟩ := Option.map_eq_some_iff.mp hp
  exact hu

theorem foldConstants_settles (hs : m.Sound) (ho : m.Ordered o) :
    Ends foldConstants m (fun c t => t.Sound ∧ foldable t = [] ∧ (c = false → t = m))
      fun _ => False := by
  unfold foldConstants
  rw [ends_bind, ends_get]
  refine (foldRounds_rounds.ends (P := fun t => t.Sound ∧ ∃ o, t.Ordered o)
    (fun t => (codeOf t).length) (fun t ht hfound => ?_) ⟨hs, o, ho⟩
    (Nat.lt_succ_of_le ho.length_codeOf_le)).mono (fun c t ht => ?_) fun _ ht => ht
  · obtain ⟨hs, hordered⟩ := ht
    have hfolding : Folding t [] t := ⟨hs, hordered, .refl t, by simp⟩
    refine (foldRound_keeps (P := fun done u => ∀ v ∈ codeOf u, v ∈ codeOf t ∧ v ∉ done.map (·.1))
      (fun done u v bits word _ hu _ _ hcode w hw => ?_) hfolding (by simp)).mono
      (fun _ u hu => ⟨⟨hu.1.sound, hu.1.ordered⟩, ?_⟩) fun _ hu => hu
    · obtain ⟨o, ho⟩ := hu
      obtain ⟨hw, hne⟩ := (mem_codeOf_folded ho).mp hw
      simpa [hne] using hcode w hw
    · obtain ⟨⟨-, ⟨o', ho'⟩, -⟩, hcode⟩ := hu
      obtain ⟨p, hp⟩ := List.exists_mem_of_ne_nil _ hfound
      exact ho'.length_codeOf_lt (fun w hw => (hcode w hw).1) (mem_codeOf_of_mem_foldable hp)
        fun hw => (hcode p.1 hw).2 (List.mem_map_of_mem hp)
  · exact ⟨ht.1.1, ht.2.1, fun hc => (ht.2.2 hc).2⟩

/-! ### Unreachable blocks -/

theorem removeUnreachableIn_rests
    (h : ∀ entry ∈ m.entry? f, ∀ b ∈ m.blocksOf f, b ∈ reachable m entry) :
    Ends (removeUnreachableIn f) m (fun c t => c = false ∧ t = m) fun _ => False := by
  unfold removeUnreachableIn
  simp only [ends_bind, ends_get]
  split
  · exact ⟨rfl, rfl⟩
  · rename_i entry hentry
    have hdead : (m.blocksOf f).filter (fun b => !(reachable m entry).contains b) = [] := by
      simpa using h entry hentry
    rw [hdead]
    exact ⟨rfl, rfl⟩

theorem removeUnreachableIn_reports (f : FunctionId) (m : Module) :
    Ends (removeUnreachableIn f) m (fun c t => c = false → t = m) fun _ => True := by
  unfold removeUnreachableIn
  simp only [ends_bind, ends_get]
  split
  · exact fun _ => rfl
  · rename_i entry hentry
    cases (m.blocksOf f).filter fun b => !(reachable m entry).contains b with
    | nil => exact fun _ => rfl
    | cons b dead =>
      rw [ends_bind]
      exact Ends.of_forall (fun _ _ hc => by cases hc) fun _ => trivial

theorem removeUnreachable_reports (m : Module) :
    Ends removeUnreachable m (fun c t => c = false → t = m) fun _ => True := by
  have hall : ∀ functions : List FunctionId, ∀ m : Module,
      Ends (functions.mapM removeUnreachableIn) m (fun cs t => cs.any id = false → t = m)
        fun _ => True := by
    intro functions
    induction functions with
    | nil => exact fun _ _ => rfl
    | cons f functions ih =>
      intro m
      rw [List.mapM_cons]
      simp only [ends_bind, ends_pure]
      refine (removeUnreachableIn_reports f m).mono (fun c t ht => ?_) fun _ _ => trivial
      refine (ih t).mono (fun cs u hu hc => ?_) fun _ _ => trivial
      obtain ⟨hc, hcs⟩ : c = false ∧ cs.any id = false := by simpa using hc
      rw [hu hcs, ht hc]
  unfold removeUnreachable
  simp only [ends_bind, ends_get, ends_pure]
  exact hall m.definedFunctions m

theorem removeUnreachable_rests (h : ∀ f ∈ m.definedFunctions, ∀ entry ∈ m.entry? f,
    ∀ b ∈ m.blocksOf f, b ∈ reachable m entry) :
    Ends removeUnreachable m (fun c t => c = false ∧ t = m) fun _ => False := by
  have hall : ∀ functions : List FunctionId, (∀ f ∈ functions, f ∈ m.definedFunctions) →
      Ends (functions.mapM removeUnreachableIn) m (fun cs t => cs.any id = false ∧ t = m)
        fun _ => False := by
    intro functions hf
    induction functions with
    | nil => exact ⟨rfl, rfl⟩
    | cons f functions ih =>
      rw [List.mapM_cons]
      simp only [ends_bind, ends_pure]
      refine (removeUnreachableIn_rests (h f (hf f (by simp)))).mono (fun c t ht => ?_)
        fun _ ht => ht
      obtain ⟨rfl, rfl⟩ := ht
      refine (ih fun g hg => hf g (by simp [hg])).mono (fun cs u hu => ?_) fun _ hu => hu
      exact ⟨by simpa using hu.1, hu.2⟩
  unfold removeUnreachable
  simp only [ends_bind, ends_get, ends_pure]
  exact hall m.definedFunctions fun _ hf => hf

namespace Purged

variable (h : m.Purged m') (ho : m.Ordered m.order) (hv : m.verify = .ok ())
include h ho hv

/-- Control comes to the same blocks as before. -/
theorem reaches_iff {entry : BlockId} (hf : f ∈ m.definedFunctions) (he : entry ∈ m.entry? f) :
    m'.Reaches entry b ↔ m.Reaches entry b := by
  have hedge {k : BlockId} (hk : m.Entered f k) : m'.successors k = m.successors k :=
    Cut.successors_eq h ho (ho.not_stranded hv hf hk)
  constructor
  · intro hr
    induction hr with
    | refl => exact .refl
    | tail _ hedge' ih =>
      rw [Edge, hedge ⟨entry, he, ih⟩] at hedge'
      exact ih.tail hedge'
  · intro hr
    induction hr with
    | refl => exact .refl
    | tail hr hedge' ih =>
      rw [Edge, ← hedge ⟨entry, he, hr⟩] at hedge'
      exact ih.tail hedge'

/-- Whatever is left can be reached. -/
theorem mem_reachable {entry : BlockId} (hf : f ∈ m'.definedFunctions) (he : entry ∈ m'.entry? f)
    (hb : b ∈ m'.blocksOf f) : b ∈ reachable m' entry := by
  have hlive : f ∈ m.liveFunctions := h.liveFunctions ▸ (mem_definedFunctions.mp hf).1
  rw [h.entry?_eq ho hlive] at he
  have hf : f ∈ m.definedFunctions := ho.defined_of_mem hlive (ho.entry_mem he)
  rw [Transform.mem_reachable fun k hk => ?_, h.reaches_iff ho hv hf he]
  · obtain ⟨entry', he', hr⟩ := (h.mem_blocksOf ho hv hf).mp hb
    rw [Option.mem_def] at he he'
    obtain rfl := Option.some_inj.mp (he.symm.trans he')
    exact hr
  · have hk := (h.mem_blocksOf ho hv hf).mpr ⟨entry, he, (h.reaches_iff ho hv hf he).mp hk⟩
    rw [(Cut.ordered h).blocksOf_eq] at hk
    exact (Cut.ordered h).has_of_mem_blocks hk

end Purged

/-! ### Unneeded symbols -/

theorem globalData_rests (hl : m.ListsGlobals) :
    Ends (m.globals.forM fun v => discard (globalData v)) m (fun _ t => t = m) fun _ => False := by
  refine ends_forM (P := (· = m)) (fun v hv t ht => ?_) rfl
  obtain ⟨g, hk⟩ := hl v hv
  subst ht
  simp [globalData, global?_eq_some.mpr hk]

theorem removeUnneeded_rests (hs : m.Sound) (hg : m.Grounded) (hl : m.ListsGlobals)
    (hf : ∀ f ∈ m.liveFunctions, m.NeedsFunction f) (hv : ∀ v ∈ m.globals, m.NeedsValue v) :
    Ends removeUnneeded m (fun c t => c = false ∧ t = m) fun _ => False := by
  have hfunctions : m.liveFunctions.filter
      (fun f => !(Needed.ofModule m).functions.contains f) = [] := by
    simpa [mem_functions_ofModule hs hg] using hf
  have hglobals : m.globals.filter (fun v => !(Needed.ofModule m).globals.contains v) = [] := by
    simp only [List.filter_eq_nil_iff, List.contains_eq_mem, Bool.not_eq_true', decide_eq_false_iff_not,
      not_not]
    intro v hmem
    obtain ⟨g, hk⟩ := hl v hmem
    exact (mem_globals_ofModule hs hg hk).mpr (hv v hmem)
  unfold removeUnneeded
  simp only [ends_bind, ends_get]
  refine (globalData_rests hl).mono (fun _ t ht => ?_) fun _ ht => ht
  subst ht
  simp only [hfunctions, hglobals]
  exact ⟨rfl, rfl⟩

theorem removeUnneeded_reports (hl : m.ListsGlobals) :
    Ends removeUnneeded m (fun c t => c = false → t = m) fun _ => True := by
  unfold removeUnneeded
  simp only [ends_bind, ends_get]
  refine (globalData_rests hl).mono (fun _ t ht => ?_) fun _ _ => trivial
  subst ht
  generalize t.liveFunctions.filter (fun f => !(Needed.ofModule t).functions.contains f) = functions,
    t.globals.filter (fun v => !(Needed.ofModule t).globals.contains v) = globals
  by_cases hnone : functions = [] ∧ globals = []
  · rw [hnone.1, hnone.2]
    exact fun _ => rfl
  · simp only [ends_pure]
    refine Ends.of_forall (fun _ _ => Ends.of_forall (fun _ _ => Ends.of_forall (fun _ _ hc => ?_)
      fun _ => trivial) fun _ => trivial) fun _ => trivial
    exact (hnone (by simpa using hc)).elim

namespace Pared

variable (h : m.Pared m') (ho : m.Ordered m.order)
include h ho

open Classical in
/-- What was needed still is. -/
theorem needsFunction (hlive : ∀ f, m.NeedsFunction f → f ∈ m.liveFunctions)
    (hf : m.NeedsFunction f) : m'.NeedsFunction f := by
  induction hf with
  | @visible f hd hvis =>
    have hneeded : m.NeedsFunction f := .visible hd hvis
    have hblocks := Stripped.blocksOf_eq h (ho.not_orphaned hneeded)
    have hbody : f ∈ m'.definedFunctions := by
      refine mem_definedFunctions.mpr ⟨(h.mem_live hlive).mpr hneeded, ?_⟩
      have hdeclaration := (mem_definedFunctions.mp hd).2
      rw [ho.isDeclaration_eq, ← ho.blocksOf_eq] at hdeclaration
      rwa [(Stripped.ordered h).isDeclaration_eq, ← (Stripped.ordered h).blocksOf_eq, hblocks]
    refine .visible hbody ?_
    have hlinkage := congrArg Function.linkage (Stripped.head h f)
    exact (congrArg Linkage.isVisible hlinkage).trans hvis
  | called hf hmem hi ih =>
    refine .called ih ?_ ((Stripped.instruction? h _).trans hi)
    rwa [Stripped.instructionsOf_eq h (ho.not_orphaned hf)]

theorem needsValue (hlive : ∀ f, m.NeedsFunction f → f ∈ m.liveFunctions)
    (hv : m.NeedsValue v) : m'.NeedsValue v := by
  induction hv with
  | @visible v g hmem hk hvis hinit =>
    have hneeded : m.NeedsValue v := .visible hmem hk hvis hinit
    exact .visible (h.mem_globals.mpr ⟨hmem, hneeded⟩) ((Stripped.kindOf h v).trans hk) hvis hinit
  | read hf hmem hi hw =>
    refine .read (h.needsFunction ho hlive hf) ?_ ((Stripped.instruction? h _).trans hi) hw
    rwa [Stripped.instructionsOf_eq h (ho.not_orphaned hf)]
  | part hv hpart ih =>
    refine .part ih ?_
    rwa [HasPart, Stripped.kindOf h]

end Pared

/-! ### What the passes leave -/

/-- Every instruction without effect is read by another one, in all live functions. -/
def Trimmed (m : Module) : Prop :=
  ∀ f ∈ m.liveFunctions, ∀ v ∈ m.instructionsOf f, ∀ i, m.instruction? v = some i →
    i.hasSideEffects = false → m.users v ≠ []

/-- An instruction on two integer constants is a division by zero. -/
def FoldedUp (m : Module) : Instruction → Prop
  | .binary op lhs rhs => ∀ a b, m.constWord? lhs = some a → m.constWord? rhs = some b →
    op.isDivision ∧ b = 0
  | .icmp _ lhs rhs => ∀ a b, m.constWord? lhs = some a → m.constWord? rhs ≠ some b
  | _ => True

theorem Ordered.trimmed (ho : m.Ordered o) (h : deadCode m = []) : m.Trimmed := by
  intro f hf v hv i hi he
  have hcode : v ∈ codeOf m := (Erased.mem_codeOf ho).mpr ⟨f, hf, hv⟩
  have hdead : v ∉ deadCode m := by simp [h]
  have hread : ∃ u ∈ codeOf m, v ∈ readOf m u := by
    by_contra hn
    exact hdead (Erased.mem_deadCode.mpr ⟨hcode, fun u hu hmem => hn ⟨u, hu, hmem⟩, i, hi, he⟩)
  obtain ⟨u, hu, hmem⟩ := hread
  obtain ⟨g, hg, hu⟩ := (Erased.mem_codeOf ho).mp hu
  obtain ⟨j, hj, hmem⟩ := mem_readOf.mp hmem
  refine List.ne_nil_of_mem (a := u) (List.mem_filter.mpr ⟨List.mem_flatMap.mpr ⟨g, hg, hu⟩, ?_⟩)
  exact (Option.any_eq_true _ _).mpr ⟨j, hj, by simpa using hmem⟩

end Module

/-- An integer operator fails on a zero divisor only. -/
theorem BinaryOp.onWords_eq_error {op : BinaryOp} {bits : Nat} {a b : UInt64} {failure : Failure}
    (hop : op.isFloat = false) (h : op.onWords bits a b = .error failure) :
    op.isDivision ∧ Word.mask bits b = 0 := by
  cases op with
  | udiv | sdiv | urem | srem =>
    refine ⟨rfl, ?_⟩
    by_contra hb
    simp [onWords, hb] at h
  | fadd | fsub | fmul | fdiv | frem => simp [isFloat] at hop
  | _ => simp [onWords] at h

namespace Module

theorem Sound.foldedUp (hs : m.Sound) (h : fold m v = none) {i : Instruction}
    (hi : m.instruction? v = some i) : m.FoldedUp i := by
  have hfits := hs.instructionFits hi
  cases i with
  | binary op lhs rhs =>
    intro a b ha hb
    obtain ⟨htl, htr, hlanes⟩ := hfits
    have hkb := kindOf_of_constWord? hb
    have hfit := (hs.values rhs (has_of_kindOf (by simp [hkb]))).2
    rw [hkb] at hfit
    obtain ⟨bits, -, he, hmask⟩ := hfit
    rw [htr] at he
    have hw : m.types.intWidth (m.typeOf v) = some bits := by
      simp [TypeTable.intWidth, he, Ty.intWidth]
    have hop : op.isFloat = false := by
      obtain hkind | ⟨element, length, hvector, -⟩ := hlanes
      · by_contra hfloat
        simp [he, Ty.kind, hfloat] at hkind
      · rw [he] at hvector
        cases hvector
    have herror : ∃ failure, op.onWords bits a b = .error failure := by
      cases hr : op.onWords bits a b with
      | error failure => exact ⟨failure, rfl⟩
      | ok word => simp [fold, hi, hw, ha, hb, hr, Except.toOption] at h
    obtain ⟨failure, herror⟩ := herror
    obtain ⟨hdivides, hzero⟩ := BinaryOp.onWords_eq_error hop herror
    exact ⟨hdivides, hmask ▸ hzero⟩
  | icmp pred lhs rhs =>
    intro a b ha hb
    obtain ⟨bits, -, he⟩ := width_of_word hs (kindOf_of_constWord? ha)
    have hw : m.types.intWidth (m.typeOf lhs) = some bits := by
      simp [TypeTable.intWidth, he, Ty.intWidth]
    simp [fold, hi, hw, ha, hb] at h
  | _ => trivial

theorem fold_eq_none (h : foldable m = []) (hv : v ∈ codeOf m) : fold m v = none := by
  cases hf : fold m v with
  | none => rfl
  | some word =>
    have hmem : (v, word) ∈ foldable m := List.mem_filterMap.mpr ⟨v, hv, by simp [hf]⟩
    simp [h] at hmem

end Module

/-- A pass finds nothing to do. -/
def Pass.Idle (m : Module) : Pass → Prop
  | globalDce => (∀ f ∈ m.liveFunctions, m.NeedsFunction f) ∧ ∀ v ∈ m.globals, m.NeedsValue v
  | dce => deadCode m = []
  | unreachableBlockElim => ∀ f ∈ m.definedFunctions, ∀ entry ∈ m.entry? f, ∀ b ∈ m.blocksOf f,
    b ∈ reachable m entry
  | constProp => foldable m = []

namespace Module

theorem Healthy.rests (h : m.Healthy) (hp : p.Idle m) :
    Ends p.run m (fun changed t => changed = false ∧ t = m) fun _ => False := by
  cases p with
  | globalDce => exact removeUnneeded_rests h.sound h.grounded h.listsGlobals hp.1 hp.2
  | dce =>
    change Ends eraseDead m _ _
    unfold eraseDead
    rw [ends_bind, ends_get]
    exact eraseRounds_rounds.rests hp
  | unreachableBlockElim => exact removeUnreachable_rests hp
  | constProp =>
    change Ends foldConstants m _ _
    unfold foldConstants
    rw [ends_bind, ends_get]
    exact foldRounds_rounds.rests hp

/-- A pass comes to its end with nothing left for it to do, and says so if it did nothing. -/
theorem Healthy.settles (h : m.Healthy) (hv : m.verify = .ok ()) :
    Ends p.run m (fun changed t => p.Idle t ∧ (changed = false → t = m)) fun _ => False := by
  have ho := h.ordered
  cases p with
  | globalDce =>
    have hends := ends_removeUnneeded h.sound ho h.grounded h.listsGlobals
    refine (hends.and (removeUnneeded_reports h.listsGlobals)).mono (fun changed t ht => ?_)
      fun _ ht => ht.1
    obtain ⟨ht, hreport⟩ := ht
    have hlive : ∀ f, m.NeedsFunction f → f ∈ m.liveFunctions := fun f hf => hf.live h.sound hv
    refine ⟨⟨fun f hf => ?_, fun v hv => ?_⟩, hreport⟩
    · exact Pared.needsFunction ht ho hlive ((Pared.mem_live ht hlive).mp hf)
    · exact Pared.needsValue ht ho hlive ((Pared.mem_globals ht).mp hv).2
  | dce => exact eraseDead_settles ho
  | unreachableBlockElim =>
    refine ((ends_removeUnreachable ho hv).and (removeUnreachable_reports m)).mono
      (fun changed t ht => ?_) fun _ ht => ht.1
    obtain ⟨ht, hreport⟩ := ht
    exact ⟨fun f hf entry he b hb => Purged.mem_reachable ht ho hv hf he hb, hreport⟩
  | constProp =>
    exact (foldConstants_settles h.sound ho).mono (fun changed t ht => ht.2) fun _ ht => ht

end Module

/-- Every pass on a verified module comes to its end without a failure, reports a change exactly if
it made one, and leaves nothing for a second run of it to do: after the removal of dead instructions
every one without effect has a reader, and after constant propagation what works on two integer
constants is a division by zero, in all live functions. -/
theorem Builder.Attained.passes_settle {s : Builder} (h : s.Attained)
    (hv : s.module.verify = .ok ()) (p : Pass) :
    ∃ changed m', p.run.outcome s.module = (.ok changed, m') ∧ (changed = false ↔ m' = s.module) ∧
      p.run.outcome m' = (.ok false, m') ∧ (p = .dce → m'.Trimmed) ∧
      (p = .constProp → ∀ f ∈ m'.liveFunctions, ∀ v ∈ m'.instructionsOf f,
        ∀ i, m'.instruction? v = some i → m'.FoldedUp i) := by
  have hm := h.sturdy.healthy
  obtain ⟨changed, m', hrun, hidle, hreport⟩ := (hm.settles hv (p := p)).exists_ok
  have hm' : m'.Healthy := by
    have hc : Changed s.module (p.run.outcome s.module).2 := (hm.pass_changes p).state
    rw [hrun] at hc
    exact Changed.healthy hc hm
  have hrest : p.run.outcome m' = (.ok false, m') := by
    obtain ⟨_, _, hrest, rfl, rfl⟩ := (hm'.rests hidle).exists_ok
    exact hrest
  refine ⟨changed, m', hrun, ⟨hreport, ?_⟩, hrest, ?_, ?_⟩
  · rintro rfl
    rw [hrun] at hrest
    simpa using hrest
  · rintro rfl
    exact hm'.ordered.trimmed hidle
  · rintro rfl f hf v hv i hi
    have hcode : v ∈ codeOf m' := (Erased.mem_codeOf hm'.ordered).mpr ⟨f, hf, hv⟩
    exact hm'.sound.foldedUp (fold_eq_none hidle hcode) hi

/-- Each of the passes settles the program that picks a sum, and a second run finds nothing to do. -/
theorem picked_settled : picked.Attained ∧ picked.module.verify = .ok () ∧
    ∀ p : Pass, ∃ changed m', p.run.outcome picked.module = (.ok changed, m') ∧
      (changed = false ↔ m' = picked.module) ∧ p.run.outcome m' = (.ok false, m') := by
  refine ⟨reachable_picked.attained, picked_verified, fun p => ?_⟩
  obtain ⟨changed, m', hrun, hreport, hrest, -⟩ :=
    Builder.Attained.passes_settle reachable_picked.attained picked_verified p
  exact ⟨changed, m', hrun, hreport, hrest⟩

/-- A program that goes on to write a block after its removal, and a block of a function after the
function's removal. -/
def lingering : List Call :=
  [.types (.ofType (.int 32)),
    .symbol (.declareFunction "main" ⟨0⟩ [] false),
    .symbol (.declareFunction "lost" ⟨0⟩ [] false),
    .constant (.integer ⟨0⟩ 2),
    .layout (.appendBlock ⟨0⟩ "entry"),
    .setCursor (some { block := ⟨0⟩ }),
    .emission (.ret ⟨0⟩),
    .layout (.appendBlock ⟨0⟩ "gone"),
    .layout (.removeBlock ⟨1⟩),
    .setCursor (some { block := ⟨1⟩ }),
    .emission (.binary .add ⟨0⟩ ⟨0⟩),
    .symbol (.removeFunction ⟨1⟩),
    .layout (.appendBlock ⟨1⟩ "late"),
    .setCursor (some { block := ⟨2⟩ }),
    .emission (.binary .add ⟨0⟩ ⟨0⟩)]

/-- The builder after those calls. -/
def lingered : Builder := Builder.replay { module := { name := "lingering" } } lingering

theorem lingered_sums : lingered.module.instruction? ⟨2⟩ = some (.binary .add ⟨0⟩ ⟨0⟩) ∧
    lingered.module.instruction? ⟨3⟩ = some (.binary .add ⟨0⟩ ⟨0⟩) := by
  constructor <;> decide +kernel

/-- In a removed block and in a block of a removed function a sum of two constants stays linked that
nobody reads: neither the removal of dead instructions nor constant propagation looks there. -/
theorem lingered_untouched : lingered.Attained ∧ lingered.module.verify = .ok () ∧
    ∀ p ∈ [Pass.dce, .constProp], ∃ m', p.run.outcome lingered.module = (.ok false, m') ∧
      m'.blockOf? ⟨2⟩ = some ⟨1⟩ ∧ m'.blockOf? ⟨3⟩ = some ⟨2⟩ ∧ m'.constWord? ⟨0⟩ = some 2 ∧
      m'.users ⟨2⟩ = [] ∧ m'.instruction? ⟨2⟩ = some (.binary .add ⟨0⟩ ⟨0⟩) ∧
      m'.users ⟨3⟩ = [] ∧ m'.instruction? ⟨3⟩ = some (.binary .add ⟨0⟩ ⟨0⟩) := by
  have hattained : lingered.Attained :=
    (Builder.Replays.reachable (by decide +kernel) (Builder.reachable_empty "lingering")).attained
  refine ⟨hattained, by decide +kernel, fun p hp => ⟨lingered.module, ?_, by decide +kernel,
    by decide +kernel, by decide +kernel, by decide +kernel, lingered_sums.1, by decide +kernel,
    lingered_sums.2⟩⟩
  have hidle : p.Idle lingered.module := by
    rcases List.mem_pair.mp hp with rfl | rfl
    · have heffects : ∀ v ∈ codeOf lingered.module, ∀ i ∈ lingered.module.instruction? v,
          i.hasSideEffects = true := by decide +kernel
      refine List.eq_nil_iff_forall_not_mem.mpr fun v hv => ?_
      obtain ⟨hcode, -, i, hi, he⟩ := Erased.mem_deadCode.mp hv
      simp [heffects v hcode i hi] at he
    · change foldable lingered.module = []
      decide +kernel
  obtain ⟨changed, m', hrest, hchanged, hm'⟩ :=
    (hattained.sturdy.healthy.rests hidle).exists_ok
  rw [hrest, hchanged, hm']

end SsaKit
