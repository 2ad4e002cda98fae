import SsaKit.Proofs.Separation
import SsaKit.Proofs.UnneededSymbols

/-! Passes on a verified module: when unreachable blocks and unneeded symbols can be removed so that
it passes verification again, and that sequences of passes then do. -/
namespace SsaKit

open Attempt SsaKit.Module Transform

variable {m m' : Module} {o : Order} {f : FunctionId} {b k : BlockId} {v w : ValueId}
  {kept : BlockId → Prop}

namespace Module

/-! ### Unreachable blocks -/

theorem Consults.mem_readOf (h : m.Consults f v w) : w ∈ readOf m v := by
  cases h with
  | phi hi he _ => exact Module.mem_readOf.mpr ⟨_, hi, List.mem_map_of_mem he⟩
  | other hi _ hw => exact Module.mem_readOf.mpr ⟨_, hi, hw⟩

theorem consults_phi_iff {incoming : List (BlockId × ValueId)}
    (hi : m.instruction? v = some (.phi incoming)) :
    m.Consults f v w ↔ ∃ source, (source, w) ∈ incoming ∧ m.Entered f source := by
  constructor
  · rintro (⟨hi', he, hs⟩ | ⟨hi', hphi, -⟩)
    · rw [hi] at hi'
      cases hi'
      exact ⟨_, he, hs⟩
    · rw [hi] at hi'
      cases hi'
      cases hphi
  · rintro ⟨source, he, hs⟩
    exact .phi hi he hs

theorem consults_other_iff {i : Instruction} (hi : m.instruction? v = some i)
    (hphi : i.isPhi = false) : m.Consults f v w ↔ w ∈ i.operands := by
  constructor
  · rintro (⟨hi', -, -⟩ | ⟨hi', -, hw⟩)
    · rw [hi] at hi'
      cases hi'
      cases hphi
    · rw [hi] at hi'
      cases hi'
      exact hw
  · exact .other hi hphi

theorem echoes_filter {incoming : List (BlockId × ValueId)} {p : BlockId → Bool}
    (hp : ∀ k, p k ↔ kept k) :
    Echoes kept (.phi incoming) (.phi (incoming.filter fun e => p e.1)) where
  isTerminator := rfl
  isPhi := rfl
  successors := rfl
  phi incoming' hi := by
    cases hi
    refine ⟨incoming, rfl, fun hn => hn.sublist (List.filter_sublist.map _), fun k => ?_⟩
    rw [← hp, List.mem_map, List.mem_map]
    constructor
    · rintro ⟨e, he, rfl⟩
      obtain ⟨he, hk⟩ := List.mem_filter.mp he
      exact ⟨⟨e, he, rfl⟩, hk⟩
    · rintro ⟨⟨e, he, rfl⟩, hk⟩
      exact ⟨e, List.mem_filter.mpr ⟨he, hk⟩, rfl⟩
  callee _ _ hi := by cases hi

namespace Purged

variable (h : m.Purged m') (ho : m.Ordered m.order) (hv : m.verify = .ok ())
include h ho hv

theorem mem_blocksOf_iff (hf : f ∈ m.liveFunctions) :
    b ∈ m'.blocksOf f ↔ b ∈ m.blocksOf f ∧ m.Entered f b := by
  constructor
  · intro hb
    have hold : b ∈ m.blocksOf f := by
      rw [Cut.blocksOf_eq h] at hb
      exact List.mem_of_mem_filter hb
    exact ⟨hold, (h.mem_blocksOf ho hv (ho.defined_of_mem hf hold)).mp hb⟩
  · rintro ⟨hold, hb⟩
    exact (h.mem_blocksOf ho hv (ho.defined_of_mem hf hold)).mpr hb

theorem instructions_eq (hf : f ∈ m.liveFunctions) (hb : b ∈ m'.blocksOf f) :
    m'.instructions b = m.instructions b := by
  obtain ⟨hold, hentered⟩ := (h.mem_blocksOf_iff ho hv hf).mp hb
  exact Cut.instructions_eq h (ho.not_stranded hv (ho.defined_of_mem hf hold) hentered)

open Classical in
/-- What is left to read in a kept block is what was read there when control came to it. -/
theorem mem_readOf_iff (hf : f ∈ m.liveFunctions) (hb : b ∈ m'.blocksOf f)
    (hmem : v ∈ m.instructions b) : w ∈ readOf m' v ↔ m.Consults f v w := by
  obtain ⟨hold, hentered⟩ := (h.mem_blocksOf_iff ho hv hf).mp hb
  obtain ⟨last, afterPhis, i, hplace⟩ := (verified_of_verify hv hf).inPlace hold hmem
  by_cases hphi : ∃ entries, i = .phi entries
  · obtain ⟨entries, rfl⟩ := hphi
    have hi' := h.phi_eq ho hv (ho.defined_of_mem hf hold) hentered hmem hplace.instruction
    simp [consults_phi_iff hplace.instruction, mem_readOf, hi', Instruction.operands, and_assoc]
  · have hother : ∀ entries, m.instruction? v ≠ some (.phi entries) := fun entries he =>
      hphi ⟨entries, Option.some_inj.mp (hplace.instruction.symm.trans he)⟩
    have hnone : i.isPhi = false := by
      cases i with
      | phi entries => exact (hphi ⟨entries, rfl⟩).elim
      | _ => rfl
    rw [consults_other_iff hplace.instruction hnone, mem_readOf, Cut.instruction?_other h hother,
      hplace.instruction]
    simp

open Classical in
theorem echoes (hf : f ∈ m.liveFunctions) (hb : b ∈ m'.blocksOf f) (hmem : v ∈ m.instructions b)
    {i : Instruction} (hi : m.instruction? v = some i) :
    ∃ i', m'.instruction? v = some i' ∧ Echoes (m.Entered f) i i' := by
  obtain ⟨hold, hentered⟩ := (h.mem_blocksOf_iff ho hv hf).mp hb
  by_cases hphi : ∃ entries, i = .phi entries
  · obtain ⟨entries, rfl⟩ := hphi
    exact ⟨_, h.phi_eq ho hv (ho.defined_of_mem hf hold) hentered hmem hi,
      echoes_filter (p := fun k => decide (m.Entered f k)) fun _ => decide_eq_true_iff⟩
  · have hother : ∀ entries, m.instruction? v ≠ some (.phi entries) := fun entries he =>
      hphi ⟨entries, Option.some_inj.mp (hi.symm.trans he)⟩
    exact ⟨i, (Cut.instruction?_other h hother).trans hi,
      .refl fun incoming he => (hphi ⟨incoming, he⟩).elim⟩

theorem narrows (hseparate : m.Separate) (hf : f ∈ m.liveFunctions) (hc : m.Checked f) :
    m.Narrows m' f (m.Entered f) where
  blocks b := h.mem_blocksOf_iff ho hv hf
  closed b hb s hs := ((h.mem_blocksOf_iff ho hv hf).mp hb).2.edge hs
  code b hb := by rw [h.instructions_eq ho hv hf hb]
  last b hb := by rw [h.instructions_eq ho hv hf hb]
  echoes b hb v hmem i hi :=
    h.echoes ho hv hf hb (h.instructions_eq ho hv hf hb ▸ hmem) hi
  callee _ _ callee _ _ := h.isRemoved callee
  readable v hmem w hw := by
    obtain ⟨b, hb, hmem⟩ := List.mem_flatMap.mp hmem
    rw [h.instructions_eq ho hv hf hb] at hmem
    obtain ⟨hold, hentered⟩ := (h.mem_blocksOf_iff ho hv hf).mp hb
    have hconsults := (h.mem_readOf_iff ho hv hf hb hmem).mp hw
    refine operandFault_kept ho (Cut.ordered h) ?_ (fun hin => ?_) (fun _ _ hname => ?_)
      (hc.readable v (List.mem_flatMap.mpr ⟨b, hold, hmem⟩) w hconsults.mem_readOf)
    · rw [Cut.kindOf h]
      unfold ValueKind.cut
      split
      · rename_i hk
        exact .inr ⟨_, _, hk, rfl⟩
      · exact .inl rfl
    · obtain ⟨k, hk, hin⟩ := List.mem_flatMap.mp hin
      have hreached : m.Entered f k := by
        by_contra hn
        exact hseparate f hf b hentered v hmem w hconsults k ⟨hk, hn⟩ hin
      have hkept := (h.mem_blocksOf_iff ho hv hf).mpr ⟨hk, hreached⟩
      exact List.mem_flatMap.mpr ⟨k, hkept, by rwa [h.instructions_eq ho hv hf hkept]⟩
    · rwa [h.globalNames]

theorem keeps (hseparate : m.Separate) : m.Keeps m' := by
  have hchecked := verify_eq_ok.mp hv
  have hlive : m'.liveFunctions = m.liveFunctions := h.liveFunctions
  have hn : ∀ f ∈ m'.liveFunctions, m.Narrows m' f (m.Entered f) := fun f hf =>
    h.narrows ho hv hseparate (hlive ▸ hf) (hchecked f (hlive ▸ hf))
  refine .of_narrows (Cut.changed h) hv ho (Cut.ordered h) (fun f hf => hlive ▸ hf)
    (fun f hf => ⟨_, hn f hf⟩) (fun f hf => h.entry?_eq ho (hlive ▸ hf))
    (fun f hf b hb v hmem w _ hw => ?_) fun hnames => ?_
  · have hin := ((hn f hf).checked (hchecked f (hlive ▸ hf)).toVerified ho
      (Cut.ordered h)).entered_mem (Cut.ordered h) hb
    rw [h.instructions_eq ho hv (hlive ▸ hf) hin] at hmem
    exact (h.mem_readOf_iff ho hv (hlive ▸ hf) hin hmem).mp hw.mem_readOf
  · refine hnames.mono (fun v hv => h.globals ▸ hv) (fun e he => h.globalNames ▸ he) fun v _ => ?_
    rw [Cut.value h]

/-- A module that passes verification after the removal was safe to remove blocks from. -/
theorem separate (hv' : m'.verify = .ok ()) : m.Separate := by
  intro f hf b hb v hmem w hw k hk hin
  have hverified := verified_of_verify hv hf
  have hkept := (h.mem_blocksOf_iff ho hv hf).mpr ⟨hverified.entered_mem ho hb, hb⟩
  have hlive : f ∈ m'.liveFunctions := by rwa [h.liveFunctions]
  have hnone := (verify_eq_ok.mp hv' f hlive).readable v
    (List.mem_flatMap.mpr ⟨b, hkept, by rwa [h.instructions_eq ho hv hf hkept]⟩) w
    ((h.mem_readOf_iff ho hv hf hkept hmem).mpr hw)
  obtain ⟨last, afterPhis, i, hplace⟩ := hverified.inPlace hk.1 hin
  obtain ⟨i', hi'⟩ := Cut.instruction?_some h hplace.instruction
  obtain ⟨k', hk', hin'⟩ := List.mem_flatMap.mp
    ((Cut.ordered h).mem_instructionsOf_of_readable hnone hi')
  rw [h.instructions_eq ho hv hf hk'] at hin'
  obtain rfl : k' = k := ho.code.disjoint hin' hin
  exact hk.2 ((h.mem_blocksOf_iff ho hv hf).mp hk').2

end Purged

/-! ### Unneeded symbols -/

namespace Pared

variable (h : m.Pared m') (ho : m.Ordered m.order)
include h ho

open Classical in
theorem narrows (hnames : m.OwnsNames) (hf : m.NeedsFunction f) (hc : m.Checked f) :
    m.Narrows m' f fun _ => True where
  blocks b := by simp [Stripped.blocksOf_eq h (ho.not_orphaned hf)]
  closed _ _ _ _ := trivial
  code b hb := by
    rw [Stripped.blocksOf_eq h (ho.not_orphaned hf)] at hb
    rw [Stripped.instructions_eq h (ho.not_orphaned hf b hb)]
  last b hb := by
    rw [Stripped.blocksOf_eq h (ho.not_orphaned hf)] at hb
    rw [Stripped.instructions_eq h (ho.not_orphaned hf b hb)]
  echoes _ _ v _ i hi := ⟨i, (Stripped.instruction? h v).trans hi, .refl fun _ _ _ _ => trivial⟩
  callee v hmem callee args hi := by
    rw [Stripped.instructionsOf_eq h (ho.not_orphaned hf)] at hmem
    have hneed : ¬ m.Unneeded callee := fun hn => hn.2 (hf.called hmem hi)
    rw [Stripped.isRemoved h]
    simp [hneed]
  readable v hmem w hw := by
    rw [Stripped.instructionsOf_eq h (ho.not_orphaned hf)] at hmem
    obtain ⟨i, hi, hw⟩ := mem_readOf.mp hw
    rw [Stripped.instruction? h] at hi
    refine operandFault_kept ho (Stripped.ordered h) (.inl (Stripped.kindOf h w))
      (fun hin => ?_) (fun g _ hname => ?_) (hc.readable v hmem w (mem_readOf.mpr ⟨i, hi, hw⟩))
    · rwa [Stripped.instructionsOf_eq h (ho.not_orphaned hf)]
    · obtain ⟨e, he, rfl⟩ := List.mem_map.mp hname
      refine List.mem_map.mpr ⟨e, ?_, rfl⟩
      rw [Stripped.globalNames h]
      refine List.mem_filter.mpr ⟨he, decide_eq_true ?_⟩
      rintro ⟨u, hidle, hu⟩
      obtain rfl := hnames u hidle.1 e he hu
      exact hidle.2 (.read hf hmem hi hw)

theorem keeps (hs : m.Sound) (hv : m.verify = .ok ()) (hnames : m.OwnsNames) : m.Keeps m' := by
  have hchecked := verify_eq_ok.mp hv
  have hneeded : ∀ f, m.NeedsFunction f → f ∈ m.liveFunctions := fun f hf => hf.live hs hv
  have hlive : ∀ f ∈ m'.liveFunctions, f ∈ m.liveFunctions := fun f hf =>
    hneeded f ((h.mem_live hneeded).mp hf)
  have hn : ∀ f ∈ m'.liveFunctions, m.Narrows m' f fun _ => True := fun f hf =>
    h.narrows ho hnames ((h.mem_live hneeded).mp hf) (hchecked f (hlive f hf))
  have hentry : ∀ f ∈ m'.liveFunctions, m'.entry? f = m.entry? f := fun f hf => by
    have hblocks := Stripped.blocksOf_eq h (ho.not_orphaned ((h.mem_live hneeded).mp hf))
    rw [(Stripped.ordered h).entry?_eq, ho.entry?_eq, ← (Stripped.ordered h).blocksOf_eq,
      ← ho.blocksOf_eq, hblocks]
  refine .of_narrows (Stripped.changed h) hv ho (Stripped.ordered h) hlive
    (fun f hf => ⟨_, hn f hf⟩) hentry (fun f hf b _ v _ w _ hw => ?_) fun _ => ?_
  · exact hw.of_eq (Stripped.instruction? h v) fun k =>
      ((hn f hf).entered_iff (hchecked f (hlive f hf)).toVerified ho (Stripped.ordered h)
        (hentry f hf)).mp
  · refine hnames.mono (fun v hv => (h.mem_globals.mp hv).1) (fun e he => ?_) fun v _ => ?_
    · rw [Stripped.globalNames h] at he
      exact List.mem_of_mem_filter he
    · rw [Stripped.value h]

end Pared

/-! ### Sequences -/

/-- What holds of all modules that can be built and is kept by every change. -/
structure Healthy (m : Module) : Prop where
  sound : m.Sound
  ordered : m.Ordered m.order
  grounded : m.Grounded
  listsGlobals : m.ListsGlobals

theorem Reachable.healthy (h : m.Reachable) : m.Healthy :=
  ⟨h.sound, h.ordered, h.grounded, h.listsGlobals⟩

theorem Changed.healthy (hc : Changed m m') (h : m.Healthy) : m'.Healthy := by
  obtain ⟨o, ho⟩ := Changed.ordered hc h.ordered
  exact ⟨Changed.sound hc h.sound, ho.order_eq ▸ ho, hc.grounded h.grounded,
    hc.listsGlobals h.listsGlobals⟩

theorem Keeps.refl (hv : m.verify = .ok ()) : m.Keeps m := ⟨.refl, hv, fun _ hp => hp⟩

theorem Keeps.trans {m'' : Module} (h : m.Keeps m') (h' : m'.Keeps m'') : m.Keeps m'' :=
  ⟨h.changed.trans h'.changed, h'.verified, fun p hp => h'.safe p (h.safe p hp)⟩

/-- One pass that is safe comes to its end, and leaves every pass as safe as it was. -/
theorem Healthy.ends_pass (h : m.Healthy) (hv : m.verify = .ok ()) {p : Pass} (hp : p.Safe m) :
    Ends p.run m (fun _ => m.Keeps) fun _ => False := by
  cases p with
  | globalDce =>
    exact (ends_removeUnneeded h.sound h.ordered h.grounded h.listsGlobals).mono
      (fun _ t ht => Pared.keeps ht h.ordered h.sound hv hp) fun _ ht => ht
  | dce =>
    refine (ends_eraseDead h.ordered).mono (fun _ t ht => ?_) fun _ ht => ht
    obtain ⟨dead, ht⟩ := ht
    exact ht.keeps h.ordered hv
  | unreachableBlockElim =>
    exact (ends_removeUnreachable h.ordered hv).mono
      (fun _ t ht => Purged.keeps ht h.ordered hv hp) fun _ ht => ht
  | constProp =>
    change Ends foldConstants m _ _
    unfold foldConstants
    rw [ends_bind, ends_get]
    have hfolding : Folding m [] m := ⟨h.sound, ⟨_, h.ordered⟩, .refl m, by simp⟩
    refine (foldRounds_keeps (P := m.Keeps) (fun t v bits word hs hhas hc hk => ?_) _ false
      hfolding (.refl hv)).mono (fun _ _ ht => ht.2) fun _ ht => ht
    have ht := Changed.healthy hk.changed h
    exact hk.trans (keeps_folded hc hs ht.ordered hk.verified ht.listsGlobals hhas)

end Module

/-- Passes that cannot fail where each of them is applied come to their end. -/
theorem Pipeline.ends_run {P : List Pass → Module → Prop} {passes : List Pass}
    (hv : m.verify = .ok ()) (hstep : ∀ done p rest, passes = done ++ p :: rest → ∀ t, P done t →
      Ends p.run t (fun _ => P (done ++ [p])) fun _ => False) (h : P [] m) :
    Ends (Pipeline.run ⟨passes⟩) m (fun _ => P passes) fun _ => False := by
  unfold Pipeline.run
  simp only [ends_bind, ends_get, hv, ends_ofExcept, ends_pure]
  exact ends_mapM_stages (fun done p rest hl t ht => (hstep done p rest hl t ht).unrescued) h

/-- A sequence of passes on a verified module comes to its end, and leaves a module that passes
verification, if the code that control may come to keeps to itself wherever unreachable blocks are
removed, and globals own their names wherever unneeded symbols are. Where unreachable blocks alone
are removed, the condition is also necessary. -/
theorem Module.Reachable.passes_verified (h : m.Reachable) (hv : m.verify = .ok ()) :
    (∀ passes : List Pass, (∀ p ∈ passes, p.Safe m) →
      ∃ changed m', (Pipeline.run ⟨passes⟩).outcome m = (.ok changed, m') ∧
        m'.verify = .ok ()) ∧
    ∃ changed m', (Pipeline.run ⟨[.unreachableBlockElim]⟩).outcome m = (.ok changed, m') ∧
      (m'.verify = .ok () ↔ Pass.unreachableBlockElim.Safe m) := by
  constructor
  · intro passes hsafe
    have hends : Ends (Pipeline.run ⟨passes⟩) m (fun _ => m.Keeps) fun _ => False := by
      refine Pipeline.ends_run (P := fun _ => m.Keeps) hv (fun done p rest hl t ht => ?_) (.refl hv)
      have hhealthy := Changed.healthy ht.changed h.healthy
      have hp : p.Safe t := ht.safe p (hsafe p (by simp [hl]))
      exact (hhealthy.ends_pass ht.verified hp).mono (fun _ u hu => ht.trans hu) fun _ hu => hu
    obtain ⟨changed, m', hrun, hk⟩ := hends.exists_ok
    exact ⟨changed, m', hrun, hk.verified⟩
  · have hends : Ends (Pipeline.run ⟨[.unreachableBlockElim]⟩) m (fun _ => m.Purged)
        fun _ => False := by
      refine Pipeline.ends_run (P := fun done t => if done = [] then t = m else m.Purged t) hv
        (fun done p rest hl t ht => ?_) rfl
      cases done with
      | nil =>
        obtain ⟨rfl, -⟩ := List.cons.inj hl
        obtain rfl : t = m := by simpa using ht
        exact (ends_removeUnreachable h.ordered hv).mono (fun _ u hu => by simpa using hu)
          fun _ hu => hu
      | cons q done => simp at hl
    obtain ⟨changed, m', hrun, hp⟩ := hends.exists_ok
    exact ⟨changed, m', hrun, fun hv' => hp.separate h.ordered hv hv',
      fun hsafe => (hp.keeps h.ordered hv hsafe).verified⟩

/-- A program with a phi that takes one sum from the entry and another one from an orphaned block. -/
def picking : List Call :=
  [.types (.ofType (.int 32)),
    .symbol (.declareFunction "pick" ⟨0⟩ [] false),
    .layout (.appendBlock ⟨0⟩ "entry"),
    .layout (.appendBlock ⟨0⟩ "orphan"),
    .layout (.appendBlock ⟨0⟩ "exit"),
    .constant (.integer ⟨0⟩ 6),
    .constant (.integer ⟨0⟩ 7),
    .setCursor (some { block := ⟨0⟩ }),
    .emission (.binary .add ⟨0⟩ ⟨1⟩),
    .emission (.br ⟨2⟩),
    .setCursor (some { block := ⟨1⟩ }),
    .emission (.binary .mul ⟨0⟩ ⟨1⟩),
    .emission (.br ⟨2⟩),
    .setCursor (some { block := ⟨2⟩ }),
    .emission (.phi ⟨0⟩ [(⟨0⟩, ⟨2⟩), (⟨1⟩, ⟨4⟩)]),
    .emission (.ret ⟨6⟩)]

/-- The builder after those calls. -/
def picked : Builder := Builder.replay { module := { name := "picking" } } picking

theorem reachable_picked : picked.Reachable :=
  Builder.Replays.reachable (by decide +kernel) (Builder.reachable_empty "picking")

theorem picked_verified : picked.module.verify = .ok () := by decide +kernel

theorem picked_entered {b : BlockId} : picked.module.Entered ⟨0⟩ b ↔ b ∈ [⟨2⟩, ⟨0⟩] := by
  have hv := verified_of_verify picked_verified (f := ⟨0⟩) (by decide +kernel)
  have hentry : picked.module.entry? ⟨0⟩ = some ⟨0⟩ := by decide +kernel
  rw [← hv.mem_reachable_iff reachable_picked.module.ordered hentry]
  have hsearch : reachable picked.module ⟨0⟩ = [⟨2⟩, ⟨0⟩] := by decide +kernel
  rw [hsearch]

/-- Only the phi reads the product, and it takes it from a block that control cannot come to. -/
theorem picked_separate : picked.module.Separate := by
  intro f hf b hb v hv w hw k hk hin
  have hlive : picked.module.liveFunctions = [⟨0⟩] := by decide +kernel
  obtain rfl : f = ⟨0⟩ := by simpa [hlive] using hf
  have hblocks : picked.module.blocksOf ⟨0⟩ = [⟨0⟩, ⟨1⟩, ⟨2⟩] := by decide +kernel
  obtain rfl : k = ⟨1⟩ := by
    have hmem := hk.1
    have hout := hk.2
    rw [hblocks] at hmem
    rw [picked_entered] at hout
    simp only [List.mem_cons, List.not_mem_nil, or_false, not_or] at hmem hout
    rcases hmem with rfl | rfl | rfl
    · exact absurd rfl hout.2
    · rfl
    · exact absurd rfl hout.1
  have horphan : picked.module.instructions ⟨1⟩ = [⟨4⟩, ⟨5⟩] := by decide +kernel
  rw [horphan] at hin
  have hphi : picked.module.instruction? ⟨6⟩ = some (.phi [(⟨0⟩, ⟨2⟩), (⟨1⟩, ⟨4⟩)]) := by
    decide +kernel
  by_cases hv6 : v = ⟨6⟩
  · subst hv6
    obtain ⟨source, he, hs⟩ := (consults_phi_iff hphi).mp hw
    rw [picked_entered] at hs
    simp only [List.mem_cons, List.not_mem_nil, or_false, Prod.mk.injEq] at he hs hin
    rcases he with ⟨rfl, rfl⟩ | ⟨rfl, rfl⟩
    · simp at hin
    · simp at hs
  · have hothers : ∀ b ∈ [(⟨2⟩ : BlockId), ⟨0⟩], ∀ v ∈ picked.module.instructions b, v ≠ ⟨6⟩ →
        ∀ w ∈ readOf picked.module v, w ∉ [(⟨4⟩ : ValueId), ⟨5⟩] := by decide +kernel
    exact hothers b (picked_entered.mp hb) v hv hv6 w hw.mem_readOf hin

/-- All passes in a row leave the program verified, and so does the removal of the orphan alone. -/
theorem picked_passes_verified : picked.module.verify = .ok () ∧
    (∃ changed m', (Pipeline.run ⟨[.unreachableBlockElim, .constProp, .dce, .globalDce]⟩).outcome
      picked.module = (.ok changed, m') ∧ m'.verify = .ok ()) ∧
    ∃ changed m', (Pipeline.run ⟨[.unreachableBlockElim]⟩).outcome picked.module =
      (.ok changed, m') ∧ m'.verify = .ok () := by
  obtain ⟨hall, changed, m', hrun, hsafe⟩ :=
    Module.Reachable.passes_verified reachable_picked.module picked_verified
  have hnames : picked.module.OwnsNames := fun v hv => by
    have hnone : picked.module.globals = [] := by decide +kernel
    rw [hnone] at hv
    cases hv
  refine ⟨picked_verified, hall _ fun p hp => ?_, changed, m', hrun, hsafe.mpr picked_separate⟩
  cases p with
  | globalDce => exact hnames
  | unreachableBlockElim => exact picked_separate
  | dce | constProp => trivial

/-- A program whose entry reads a sum of a block that control cannot come to. -/
def severing : List Call :=
  [.types (.ofType (.int 32)),
    .symbol (.declareFunction "main" ⟨0⟩ [] false),
    .layout (.appendBlock ⟨0⟩ "entry"),
    .layout (.appendBlock ⟨0⟩ "lost"),
    .constant (.integer ⟨0⟩ 1),
    .setCursor (some { block := ⟨1⟩ }),
    .emission (.binary .add ⟨0⟩ ⟨0⟩),
    .emission (.ret ⟨1⟩),
    .setCursor (some { block := ⟨0⟩ }),
    .emission (.binary .add ⟨1⟩ ⟨0⟩),
    .emission (.ret ⟨3⟩)]

/-- The builder after those calls. -/
def severed : Builder := Builder.replay { module := { name := "severing" } } severing

/-- Verification lets an operand come from a block that control cannot come to, and the removal of
that block takes the operand away. -/
theorem severed_not_verified : severed.module.Reachable ∧ severed.module.verify = .ok () ∧
    ∃ changed m', (Pipeline.run ⟨[.unreachableBlockElim]⟩).outcome severed.module =
      (.ok changed, m') ∧ m'.verify ≠ .ok () := by
  have hreachable : severed.Reachable :=
    Builder.Replays.reachable (by decide +kernel) (Builder.reachable_empty "severing")
  have hrun : ((Pipeline.run ⟨[.unreachableBlockElim]⟩).outcome severed.module).1 = .ok true ∧
      ((Pipeline.run ⟨[.unreachableBlockElim]⟩).outcome severed.module).2.verify ≠ .ok () := by
    decide +kernel
  exact ⟨hreachable.module, by decide +kernel, true, _, Prod.ext hrun.1 rfl, hrun.2⟩

end SsaKit
