import SsaKit.Proofs.Acceptance
import SsaKit.Proofs.Folding

/-! The order of the phis at the head of a block is of no account: all of them are read before any of
them is set. Only a read that opens the storage of a global would be seen by the reads behind it. -/
namespace SsaKit

open Run Machine

variable {m m' : Module} {v w : ValueId} {b : BlockId} {f : FunctionId} {frame frame' : Frame}

theorem Instruction.mapOperands_id (i : Instruction) : i.mapOperands id = i := by
  cases i <;> simp [mapOperands]

/-! ### Reads that leave the machine alone -/

/-- A global, or a constant with a global in it. -/
inductive Module.HoldsGlobal (m : Module) : ValueId → Prop
  | global {v : ValueId} {g : Global} : m.kindOf v = .global g → HoldsGlobal m v
  | part {v w : ValueId} {elements : List ValueId} :
    m.kindOf v = .aggregate elements → w ∈ elements → HoldsGlobal m w → HoldsGlobal m v

/-- A phi that takes no global and no constant with a global in it. -/
def Module.IsPlainPhi (m : Module) (v : ValueId) : Prop :=
  ∃ incoming, m.instruction? v = some (.phi incoming) ∧ ∀ x ∈ incoming, ¬ m.HoldsGlobal x.2

/-- A step that leaves every machine as it is. -/
def Run.Still {α : Type} (step : Run α) : Prop := ∀ s, (step.run.run s).2 = s

namespace Run

variable {α β : Type}

theorem Still.eq_of_run {step : Run α} (h : Still step) {s t : Machine} {r : Except Fault α}
    (hr : step.run.run s = (r, t)) : t = s := by
  have hs := h s
  rwa [hr] at hs

theorem still_pure (a : α) : Still (pure a) := fun _ => rfl

theorem still_throw (fault : Fault) : Still (throw fault : Run α) := fun _ => rfl

theorem still_get : Still (get : Run Machine) := fun _ => rfl

theorem still_ofExcept (r : Except Fault α) : Still (ofExcept r) := fun _ => rfl

theorem still_bind {step : Run β} {next : β → Run α} (h : Still step) (hn : ∀ b, Still (next b)) :
    Still (step >>= next) := by
  intro s
  rw [run_bind]
  rcases hr : step.run.run s with ⟨fault | b, t⟩
  · exact h.eq_of_run hr
  · obtain rfl := h.eq_of_run hr
    exact hn b t

theorem still_mapM {f : β → Run α} {xs : List β} (h : ∀ x ∈ xs, Still (f x)) :
    Still (xs.mapM f) := by
  induction xs with
  | nil => exact still_pure []
  | cons x xs ih =>
    rw [List.mapM_cons]
    refine still_bind (h x (by simp)) fun a => ?_
    exact still_bind (ih fun y hy => h y (by simp [hy])) fun as => still_pure _

end Run

namespace Setting

variable {e e' : Setting} {callee callee' : FunctionId → List Datum → Run Datum}
  {previous : Option BlockId}

theorem constant_still (fuel : Nat) (hv : ¬ e.module.HoldsGlobal v) : Still (e.constant fuel v) := by
  induction fuel generalizing v with
  | zero => exact still_throw _
  | succ fuel ih =>
    unfold constant
    dsimp only
    cases hk : (e.module.value v).kind with
    | int _ | float _ | null | bytes _ => exact still_pure _
    | undef =>
      exact still_bind still_get fun s => still_ofExcept _
    | aggregate elements =>
      refine still_bind (still_mapM fun w hw => ih fun hg => hv (.part hk hw hg)) fun _ => ?_
      exact still_pure _
    | global g => exact absurd (.global hk) hv
    | argument _ _ | instruction _ => exact still_throw _

theorem operand_still (hv : ¬ e.module.HoldsGlobal v) (frame : Frame) :
    Still (e.operand frame v) := by
  have found : Still (framed frame v) := by
    unfold framed
    cases frame[v]? with
    | none => exact still_throw _
    | some d => exact still_pure d
  unfold operand
  cases e.module.kindOf v with
  | argument _ _ | instruction _ => exact found
  | _ => exact constant_still _ hv

theorem readPhi_still {incoming : List (BlockId × ValueId)}
    (hi : ∀ x ∈ incoming, ¬ e.module.HoldsGlobal x.2) :
    Still (e.readPhi f b previous frame v incoming) := by
  unfold readPhi
  cases previous with
  | none => exact still_throw _
  | some source =>
    dsimp only
    cases hl : incoming.lookup source with
    | none => exact still_throw _
    | some value =>
      exact still_bind (operand_still (hi _ (mem_of_lookup hl)) frame) fun d => still_pure (v, d)

/-! ### Phis in another order -/

theorem readPhis_phi_eq_ok {l : List ValueId} {incoming : List (BlockId × ValueId)} {s t : Machine}
    {r : List (ValueId × Datum) × List ValueId}
    (hi : e.module.instruction? v = some (.phi incoming)) :
    (e.readPhis f b previous frame (v :: l)).run.run s = (.ok r, t) ↔
      ∃ p u r', (e.readPhi f b previous frame v incoming).run.run s = (.ok p, u) ∧
        (e.readPhis f b previous frame l).run.run u = (.ok r', t) ∧ r = (p :: r'.1, r'.2) := by
  rw [readPhis_phi e hi]
  constructor
  · intro h
    obtain ⟨p, u, hp, h⟩ := run_bind_eq_ok h
    obtain ⟨r', u', hr, h⟩ := run_bind_eq_ok h
    cases h
    exact ⟨p, u, r', hp, hr, rfl⟩
  · rintro ⟨p, u, r', hp, hr, rfl⟩
    rw [run_bind, hp]
    dsimp only
    rw [run_bind, hr]
    rfl

/-- Phis whose reads leave the machine alone take the same on an edge in every order. -/
theorem readPhis_perm {phis phis' rest : List ValueId} {s t : Machine}
    {r : List (ValueId × Datum) × List ValueId} (hperm : phis.Perm phis')
    (hphis : ∀ v ∈ phis, e.module.IsPlainPhi v)
    (h : (e.readPhis f b previous frame (phis ++ rest)).run.run s = (.ok r, t)) :
    ∃ merged, (e.readPhis f b previous frame (phis' ++ rest)).run.run s = (.ok (merged, r.2), t) ∧
      merged.Perm r.1 := by
  induction hperm generalizing s r with
  | nil => exact ⟨r.1, h, .refl _⟩
  | cons v _ ih =>
    obtain ⟨incoming, hi, -⟩ := hphis v (by simp)
    obtain ⟨p, u, r', hp, hr, rfl⟩ := (readPhis_phi_eq_ok hi).mp h
    obtain ⟨merged, hm, hperm⟩ := ih (fun w hw => hphis w (by simp [hw])) hr
    exact ⟨p :: merged, (readPhis_phi_eq_ok hi).mpr ⟨p, u, _, hp, hm, rfl⟩, hperm.cons p⟩
  | swap v w l =>
    obtain ⟨incoming, hi, hv⟩ := hphis v (by simp)
    obtain ⟨incoming', hi', hw⟩ := hphis w (by simp)
    obtain ⟨q, u, r', hq, hr, rfl⟩ := (readPhis_phi_eq_ok hi').mp h
    obtain ⟨p, u', r'', hp, hr', rfl⟩ := (readPhis_phi_eq_ok hi).mp hr
    -- neither read moves the machine, so that each can come first
    obtain rfl := (readPhi_still hw).eq_of_run hq
    obtain rfl := (readPhi_still hv).eq_of_run hp
    have hrest := (readPhis_phi_eq_ok hi').mpr ⟨q, u', r'', hq, hr', rfl⟩
    exact ⟨p :: q :: r''.1, (readPhis_phi_eq_ok hi).mpr ⟨p, u', _, hp, hrest, rfl⟩, .swap _ _ _⟩
  | trans hleft _ ih ih' =>
    obtain ⟨merged, hm, hperm⟩ := ih hphis h
    obtain ⟨merged', hm', hperm'⟩ := ih' (fun v hv => hphis v (hleft.mem_iff.mpr hv)) hm
    exact ⟨merged', hm', hperm'.trans hperm⟩

end Setting

/-! ### Frames that answer alike -/

/-- The same results under every name. -/
def Frame.Same (frame frame' : Frame) : Prop := ∀ v : ValueId, frame'[v]? = frame[v]?

theorem Frame.Same.insert (h : frame.Same frame') (v : ValueId) (d : Datum) :
    Frame.Same (frame.insert v d) (frame'.insert v d) := by
  intro w
  rw [getElem?_insert, getElem?_insert, h w]

/-- Results under different names can be set in any order. -/
theorem Frame.Same.insertMany {l l' : List (ValueId × Datum)} (h : frame.Same frame')
    (hl : l'.Perm l) (hn : (l.map Prod.fst).Nodup) :
    Frame.Same (frame.insertMany l) (frame'.insertMany l') := by
  have apart {xs : List (ValueId × Datum)} (hxs : (xs.map Prod.fst).Nodup) :
      xs.Pairwise fun p q => ¬ compare p.1 q.1 = .eq :=
    (List.pairwise_map.mp hxs).imp fun hne => by simpa using hne
  have hn' : (l'.map Prod.fst).Nodup := (hl.map Prod.fst).nodup_iff.mpr hn
  intro v
  by_cases hv : v ∈ l.map Prod.fst
  · obtain ⟨⟨w, d⟩, hmem, rfl⟩ := List.mem_map.mp hv
    rw [Std.TreeMap.getElem?_insertMany_list_of_mem (by simp) (apart hn) hmem,
      Std.TreeMap.getElem?_insertMany_list_of_mem (by simp) (apart hn') (hl.mem_iff.mpr hmem)]
  · have hv' : v ∉ l'.map Prod.fst := fun hin => hv ((hl.map Prod.fst).mem_iff.mp hin)
    rw [Std.TreeMap.getElem?_insertMany_list_of_contains_eq_false (by simpa using hv'),
      Std.TreeMap.getElem?_insertMany_list_of_contains_eq_false (by simpa using hv), h v]

/-! ### Modules that differ in the order of phis -/

/-- The same module, but for the order of plain phis that come first in their block. -/
structure Module.Reshuffles (m m' : Module) : Prop extends m.SameContent m' where
  bodies : m'.functions = m.functions
  phis : ∀ b, ∃ phis phis' rest, m.instructions b = phis ++ rest ∧
    m'.instructions b = phis' ++ rest ∧ phis.Perm phis' ∧ ∀ v ∈ phis, m.IsPlainPhi v

namespace Module

theorem SameContent.holdsGlobal (h : m.SameContent m') (hv : m'.HoldsGlobal v) :
    m.HoldsGlobal v := by
  induction hv with
  | global hk => exact .global ((h.kindOf _).symm.trans hk)
  | part hk hw _ ih => exact .part ((h.kindOf _).symm.trans hk) hw ih

theorem SameContent.isPlainPhi (h : m.SameContent m') (hv : m.IsPlainPhi v) : m'.IsPlainPhi v := by
  obtain ⟨incoming, hi, hg⟩ := hv
  exact ⟨incoming, (h.instruction? v).trans hi, fun x hx hin => hg x hx (h.holdsGlobal hin)⟩

namespace Reshuffles

variable (h : m.Reshuffles m')
include h

theorem symm : m'.Reshuffles m where
  toSameContent := h.toSameContent.symm
  bodies := h.bodies.symm
  phis b := by
    obtain ⟨phis, phis', rest, hl, hl', hperm, hphis⟩ := h.phis b
    exact ⟨phis', phis, rest, hl', hl, hperm.symm, fun v hv =>
      h.isPlainPhi (hphis v (hperm.mem_iff.mpr hv))⟩

theorem nodup (hn : ∀ b, (m.instructions b).Nodup) (b : BlockId) : (m'.instructions b).Nodup := by
  obtain ⟨phis, phis', rest, hl, hl', hperm, -⟩ := h.phis b
  rw [hl']
  exact (hperm.append_right rest).nodup_iff.mp (hl ▸ hn b)

theorem keeps (host : Host) (limits : Limits) :
    Setting.Keeps ⟨m, host, limits⟩ ⟨m', host, limits⟩ where
  host := rfl
  limits := rfl
  types := h.types
  functions := h.bodies
  globals := h.globals
  values := Nat.le_of_eq h.values.symm
  typeOf v _ := h.typeOf v
  kindOf v _ := .inl (h.kindOf v)

end Reshuffles
end Module

namespace Module.Reshuffles

open Setting

variable {e e' : Setting} {callee callee' : FunctionId → List Datum → Run Datum}
  {previous : Option BlockId} (h : e.module.Reshuffles e'.module) (hk : e.Keeps e')
  (hs : e.module.Sound)
include h hk hs

theorem reads (hf : frame.Same frame') (hv : e.module.values.Has v) :
    Reads e e' frame frame' id v := by
  have hconstant := hk.simulates_constant hs hk.constantDepth_le hv
  unfold Reads operand
  rw [id, h.kindOf, hf v]
  cases e.module.kindOf v with
  | argument _ _ | instruction _ =>
    dsimp only
    cases frame[v]? with
    | none => exact simulates_throw _ _
    | some d => exact simulates_pure rfl
  | _ => exact hconstant

theorem operands_read {i : Instruction} (hf : frame.Same frame')
    (hi : e.module.instruction? v = some i) : ∀ w ∈ i.operands, Reads e e' frame frame' id w :=
  fun w hw => h.reads hk hs hf (hs.operands_has hi w hw)

/-- The same phis are read in both modules. What they take and what follows them is the code. -/
theorem simulates_readPhis (hf : frame.Same frame') (l : List ValueId) :
    Simulates Spares (e.readPhis f b previous frame l) (e'.readPhis f b previous frame' l)
      (fun r r' => r' = r ∧ r.1.map Prod.fst ++ r.2 = l) := by
  induction l with
  | nil => exact simulates_pure ⟨rfl, rfl⟩
  | cons v l ih =>
    by_cases hv : ∃ incoming, e.module.instruction? v = some (.phi incoming)
    · obtain ⟨incoming, hi⟩ := hv
      have hreads : ∀ x ∈ incoming, Reads e e' frame frame' id x.2 := fun x hx =>
        h.operands_read hk hs hf hi x.2 (List.mem_map_of_mem hx)
      have hphi : Simulates Spares (e.readPhi f b previous frame v incoming)
          (e'.readPhi f b previous frame' v incoming) (fun p p' => p' = p ∧ p.1 = v) := by
        simpa using simulates_readPhi hreads
      rw [readPhis_phi e hi, readPhis_phi e' ((h.instruction? v).trans hi)]
      refine simulates_bind hphi fun p p' hp => ?_
      obtain ⟨rfl, rfl⟩ := hp
      refine simulates_bind ih fun r r' hr => ?_
      obtain ⟨rfl, rfl⟩ := hr
      exact simulates_pure ⟨rfl, rfl⟩
    · have hv' : ¬ ∃ incoming, e'.module.instruction? v = some (.phi incoming) := by
        rwa [h.instruction?]
      rw [readPhis_stop e (head_not_phi hv), readPhis_stop e' (head_not_phi hv')]
      exact simulates_pure ⟨rfl, rfl⟩

theorem simulates_runInstructions
    (hc : ∀ f args, Simulates Spares (callee f args) (callee' f args) (· = ·))
    (hf : frame.Same frame') (l : List ValueId) :
    Simulates Spares (e.runInstructions callee f b l frame)
      (e'.runInstructions callee' f b l frame') (FlowAgrees Frame.Same) := by
  induction l generalizing frame frame' with
  | nil => exact simulates_throw _ _
  | cons v l ih =>
    cases hi : e.module.instruction? v with
    | none =>
      rw [runInstructions, hi]
      exact simulates_tick_left (simulates_throw _ _)
    | some i =>
      have hi' : e'.module.instruction? v = some (i.mapOperands id) := by
        rw [h.instruction?, hi, i.mapOperands_id]
      exact hk.simulates_instruction hc hi hi' hf (h.operands_read hk hs hf hi) fun d =>
        ih (hf.insert v d)

/-- One block leads to the same place and to frames that answer alike: the phis are read in another
order, and set in another order. -/
theorem simulates_runBlock (hn : ∀ b, (e.module.instructions b).Nodup)
    (hc : ∀ f args, Simulates Spares (callee f args) (callee' f args) (· = ·))
    (hf : frame.Same frame') :
    Simulates Spares (e.runBlock callee f previous b frame)
      (e'.runBlock callee' f previous b frame') (FlowAgrees Frame.Same) := by
  obtain ⟨phis, phis', rest, hl, hl', hperm, hphis⟩ := h.phis b
  have hnodup : (phis ++ rest).Nodup := hl ▸ hn b
  have hread : Simulates Spares (e.readPhis f b previous frame (phis ++ rest))
      (e'.readPhis f b previous frame' (phis' ++ rest))
      (fun r r' => r'.1.Perm r.1 ∧ (r.1.map Prod.fst).Nodup ∧ r'.2 = r.2) := by
    intro s t hst r s' hr
    obtain ⟨r', t', hr', ⟨rfl, hkeys⟩, hst'⟩ := h.simulates_readPhis hk hs hf _ s t hst r s' hr
    obtain ⟨merged, hm, hmerged⟩ := readPhis_perm hperm (fun v hv => h.isPlainPhi (hphis v hv)) hr'
    rw [← hkeys] at hnodup
    exact ⟨(merged, r'.2), t', hm, ⟨hmerged, hnodup.of_append_left, rfl⟩, hst'⟩
  unfold runBlock
  rw [hl, hl']
  refine simulates_bind hread fun r r' hr => ?_
  obtain ⟨hmerged, hkeys, hrest⟩ := hr
  dsimp only
  rw [hrest]
  exact h.simulates_runInstructions hk hs hc (hf.insertMany hmerged hkeys) _

theorem runFunction_eq {args : List Box} {r : Box} (hn : ∀ b, (e.module.instructions b).Nodup)
    (hr : e.runFunction f args = .ok r) : e'.runFunction f args = .ok r :=
  hk.runFunction_eq (fun _ _ hc _ _ => hk.simulates_execute (Q := Frame.Same)
    (fun _ _ _ _ hf => h.simulates_runBlock hk hs hn hc hf) fun _ => rfl) hr

end Module.Reshuffles

/-- Phis merge in parallel. Whatever a function returns with the phis of a block in one order, it
returns with them in any other: on every host, within every limit and for all arguments. -/
theorem Builder.Attained.phis_reshuffled {s : Builder} (h : s.Attained) {m' : Module}
    (hm : s.module.Reshuffles m') (host : Host) (limits : Limits) (f : FunctionId)
    (args : List Box) (r : Box) :
    (⟨s.module, host, limits⟩ : Setting).runFunction f args = .ok r ↔
      (⟨m', host, limits⟩ : Setting).runFunction f args = .ok r := by
  have hhealthy := h.sturdy.healthy
  obtain ⟨o, ho⟩ : ∃ o, s.module.Ordered o := ⟨_, hhealthy.ordered⟩
  have hn (b : BlockId) : (s.module.instructions b).Nodup := by
    rw [ho.instructions_eq]
    exact (ho.code.holds b).nodup
  constructor
  · exact hm.runFunction_eq (hm.keeps host limits) hhealthy.sound hn
  · exact hm.symm.runFunction_eq (hm.symm.keeps host limits) (hm.sound hhealthy.sound) (hm.nodup hn)

/-! ### A phi moved by calls -/

namespace Module

variable {o : Order} {anchor : ValueId} {phis rest : List ValueId}

theorem not_holdsGlobal (hg : (m.global? v).isNone) (hp : (m.kindOf v).parts = []) :
    ¬ m.HoldsGlobal v := by
  intro h
  cases h with
  | global hk => simp [global?_eq_some.mpr hk] at hg
  | part hk hw _ =>
    rw [hk] at hp
    exact List.ne_nil_of_mem hw hp

theorem functions_detached (m : Module) (v : ValueId) : (m.detached v).functions = m.functions := by
  unfold detached
  split <;> rfl

/-- Taking a plain phi out of its block and putting it back before another one there only reorders
the phis. -/
theorem Ordered.moved_reshuffles (ho : m.Ordered o) (hl : m.instructions b = phis ++ rest)
    (hphis : ∀ w ∈ phis, m.IsPlainPhi w) (hv : v ∈ phis) (ha : anchor ∈ phis) (hne : anchor ≠ v) :
    Attempt.Ends (do detachInstruction v; insertInstructionBefore anchor v) m
      (fun _ => m.Reshuffles)
      fun _ => False := by
  rw [ho.instructions_eq] at hl
  obtain ⟨us, ws, rfl⟩ := List.append_of_mem hv
  have hkept : anchor ∈ us ++ ws := by simpa [hne] using ha
  obtain ⟨xs, ys, hsplit⟩ := List.append_of_mem hkept
  have hdetached := ho.detached_order v
  have hcontent := sameContent_detached m v
  have hout (k : BlockId) : v ∉ (m.detached v).instructions k := by
    simp [ho.instructions_detached]
  have hcode : (o.code b).filter (· ≠ v) = xs ++ anchor :: (ys ++ rest) := by
    have hbare : o.code b = us ++ v :: (ws ++ rest) := by simp [hl]
    rw [filter_ne_of_split (ho.code.holds b).nodup hbare, ← List.append_assoc, hsplit]
    simp
  have hinstr : (m.detached v).isInstruction v := by
    obtain ⟨incoming, hi, -⟩ := hphis v hv
    simp [isInstruction, hcontent.instruction?, hi]
  have hfree : (m.detached v).blockOf? v = none := by
    by_contra hsome
    obtain ⟨k, hk⟩ := Option.ne_none_iff_exists'.mp hsome
    refine hout k ?_
    rw [hdetached.instructions_eq]
    exact hdetached.blockOf?_eq_some.mp hk
  have hin : (m.detached v).blockOf? anchor = some b :=
    hdetached.blockOf?_eq_some.mpr (by grind)
  rw [Attempt.ends_bind]
  refine ends_detach ?_
  unfold insertInstructionBefore
  rw [Attempt.ends_bind]
  refine ends_checkDetached_of hinstr hfree ?_
  simp only [Attempt.ends_bind, Attempt.ends_get, hin]
  have hmoved := hdetached.insertCode (has_of_isInstruction hinstr) hfree hcode
  refine ⟨hcontent.trans (sameContent_withCode Chain.size_insertBefore fun _ =>
    Chain.content?_insertBefore), functions_detached m v, fun k => ?_⟩
  by_cases hk : k = b
  · subst hk
    refine ⟨us ++ v :: ws, xs ++ v :: anchor :: ys, rest, ho.instructions_eq.trans hl, ?_, ?_, hphis⟩
    · exact hmoved.instructions_eq.trans (by simp [Order.setCode])
    · exact List.perm_middle.trans (hsplit ▸ List.perm_middle.symm)
  · refine ⟨[], [], m.instructions k, rfl, hmoved.instructions_eq.trans ?_, .refl _, by simp⟩
    have hkeep : ∀ w ∈ o.code k, w ≠ v := fun w hw he =>
      hk (ho.code.disjoint (he ▸ hw) (by simp [hl] : v ∈ o.code b))
    simp only [Order.setCode, Function.update_of_ne hk, List.nil_append, ho.instructions_eq]
    exact List.filter_eq_self.mpr fun w hw => by simpa using hkeep w hw

end Module

/-- A loop whose two phis take each other's result, and a third one that counts the rounds. -/
def exchanging : List Call :=
  [.types (.ofType (.int 32)),
    .symbol (.declareFunction "exchange" ⟨0⟩ [⟨0⟩] false),
    .layout (.appendBlock ⟨0⟩ "entry"),
    .layout (.appendBlock ⟨0⟩ "loop"),
    .layout (.appendBlock ⟨0⟩ "exit"),
    .constant (.integer ⟨0⟩ 0),
    .constant (.integer ⟨0⟩ 1),
    .constant (.integer ⟨0⟩ 2),
    .setCursor (some { block := ⟨0⟩ }),
    .emission (.br ⟨1⟩),
    .setCursor (some { block := ⟨1⟩ }),
    .emission (.phi ⟨0⟩ [(⟨0⟩, ⟨2⟩)]),
    .emission (.phi ⟨0⟩ [(⟨0⟩, ⟨3⟩)]),
    .emission (.phi ⟨0⟩ [(⟨0⟩, ⟨1⟩)]),
    .emission (.binary .add ⟨7⟩ ⟨2⟩),
    .emission (.icmp .slt ⟨8⟩ ⟨0⟩),
    .emission (.condBr ⟨9⟩ ⟨1⟩ ⟨2⟩),
    .layout (.addIncoming ⟨5⟩ ⟨1⟩ ⟨6⟩),
    .layout (.addIncoming ⟨6⟩ ⟨1⟩ ⟨5⟩),
    .layout (.addIncoming ⟨7⟩ ⟨1⟩ ⟨8⟩),
    .setCursor (some { block := ⟨2⟩ }),
    .emission (.ret ⟨5⟩)]

/-- The builder after those calls. -/
def exchanged : Builder := Builder.replay { module := { name := "exchanging" } } exchanging

/-- The same program with the second of the two phis before the first one. -/
def reordered : Module :=
  (Attempt.outcome (do Module.detachInstruction ⟨6⟩; Module.insertInstructionBefore ⟨5⟩ ⟨6⟩)
    exchanged.module).2

theorem reachable_exchanged : exchanged.Reachable :=
  Builder.Replays.reachable (by decide +kernel) (Builder.reachable_empty "exchanging")

theorem exchanged_code :
    exchanged.module.instructions ⟨1⟩ = [⟨5⟩, ⟨6⟩] ++ [⟨7⟩, ⟨8⟩, ⟨9⟩, ⟨10⟩] := by
  decide +kernel

/-- The two phis take constants from the entry, and each other's result from the loop. -/
theorem exchanged_phis : ∀ v ∈ [⟨5⟩, ⟨6⟩], exchanged.module.IsPlainPhi v := by
  have plain : ∀ v ∈ [⟨2⟩, ⟨3⟩, ⟨5⟩, ⟨6⟩], ¬ exchanged.module.HoldsGlobal v := by
    intro v hv
    simp only [List.mem_cons, List.not_mem_nil, or_false] at hv
    rcases hv with rfl | rfl | rfl | rfl <;>
      exact Module.not_holdsGlobal (by decide +kernel) (by decide +kernel)
  have hfirst : exchanged.module.instruction? ⟨5⟩ = some (.phi [(⟨0⟩, ⟨2⟩), (⟨1⟩, ⟨6⟩)]) := by
    decide +kernel
  have hsecond : exchanged.module.instruction? ⟨6⟩ = some (.phi [(⟨0⟩, ⟨3⟩), (⟨1⟩, ⟨5⟩)]) := by
    decide +kernel
  simp only [List.forall_mem_cons, List.not_mem_nil, false_implies, implies_true, and_true]
  exact ⟨⟨_, hfirst, by simp [plain]⟩, _, hsecond, by simp [plain]⟩

theorem reordered_reshuffles : exchanged.module.Reshuffles reordered := by
  have hordered := reachable_exchanged.sane.ordered
  have hcode := exchanged_code
  have hphis := exchanged_phis
  unfold reordered
  -- from here on nothing depends on the program, and it need not be evaluated
  generalize exchanged.module = m at *
  exact (hordered.moved_reshuffles hcode hphis (v := ⟨6⟩) (by simp) (List.mem_cons_self ..)
    (by decide)).mono (fun _ _ h => h) (fun _ h => h.elim) |>.state

/-- Both orders return the same. -/
theorem exchanged_returns : exchanged.Attained ∧ exchanged.module.verify = .ok () ∧
    exchanged.module.instructions ⟨1⟩ ≠ reordered.instructions ⟨1⟩ ∧
    ∀ (args : List Box) (r : Box),
      (⟨exchanged.module, .standard, {}⟩ : Setting).runFunction ⟨0⟩ args = .ok r ↔
        (⟨reordered, .standard, {}⟩ : Setting).runFunction ⟨0⟩ args = .ok r :=
  ⟨reachable_exchanged.attained, by decide +kernel, by decide +kernel,
    reachable_exchanged.attained.phis_reshuffled reordered_reshuffles .standard {} ⟨0⟩⟩

end SsaKit
