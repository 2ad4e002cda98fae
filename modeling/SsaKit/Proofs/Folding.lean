import SsaKit.Proofs.Evaluation
import SsaKit.Proofs.Symbol

/-! A constant in the place of an instruction that always comes to it: whatever was returned before
is returned afterwards, in fewer steps. -/
namespace SsaKit.Setting

open Run Machine SsaKit.Module

variable {e e' : Setting} {v c w : ValueId} {d : Datum} {frame frame' : Frame}
  {callee callee' : FunctionId → List Datum → Run Datum} {f : FunctionId} {b : BlockId}
  {previous : Option BlockId} {l : List ValueId}

/-- A read of one value turned into a read of another one. -/
def standIn (v c w : ValueId) : ValueId := if w = v then c else w

/-- The second setting has a constant in the place of an instruction that comes to it. -/
structure Folds (e e' : Setting) (v c : ValueId) (d : Datum) : Prop where
  keeps : e.Keeps e'
  settled : ∃ i, e.module.instruction? v = some i ∧ i.isPhi = false ∧ i.isTerminator = false ∧
    ∀ callee frame, e.evaluate callee frame (e.module.typeOf v) i = pure d
  constant : ∀ frame, e'.operand frame c = pure d
  instruction : ∀ w, e.module.values.Has w → e'.module.instruction? w =
    (e.module.instruction? w).map (·.mapOperands (standIn v c))
  code : ∀ b, e'.module.instructions b = (e.module.instructions b).filter (· ≠ v)

/-- The same results in both frames, but for the folded instruction, which is its constant where it
is anything. -/
structure Agrees (v : ValueId) (d : Datum) (frame frame' : Frame) : Prop where
  others : ∀ w, w ≠ v → frame'[w]? = frame[w]?
  folded : ∀ d', frame[v]? = some d' → d' = d

theorem Agrees.insert (h : Agrees v d frame frame') (hw : w ≠ v) (x : Datum) :
    Agrees v d (frame.insert w x) (frame'.insert w x) where
  others u hu := by
    rw [getElem?_insert, getElem?_insert, h.others u hu]
  folded d' hd := by
    rw [getElem?_insert] at hd
    exact h.folded d' (by simpa [hw] using hd)

theorem Agrees.insert_folded (h : Agrees v d frame frame') :
    Agrees v d (frame.insert v d) frame' where
  others w hw := by
    rw [getElem?_insert, h.others w hw]
    simp [Ne.symm hw]
  folded d' hd := by
    rw [getElem?_insert] at hd
    simpa using hd.symm

theorem Agrees.insertMany {merged : List (ValueId × Datum)} (h : Agrees v d frame frame')
    (hm : ∀ p ∈ merged, p.1 ≠ v) :
    Agrees v d (frame.insertMany merged) (frame'.insertMany merged) := by
  induction merged generalizing frame frame' with
  | nil => simpa using h
  | cons p merged ih =>
    obtain ⟨w, x⟩ := p
    rw [Std.TreeMap.insertMany_cons, Std.TreeMap.insertMany_cons]
    exact ih (h.insert (hm (w, x) (by simp)) x) fun q hq => hm q (by simp [hq])

namespace Folds

variable (h : e.Folds e' v c d) (hs : e.module.Sound)
include h hs

theorem reads (ha : Agrees v d frame frame') (hw : e.module.values.Has w) :
    Reads e e' frame frame' (standIn v c) w := by
  obtain ⟨i, hi, -⟩ := h.settled
  unfold Reads standIn
  by_cases hwv : w = v
  · subst hwv
    rw [if_pos rfl, h.constant frame', operand, kindOf_of_instruction? hi]
    dsimp only
    cases hd : frame[w]? with
    | none => exact simulates_throw _ _
    | some d' => exact simulates_pure (ha.folded d' hd)
  · rw [if_neg hwv]
    unfold operand
    rw [ha.others w hwv]
    have found : Simulates Spares (framed frame w) (framed frame w) (· = ·) := by
      unfold framed
      cases frame[w]? with
      | none => exact simulates_throw _ _
      | some d => exact simulates_pure rfl
    obtain hsame | ⟨i, i', hi, hi'⟩ := h.keeps.kindOf w hw
    · rw [hsame]
      have hc := h.keeps.simulates_constant hs h.keeps.constantDepth_le hw
      cases e.module.kindOf w with
      | argument _ _ | instruction _ => exact found
      | _ => exact hc
    · rw [hi, hi']
      exact found

omit hs in
theorem instruction?_eq {i : Instruction} (hi : e.module.instruction? w = some i) :
    e'.module.instruction? w = some (i.mapOperands (standIn v c)) := by
  rw [h.instruction w (has_of_kindOf (by simp [kindOf_of_instruction? hi])), hi]
  rfl

/-- Behind the phis both runs go the same way; the first one stops at the folded instruction, whose
result is known. -/
theorem simulates_runInstructions
    (hc : ∀ f args, Simulates Spares (callee f args) (callee' f args) (· = ·))
    (ha : Agrees v d frame frame') :
    Simulates Spares (e.runInstructions callee f b l frame)
      (e'.runInstructions callee' f b (l.filter (· ≠ v)) frame') (FlowAgrees (Agrees v d)) := by
  induction l generalizing frame frame' with
  | nil => exact simulates_throw _ _
  | cons w l ih =>
    cases hi : e.module.instruction? w with
    | none =>
      rw [runInstructions, hi]
      exact simulates_tick_left (simulates_throw _ _)
    | some i =>
      have hw := has_of_kindOf (m := e.module) (v := w) (by simp [kindOf_of_instruction? hi])
      have reads : ∀ u ∈ i.operands, Reads e e' frame frame' (standIn v c) u :=
        fun u hu => h.reads hs ha (hs.operands_has hi u hu)
      by_cases hwv : w = v
      · subst hwv
        obtain ⟨j, hj, hphi, hterm, hd⟩ := h.settled
        have hdropped : (w :: l).filter (· ≠ w) = l.filter (· ≠ w) := by simp
        rw [runInstructions_other e hj hphi hterm, hd, hdropped]
        refine simulates_tick_left ?_
        rw [pure_bind]
        exact ih ha.insert_folded
      · have hkept : (w :: l).filter (· ≠ v) = w :: l.filter (· ≠ v) := by simp [hwv]
        rw [hkept]
        exact h.keeps.simulates_instruction hc hi (h.instruction?_eq hi) ha reads fun x =>
          ih (ha.insert hwv x)

/-- The same phis are read when neither list goes on with another one. -/
theorem simulates_readPhis {phis rest : List ValueId} (ha : Agrees v d frame frame')
    (hphis : ∀ w ∈ phis, ∃ incoming, e.module.instruction? w = some (.phi incoming))
    (hrest : ∀ w ∈ rest.head?, ∀ i ∈ e.module.instruction? w, i.isPhi = false)
    (hkept : ∀ w ∈ (rest.filter (· ≠ v)).head?, ∀ i ∈ e'.module.instruction? w, i.isPhi = false) :
    Simulates Spares (e.readPhis f b previous frame (phis ++ rest))
      (e'.readPhis f b previous frame' (phis ++ rest.filter (· ≠ v)))
      (fun r r' => r.2 = rest ∧ r' = (r.1, rest.filter (· ≠ v)) ∧ ∀ p ∈ r.1, p.1 ∈ phis) := by
  induction phis with
  | nil =>
    rw [List.nil_append, List.nil_append, readPhis_stop e hrest, readPhis_stop e' hkept]
    exact simulates_pure ⟨rfl, rfl, by simp⟩
  | cons w phis ih =>
    obtain ⟨incoming, hi⟩ := hphis w (by simp)
    rw [List.cons_append, List.cons_append, readPhis_phi e hi, readPhis_phi e' (h.instruction?_eq hi)]
    have reads : ∀ x ∈ incoming, Reads e e' frame frame' (standIn v c) x.2 := fun x hx =>
      h.reads hs ha (hs.operands_has hi x.2 (List.mem_map_of_mem hx))
    refine simulates_bind (simulates_readPhi reads) fun p p' hp => ?_
    obtain ⟨rfl, hpw⟩ := hp
    refine simulates_bind (ih fun u hu => hphis u (by simp [hu])) fun r r' hr => ?_
    obtain ⟨hr, rfl, hmem⟩ := hr
    refine simulates_pure ⟨hr, rfl, fun q hq => ?_⟩
    rcases List.mem_cons.mp hq with rfl | hq
    · simp [hpw]
    · exact List.mem_cons_of_mem _ (hmem q hq)

omit hs in
/-- A block that goes on with a phi behind the folded instruction is never left. -/
theorem runBlock_late {phis rest : List ValueId} {incoming : List (BlockId × ValueId)}
    (hl : e.module.instructions b = phis ++ v :: w :: rest)
    (hphis : ∀ u ∈ phis, ∃ incoming, e.module.instruction? u = some (.phi incoming))
    (hw : e.module.instruction? w = some (.phi incoming)) :
    Ends (e.runBlock callee f previous b frame) (fun _ => False) fun _ => True := by
  obtain ⟨i, hi, hphi, hterm, hd⟩ := h.settled
  have hread : Ends (e.readPhis f b previous frame (phis ++ v :: w :: rest))
      (fun r => r.2 = v :: w :: rest) fun _ => True :=
    readPhis_rest e hphis fun u hu j hj => by
      obtain rfl : v = u := by simpa using hu
      obtain rfl := Option.some_inj.mp (hi.symm.trans hj)
      exact hphi
  unfold runBlock
  rw [hl]
  refine ends_bind hread fun r hr => ?_
  obtain ⟨merged, others⟩ := r
  obtain rfl : others = v :: w :: rest := hr
  dsimp only
  rw [runInstructions_other e hi hphi hterm, hd]
  refine ends_bind (ends_somehow _) fun _ _ => ?_
  rw [pure_bind, runInstructions, hw]
  exact ends_bind (ends_somehow _) fun _ _ => ends_throw trivial

/-- One block does the same in both settings. -/
theorem simulates_runBlock {o : Order} (ho : e.module.Ordered o)
    (hc : ∀ f args, Simulates Spares (callee f args) (callee' f args) (· = ·))
    (ha : Agrees v d frame frame') :
    Simulates Spares (e.runBlock callee f previous b frame)
      (e'.runBlock callee' f previous b frame') (FlowAgrees (Agrees v d)) := by
  obtain ⟨i, hi, hphi, -⟩ := h.settled
  have hholds := ho.code.holds b
  rw [← ho.instructions_eq] at hholds
  obtain ⟨phis, rest, hl, hphis, hrest⟩ := phis_split e.module (e.module.instructions b)
  have hv : v ∉ phis := fun hv => by
    obtain ⟨incoming, hp⟩ := hphis v hv
    obtain rfl := Option.some_inj.mp (hi.symm.trans hp)
    simp [Instruction.isPhi] at hphi
  have hkept : e'.module.instructions b = phis ++ rest.filter (· ≠ v) := by
    rw [h.code, hl, List.filter_append, List.filter_eq_self.mpr]
    intro u hu
    simpa using fun he : u = v => hv (he ▸ hu)
  by_cases hnext : ∀ w ∈ (rest.filter (· ≠ v)).head?, ∀ j ∈ e.module.instruction? w,
      j.isPhi = false
  · unfold runBlock
    rw [hl, hkept]
    have hstop : ∀ w ∈ (rest.filter (· ≠ v)).head?, ∀ j ∈ e'.module.instruction? w,
        j.isPhi = false := by
      intro w hw j hj
      have hin : w ∈ e.module.instructions b := by
        have hmem := List.mem_filter.mp (List.mem_of_mem_head? hw)
        rw [hl]
        exact List.mem_append_right _ hmem.1
      have hj : e'.module.instruction? w = some j := hj
      rw [h.instruction w (hholds.has w hin)] at hj
      obtain ⟨k, hk, rfl⟩ := Option.map_eq_some_iff.mp hj
      rw [Instruction.isPhi_mapOperands]
      exact hnext w hw k hk
    refine simulates_bind (h.simulates_readPhis hs ha hphis hrest hstop) fun r r' hr => ?_
    obtain ⟨rfl, rfl, hmem⟩ := hr
    refine h.simulates_runInstructions hs hc (ha.insertMany fun p hp he => hv ?_)
    exact he ▸ hmem p hp
  · -- only the folded instruction can stand between the phis and another one
    push Not at hnext
    obtain ⟨w, hw, j, hj, hjphi⟩ := hnext
    cases rest with
    | nil => simp at hw
    | cons u rest =>
      by_cases hu : u = v
      · subst hu
        have hnodup : (u :: rest).Nodup := (hl ▸ hholds.nodup).of_append_right
        have hout := (List.nodup_cons.mp hnodup).1
        have hsame : (u :: rest).filter (· ≠ u) = rest := by
          rw [List.filter_cons_of_neg (by simp), List.filter_eq_self]
          intro x hx
          simpa using fun he : x = u => hout (he ▸ hx)
        rw [hsame] at hw
        obtain ⟨rest, rfl⟩ : ∃ tail, rest = w :: tail := by
          cases rest with
          | nil => simp at hw
          | cons x tail =>
            obtain rfl : x = w := by simpa using hw
            exact ⟨tail, rfl⟩
        cases j with
        | phi incoming => exact simulates_of_ends (h.runBlock_late hl hphis hj) _
        | _ => simp [Instruction.isPhi] at hjphi
      · have hhead : u ∈ ((u :: rest).filter (· ≠ v)).head? := by simp [hu]
        obtain rfl : u = w := Option.some_inj.mp (hhead.symm.trans hw)
        exact absurd (hrest u rfl j hj) hjphi

/-- A folded instruction is no parameter. -/
theorem not_mem_params (f : FunctionId) : v ∉ e.module.params f := by
  obtain ⟨i, hi, -⟩ := h.settled
  intro hv
  by_cases hf : e.module.HasFunction f
  · obtain ⟨n, hn⟩ := kindOf_of_mem_params (hs.functions f hf) hv
    rw [kindOf_of_instruction? hi] at hn
    cases hn
  · have hnone : e.module.params f = [] := by
      rw [Module.params, function_def, Array.getElem?_eq_none (Nat.le_of_not_lt hf)]
      rfl
    simp [hnone] at hv

theorem runFunction_eq {o : Order} {args : List Box} {result : Box} (ho : e.module.Ordered o)
    (hr : e.runFunction f args = .ok result) : e'.runFunction f args = .ok result := by
  refine h.keeps.runFunction_eq (fun callee callee' hc f args => ?_) hr
  refine h.keeps.simulates_execute (Q := Agrees v d)
    (fun previous b frame frame' ha => h.simulates_runBlock hs ho hc ha)
    ⟨fun _ _ => rfl, fun d' hd => ?_⟩
  have hout : (((e.module.params f).zip args).map Prod.fst).contains v = false := by
    simp only [List.contains_eq_mem, decide_eq_false_iff_not, List.mem_map, not_exists, not_and]
    intro p hp he
    exact h.not_mem_params hs f (he ▸ (List.of_mem_zip hp).1)
  rw [Std.TreeMap.getElem?_ofList_of_contains_eq_false hout] at hd
  cases hd

end Folds

end SsaKit.Setting
