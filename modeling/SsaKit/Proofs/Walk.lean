import SsaKit.Proofs.Reachable
import SsaKit.Proofs.Run
import SsaKit.Proofs.Verify

/-! One walk over the code of a verified function, for whatever faults are to be told apart. What a
step does with values that are there fails plainly; beyond that it fails as its operands and calls do. -/
namespace SsaKit.Setting

open Run SsaKit.Module

variable {e : Setting} {f : FunctionId} {b : BlockId} {last v : ValueId} {l : List ValueId}
  {frame : Frame} {i : Instruction} {callee : FunctionId → List Datum → Run Datum}
  {failed : Fault → Prop}

/-- All that an instruction asks for fails in one way: its operands and the function that it calls. -/
structure Confines (e : Setting) (callee : FunctionId → List Datum → Run Datum)
    (failed : Fault → Prop) (i : Instruction) : Prop where
  operand : ∀ w ∈ i.operands, ∀ frame, Ends (e.operand frame w) (fun _ => True) failed
  call : ∀ g args, i = .call g args → ∀ data, Ends (callee g data) (fun _ => True) failed

section

variable (hplain : ∀ fault, fault.Plain → failed fault)
include hplain

theorem ends_plainly {α : Type} {r : Except Fault α} (h : Fault.Plainly r) :
    Ends (Run.ofExcept r) (fun _ => True) failed :=
  (ends_ofExcept h).mono (fun _ h => h) fun fault hf => hplain fault hf.1

theorem ends_physically {α : Type} {step : Run α} (h : Physically step) :
    Ends step (fun _ => True) failed :=
  h.mono (fun _ h => h) fun fault hf => hplain fault hf.plain

/-! ### One instruction -/

theorem wordOperand_walk (h : Ends (e.operand frame v) (fun _ => True) failed) :
    Ends (e.wordOperand frame v) (fun _ => True) failed :=
  ends_bind_any h fun d => ends_plainly hplain d.asWord_plainly

theorem signedOperand_walk (h : Ends (e.operand frame v) (fun _ => True) failed) :
    Ends (e.signedOperand frame v) (fun _ => True) failed :=
  ends_bind_any h fun d => ends_plainly hplain d.asSigned_plainly

theorem members_walk (h : Ends (e.operand frame v) (fun _ => True) failed) :
    Ends (e.members frame v) (fun _ => True) failed :=
  ends_bind_any h fun d => ends_plainly hplain d.asMembers_plainly

theorem derive_walk {base : ValueId} {indices : List ValueId}
    (h : ∀ w ∈ base :: indices, Ends (e.operand frame w) (fun _ => True) failed) :
    Ends (e.derive frame base indices) (fun _ => True) failed := by
  have signed (w : ValueId) (hw : w ∈ indices) :=
    signedOperand_walk hplain (h w (List.mem_cons_of_mem _ hw))
  unfold derive
  refine ends_bind_any (h base (by simp)) fun d => ?_
  refine ends_bind_any (ends_plainly hplain d.asPointer_plainly) fun target => ?_
  cases target with
  | none => exact ends_throw (hplain _ ⟨rfl, rfl⟩)
  | some p =>
    cases indices with
    | nil => exact ends_pure trivial
    | cons first rest =>
      refine ends_bind_any (signed first (by simp)) fun offset => ?_
      have hadvance := @advance_fails e.host failed (fun fault hf _ => hplain fault hf)
        (fun _ => hplain (.crash .overflow) ⟨rfl, rfl⟩) p offset
      refine ends_bind_any (ends_ofExcept hadvance) fun p => ?_
      refine ends_bind_any (ends_foldlM trivial fun p _ index hindex => ?_) fun _ =>
        ends_pure trivial
      refine ends_bind_any (signed index (List.mem_cons_of_mem _ hindex)) fun n => ?_
      exact ends_plainly hplain (enter_plainly p n)

theorem slotCount_walk {count : Option ValueId}
    (h : ∀ w ∈ count.toList, Ends (e.operand frame w) (fun _ => True) failed) :
    Ends (e.slotCount frame count) (fun _ => True) failed := by
  cases count with
  | none => exact ends_pure trivial
  | some v =>
    refine ends_bind_any (signedOperand_walk hplain (h v (by simp))) fun n => ?_
    split
    · exact ends_bind_any (ends_throw (hplain _ ⟨rfl, rfl⟩)) fun _ => ends_pure trivial
    · exact ends_pure trivial

theorem evaluate_walk {type : TypeId} (h : e.Confines callee failed i)
    (ht : i.isTerminator = false) (hp : i.isPhi = false) :
    Ends (e.evaluate callee frame type i) (fun _ => True) failed := by
  have operand (w : ValueId) (hw : w ∈ i.operands) : Ends (e.operand frame w) (fun _ => True) failed :=
    h.operand w hw frame
  have members (w : ValueId) (hw : w ∈ i.operands) := members_walk hplain (operand w hw)
  have word (w : ValueId) (hw : w ∈ i.operands) := wordOperand_walk hplain (operand w hw)
  unfold evaluate
  cases i with
  | call g args =>
    refine ends_bind (ends_mapM fun w hw => operand w hw) fun data _ => ?_
    exact h.call g args rfl data
  | branch _ | condBranch _ _ _ | switch _ _ _ | ret _ | unreachable =>
    simp [Instruction.isTerminator] at ht
  | phi _ => simp [Instruction.isPhi] at hp
  | binary op lhs rhs =>
    refine ends_bind_any (operand lhs (by simp [Instruction.operands])) fun a => ?_
    refine ends_bind_any (operand rhs (by simp [Instruction.operands])) fun b => ?_
    exact ends_ofExcept (Datum.binary_fails (fun fault hf _ => hplain fault hf)
      (fun _ => hplain _ ⟨rfl, rfl⟩) op a b)
  | icmp pred lhs rhs =>
    refine ends_bind_any (operand lhs (by simp [Instruction.operands])) fun a => ?_
    refine ends_bind_any (operand rhs (by simp [Instruction.operands])) fun b => ?_
    exact ends_plainly hplain (Datum.icmp_plainly pred a b)
  | fcmp pred lhs rhs =>
    refine ends_bind_any (operand lhs (by simp [Instruction.operands])) fun a => ?_
    refine ends_bind_any (operand rhs (by simp [Instruction.operands])) fun b => ?_
    exact ends_plainly hplain (Datum.fcmp_plainly pred a b)
  | alloca allocated count =>
    refine ends_bind_any (slotCount_walk hplain operand) fun n => ?_
    refine ends_bind_any (ends_physically hplain (allocate_physically _ _ _ _ _)) fun p => ?_
    exact ends_pure trivial
  | load ptr =>
    refine ends_bind_any (operand ptr (by simp [Instruction.operands])) fun d => ?_
    refine ends_bind_any (ends_plainly hplain d.asPointer_plainly) fun p => ?_
    exact ends_physically hplain (load_physically p)
  | store value ptr =>
    refine ends_bind_any (operand value (by simp [Instruction.operands])) fun d => ?_
    refine ends_bind_any (operand ptr (by simp [Instruction.operands])) fun target => ?_
    refine ends_bind_any (ends_plainly hplain target.asPointer_plainly) fun p => ?_
    refine ends_bind_any (ends_physically hplain (store_physically p d)) fun _ => ?_
    exact ends_pure trivial
  | elementPtr base indices => exact derive_walk hplain operand
  | cast op value =>
    refine ends_bind_any (operand value (by simp [Instruction.operands])) fun d => ?_
    exact ends_plainly hplain (Datum.cast_plainly _ _ _ _)
  | extractValue aggregate index =>
    refine ends_bind_any (members aggregate (by simp [Instruction.operands])) fun ds => ?_
    exact ends_plainly hplain (Datum.pick_plainly ds index)
  | insertValue aggregate element index =>
    refine ends_bind_any (members aggregate (by simp [Instruction.operands])) fun ds => ?_
    refine ends_bind_any (operand element (by simp [Instruction.operands])) fun d => ?_
    exact ends_plainly hplain (Datum.put_plainly ds index d)
  | extractElement vector index =>
    refine ends_bind_any (members vector (by simp [Instruction.operands])) fun ds => ?_
    refine ends_bind_any (word index (by simp [Instruction.operands])) fun w => ?_
    exact ends_plainly hplain (Datum.pick_plainly ds _)
  | insertElement vector element index =>
    refine ends_bind_any (members vector (by simp [Instruction.operands])) fun ds => ?_
    refine ends_bind_any (operand element (by simp [Instruction.operands])) fun d => ?_
    refine ends_bind_any (word index (by simp [Instruction.operands])) fun w => ?_
    exact ends_plainly hplain (Datum.put_plainly ds _ d)
  | shuffle lhs rhs mask =>
    refine ends_bind_any (members lhs (by simp [Instruction.operands])) fun left => ?_
    refine ends_bind_any (members rhs (by simp [Instruction.operands])) fun right => ?_
    refine ends_bind_any (members mask (by simp [Instruction.operands])) fun m => ?_
    exact ends_plainly hplain (Datum.shuffle_plainly left right m)
  | select cond thenValue elseValue =>
    refine ends_bind_any (operand cond (by simp [Instruction.operands])) fun c => ?_
    refine ends_bind_any (operand thenValue (by simp [Instruction.operands])) fun a => ?_
    refine ends_bind_any (operand elseValue (by simp [Instruction.operands])) fun b => ?_
    exact ends_plainly hplain (Datum.select_plainly c a b)

theorem switchTarget_walk {word : UInt64} {default : BlockId} {cases : List (ValueId × BlockId)}
    (h : ∀ w ∈ cases.map (·.1), Ends (e.operand frame w) (fun _ => True) failed) :
    Ends (e.switchTarget frame word default cases)
      (fun dest => dest = default ∨ dest ∈ cases.map (·.2)) failed := by
  induction cases with
  | nil => exact ends_pure (.inl rfl)
  | cons c cases ih =>
    obtain ⟨key, dest⟩ := c
    unfold switchTarget
    refine ends_bind_any (wordOperand_walk hplain (h key (by simp))) fun w => ?_
    have later : Ends (e.switchTarget frame word default cases)
        (fun d => d = default ∨ d ∈ ((key, dest) :: cases).map (·.2)) failed := by
      refine (ih fun w hw => h w (List.mem_cons_of_mem _ hw)).mono (fun d hd => ?_) fun _ he => he
      rcases hd with hd | hd
      · exact .inl hd
      · exact .inr (List.mem_cons_of_mem _ hd)
    split
    · exact ends_pure (.inr (by simp))
    · exact later

/-! ### One block -/

/-- The code behind the phis runs to the end of its block and leaves it on one of its edges. -/
theorem runInstructions_walk (hl : ∀ v ∈ l, ∀ i ∈ e.module.instruction? v, e.Confines callee failed i)
    (hb : (e.module.block b).chain.last = some last)
    (hp : e.module.Placed f b last false l) (hlast : l.getLast? = some last) :
    Ends (e.runInstructions callee f b l frame)
      (fun flow => ∀ dest frame, flow = .jump dest frame → dest ∈ e.module.successors b)
      failed := by
  induction l generalizing frame with
  | nil => simp at hlast
  | cons v l ih =>
    cases hp with
    | @cons _ _ i _ hi hrest =>
      have hv : e.Confines callee failed i := hl v (by simp) i hi.instruction
      have operand (w : ValueId) (hw : w ∈ i.operands) :
          Ends (e.operand frame w) (fun _ => True) failed := hv.operand w hw frame
      unfold runInstructions
      refine ends_bind_any (ends_physically hplain (tick_physically _)) fun _ => ?_
      rw [hi.instruction]
      have leave (ht : i.isTerminator) {dest : BlockId} (hd : dest ∈ i.successors) :
          dest ∈ e.module.successors b := by
        obtain rfl := hi.terminator.mp ht
        simp [successors, terminator?, hb, Option.filter, hi.instruction, ht, hd]
      have go (ht : i.isTerminator = false) (hphi : i.isPhi = false) :
          Ends (do
            let d ← e.evaluate callee frame (e.module.typeOf v) i
            e.runInstructions callee f b l (frame.insert v d))
          (fun flow => ∀ dest frame, flow = .jump dest frame → dest ∈ e.module.successors b)
          failed := by
        refine ends_bind_any (evaluate_walk hplain hv ht hphi) fun d => ?_
        refine ih (fun w hw => hl w (List.mem_cons_of_mem _ hw)) ?_ (getLast?_of_inPlace hi ht hlast)
        simpa [hphi] using hrest
      cases i with
      | branch dest =>
        refine ends_pure ?_
        rintro dest' frame' ⟨⟩
        exact leave rfl (by simp [Instruction.successors])
      | condBranch cond thenDest elseDest =>
        refine ends_bind_any (operand cond (by simp [Instruction.operands])) fun d => ?_
        refine ends_bind_any (ends_plainly hplain d.asBool_plainly) fun taken => ?_
        refine ends_pure ?_
        rintro dest' frame' ⟨⟩
        refine leave rfl ?_
        cases taken <;> simp [Instruction.successors]
      | switch value default cases =>
        refine ends_bind_any (wordOperand_walk hplain (operand value (by simp [Instruction.operands])))
          fun word => ?_
        have keys (w : ValueId) (hw : w ∈ cases.map (·.1)) :=
          operand w (by simp only [Instruction.operands]; exact List.mem_cons_of_mem _ hw)
        refine ends_bind (switchTarget_walk hplain keys) fun dest hd => ends_pure ?_
        rintro dest' frame' ⟨⟩
        refine leave rfl ?_
        simpa [Instruction.successors] using hd
      | ret value =>
        cases value with
        | none => exact ends_pure (by simp)
        | some value =>
          refine ends_bind_any (operand value (by simp [Instruction.operands])) fun d => ?_
          exact ends_pure (by simp)
      | unreachable => exact ends_throw (hplain _ ⟨rfl, rfl⟩)
      | phi incoming => exact absurd (hi.phi incoming rfl).1 (by simp)
      | _ => exact go rfl rfl

omit hplain in
/-- On an edge that leads to the block, its phis are read one after the other. -/
theorem readPhis_walk {previous : Option BlockId}
    (hl : ∀ v ∈ l, ∀ i ∈ e.module.instruction? v, ∀ w ∈ i.operands, ∀ frame,
      Ends (e.operand frame w) (fun _ => True) failed)
    (hentry : previous = none → ∀ v ∈ l.head?, ∀ incoming,
      e.module.instruction? v = some (.phi incoming) →
      failed (.phiInEntry (e.module.functionName f)))
    (hprev : ∀ p ∈ previous, p ∈ e.module.predecessors f b)
    (hp : e.module.Placed f b last true l) (hlast : l.getLast? = some last) :
    Ends (e.readPhis f b previous frame l)
      (fun r => (e.module.Placed f b last false r.2 ∧ r.2.getLast? = some last) ∧ r.2 ⊆ l)
      failed := by
  induction l with
  | nil => simp at hlast
  | cons v l ih =>
    cases hp with
    | @cons _ _ i _ hi hrest =>
      unfold readPhis
      rw [hi.instruction]
      have stay (hphi : i.isPhi = false) : Ends (pure ([], v :: l) :
          Run (List (ValueId × Datum) × List ValueId))
          (fun r => (e.module.Placed f b last false r.2 ∧ r.2.getLast? = some last) ∧ r.2 ⊆ v :: l)
          failed :=
        ends_pure ⟨⟨(Placed.cons hi hrest).afterOther hi.instruction hphi, hlast⟩,
          List.Subset.refl _⟩
      cases i with
      | phi incoming =>
        cases previous with
        | none => exact ends_throw (hentry rfl v rfl incoming hi.instruction)
        | some source =>
          have hsource := hprev source rfl
          have hmerge := (hi.phi incoming rfl).2
          simp only [mergesAll, Bool.and_eq_true, List.all_eq_true, List.contains_iff_mem] at hmerge
          obtain ⟨value, hvalue⟩ : ∃ value, incoming.lookup source = some value := by
            have hmem := hmerge.1.2 source hsource
            obtain ⟨edge, hedge, rfl⟩ := List.mem_map.mp hmem
            cases hlook : incoming.lookup edge.1 with
            | some value => exact ⟨value, rfl⟩
            | none =>
              have := List.lookup_eq_none_iff.mp hlook edge hedge
              simp at this
          dsimp only
          rw [hvalue]
          have hmem : value ∈ (Instruction.phi incoming).operands :=
            List.mem_map_of_mem (mem_of_lookup hvalue)
          refine ends_bind_any (hl v (by simp) _ hi.instruction value hmem frame) fun d => ?_
          have hrec := ih (fun w hw => hl w (List.mem_cons_of_mem _ hw)) (by simp) hrest
            (getLast?_of_inPlace hi rfl hlast)
          refine ends_bind hrec fun r hr => ?_
          exact ends_pure ⟨hr.1, List.subset_cons_of_subset _ hr.2⟩
      | _ => exact stay rfl

/-! ### One function -/

/-- Control that enters a block on one of its edges leaves it on another one, or returns. -/
theorem block_walk {o : Order} {previous : Option BlockId} (ho : e.module.Ordered o)
    (hv : e.module.Verified f) (hb : b ∈ e.module.blocksOf f)
    (hl : ∀ v ∈ e.module.instructions b, ∀ i ∈ e.module.instruction? v, e.Confines callee failed i)
    (hentry : previous = none → ∀ v ∈ (e.module.instructions b).head?, ∀ incoming,
      e.module.instruction? v = some (.phi incoming) →
      failed (.phiInEntry (e.module.functionName f)))
    (hprev : ∀ p ∈ previous, p ∈ e.module.predecessors f b) :
    Ends (e.runBlock callee f previous b frame)
      (fun flow => ∀ dest frame, flow = .jump dest frame → dest ∈ e.module.successors b)
      failed := by
  obtain ⟨last, hlast, hplaced⟩ := hv.placed b hb
  have hend : (e.module.instructions b).getLast? = some last := by
    rw [← hlast, ho.instructions_eq]
    exact (ho.code.holds b).last.symm
  refine ends_bind (readPhis_walk (fun v hv i hi => (hl v hv i hi).operand) hentry hprev hplaced
    hend) fun r hr => ?_
  exact runInstructions_walk hplain (fun v hv => hl v (hr.2 hv)) hlast hr.1.1 hr.1.2

theorem runBlocks_walk {o : Order} {fuel : Nat} {previous : Option BlockId}
    (ho : e.module.Ordered o) (hv : e.module.Verified f) (hb : b ∈ e.module.blocksOf f)
    (hcode : ∀ v ∈ e.module.instructionsOf f, ∀ i ∈ e.module.instruction? v,
      e.Confines callee failed i)
    (hentry : previous = none → ∀ v ∈ (e.module.instructions b).head?, ∀ incoming,
      e.module.instruction? v = some (.phi incoming) →
      failed (.phiInEntry (e.module.functionName f)))
    (hprev : ∀ p ∈ previous, p ∈ e.module.predecessors f b) :
    Ends (e.runBlocks callee f fuel previous b frame) (fun _ => True) failed := by
  have block {previous : Option BlockId} {b : BlockId} {frame : Frame}
      (hb : b ∈ e.module.blocksOf f)
      (hentry : previous = none → ∀ v ∈ (e.module.instructions b).head?, ∀ incoming,
        e.module.instruction? v = some (.phi incoming) →
        failed (.phiInEntry (e.module.functionName f)))
      (hprev : ∀ p ∈ previous, p ∈ e.module.predecessors f b) :
      Ends (e.runBlock callee f previous b frame)
        (fun flow => ∀ dest frame, flow = .jump dest frame → dest ∈ e.module.successors b) failed :=
    block_walk hplain ho hv hb (fun v hv => hcode v (List.mem_flatMap.mpr ⟨b, hb, hv⟩)) hentry hprev
  induction fuel generalizing previous b frame with
  | zero =>
    rw [runBlocks_eq]
    refine ends_bind (block hb hentry hprev) fun flow _ => ?_
    cases flow with
    | done result => exact ends_pure trivial
    | jump dest frame => exact ends_throw (hplain _ ⟨rfl, rfl⟩)
  | succ fuel ih =>
    rw [runBlocks_eq]
    refine ends_bind (block hb hentry hprev) fun flow hflow => ?_
    cases flow with
    | done result => exact ends_pure trivial
    | jump dest frame =>
      have hdest := hflow dest frame rfl
      have hin : dest ∈ e.module.blocksOf f := by
        rw [ho.blocksOf_eq]
        exact ho.functionOf?_eq_some.mp (hv.inside b hb dest hdest)
      refine ih hin (by simp) ?_
      rintro p ⟨⟩
      simp [predecessors, hb, hdest]

theorem execute_walk {o : Order} {args : List Datum} (ho : e.module.Ordered o)
    (hv : e.module.Verified f) (hd : e.module.isDeclaration f = false)
    (hcode : ∀ v ∈ e.module.instructionsOf f, ∀ i ∈ e.module.instruction? v,
      e.Confines callee failed i)
    (hentry : ∀ b ∈ e.module.entry? f, ∀ v ∈ (e.module.instructions b).head?, ∀ incoming,
      e.module.instruction? v = some (.phi incoming) →
      failed (.phiInEntry (e.module.functionName f))) :
    Ends (e.execute callee f args) (fun _ => True) failed := by
  have hholds := ho.blocks.holds f
  have hne : o.blocks f ≠ [] := by
    intro hnil
    have hlength : (e.module.function f).chain.length = (o.blocks f).length := hholds.length
    simp [isDeclaration, hlength, hnil] at hd
  obtain ⟨entry, rest, hl⟩ := List.exists_cons_of_ne_nil hne
  have hfirst : e.module.entry? f = some entry := by
    have hfirst := hholds.first
    rw [hl] at hfirst
    exact hfirst
  unfold execute
  rw [hfirst]
  exact runBlocks_walk hplain ho hv (by simp [ho.blocksOf_eq, hl]) hcode
    (fun _ => hentry entry hfirst) (by simp)

/-! ### One call -/

/-- A call to a function that is still there fails as the host or as the body does, one level below. -/
theorem call_walk {fuel : Nat} {args : List Datum} (hr : e.module.isRemoved f = false)
    (hhost : Fault.Ends (e.callHost f args) (fun _ => True) failed)
    (h : ∀ below, fuel = below + 1 → e.module.isDeclaration f = false →
      Ends (e.execute (e.call below) f args) (fun _ => True) failed) :
    Ends (e.call fuel f args) (fun _ => True) failed := by
  unfold call
  simp only [hr, Bool.false_eq_true, if_false]
  split
  · exact ends_ofExcept hhost
  · rename_i hd
    refine ends_bind_any (ends_get fun _ => trivial) fun s => ?_
    split
    · exact ends_throw (hplain _ ⟨rfl, rfl⟩)
    · cases fuel with
      | zero => exact ends_throw (hplain _ ⟨rfl, rfl⟩)
      | succ below => exact ends_nested (h below rfl (by simpa using hd))

end

/-! ### From outside -/

theorem arguments_plainly (f : FunctionId) (params : List TypeId) (args : List Box) :
    Fault.Plainly (e.arguments f params args) := by
  unfold arguments
  refine Fault.plainly_mapM fun p _ => ?_
  dsimp only
  split
  · trivial
  · split
    · trivial
    · exact ⟨⟨rfl, rfl⟩, rfl⟩

/-- A run from outside fails plainly before and behind the call that it is about. -/
theorem runFunction_walk (hplain : ∀ fault, fault.Plain → failed fault)
    (hr : e.module.isRemoved f = false)
    (hcall : ∀ data, Ends (e.call e.limits.callDepth f data) (fun _ => True) failed)
    (args : List Box) : Fault.Ends (e.runFunction f args) (fun _ => True) failed := by
  have plain {α : Type} {r : Except Fault α} (h : Fault.Plainly r) :
      Fault.Ends r (fun _ => True) failed :=
    h.mono (fun _ _ => trivial) fun fault hf => hplain fault hf.1
  unfold runFunction
  simp only [hr, Bool.false_eq_true, if_false]
  have run (params : List TypeId) : Fault.Ends (do
      let data ← e.arguments f params args
      box (← ((e.call e.limits.callDepth f data).run.run e.start).1)) (fun _ => True) failed := by
    rw [Fault.ends_bind]
    refine (plain (arguments_plainly f params args)).mono (fun data _ => ?_) fun _ he => he
    rw [Fault.ends_bind]
    refine (hcall data e.start).mono (fun d _ => ?_) fun _ he => he
    exact plain (box_plainly d)
  split
  · exact run _
  · exact hplain _ ⟨rfl, rfl⟩

end SsaKit.Setting
