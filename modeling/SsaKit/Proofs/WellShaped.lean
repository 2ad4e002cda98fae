import SsaKit.Proofs.ControlFlow
import SsaKit.Proofs.Returns
import SsaKit.Proofs.ShapedEvaluation
import SsaKit.Proofs.Visit

/-! Calls of certified modules hand back what their functions promise, as long as they execute plain
instructions only. -/
namespace SsaKit

/-- What makes runs of a module well-behaved. -/
structure Module.Certified (m : Module) (o : Order) : Prop where
  sound : m.Sound
  ordered : m.Ordered o
  returns : m.Returns o
  verified : m.verify = .ok ()

theorem Module.Built.certified {m : Module} (h : m.Built) (hv : m.verify = .ok ()) :
    m.Certified m.order := ⟨h.reachable.sound, h.reachable.ordered, h.returns, hv⟩

/-- What a phi takes on an edge is a value of its own type. -/
theorem Module.Sound.lookup_incoming {m : Module} {v value : ValueId} {source : BlockId}
    {incoming : List (BlockId × ValueId)} (hs : m.Sound)
    (hi : m.instruction? v = some (.phi incoming)) (hl : incoming.lookup source = some value) :
    m.values.Has value ∧ m.typeOf value = m.typeOf v := by
  obtain ⟨xs, ys, hxy, -⟩ := List.lookup_eq_some_iff.mp hl
  have hmem : (source, value) ∈ incoming := by simp [hxy]
  refine ⟨hs.operands_has hi value ?_, hs.instructionFits hi (source, value) hmem⟩
  rw [Instruction.operands]
  exact List.mem_map_of_mem hmem

namespace Setting

open Run SsaKit.Module

variable {e : Setting} {o : Order} {p q : Point} {f : FunctionId} {b : BlockId} {v : ValueId}
  {frame : Frame} {s : Machine} {levels : Nat} {previous : Option BlockId}

/-- A fault of shapes only if a host function handed it in. -/
def Excuses (e : Setting) (fault : Fault) : Prop :=
  fault.breaksShape = false ∨ ∃ name args, e.host.call name args = .error fault

/-- From a point on only plain instructions are executed. -/
def Clear (e : Setting) (p : Point) : Prop :=
  ∀ q, Relation.ReflTransGen e.Leads p q → ∀ v i s, e.Executes q v i s → e.module.isPlain v i

theorem Clear.step (h : e.Clear p) (hl : e.Leads p q) : e.Clear q :=
  fun r hr => h r (.head hl hr)

/-- A point in its place: the instructions to come are those at the end of a block of the current
function, and the frame is well-shaped. -/
structure Fits (e : Setting) (p : Point) : Prop where
  live : p.function ∈ e.module.liveFunctions
  inside : p.block ∈ e.module.blocksOf p.function
  placed : ∃ last, (e.module.block p.block).chain.last = some last ∧
    e.module.Placed p.function p.block last false p.pending ∧ p.pending.getLast? = some last
  pending : ∀ v ∈ p.pending, v ∈ e.module.instructions p.block
  frame : e.module.Shapes p.frame

/-- Arguments of the shapes of the parameters. -/
def Passes (e : Setting) (f : FunctionId) (args : List Datum) : Prop :=
  ∀ x ∈ (e.module.params f).zip args, e.module.types.Shape (e.module.typeOf x.1) x.2

/-- Calls with a number of levels below them hand back what their function promises. -/
def Delivers (e : Setting) (levels : Nat) : Prop :=
  ∀ f args s, e.module.isRemoved f = false → e.Passes f args →
    (∀ p, e.Begins levels f args s p → e.Clear p) →
    Fault.Ends ((e.call levels f args).run.run s).1
      (e.module.types.Shape (e.module.resultType f)) e.Excuses

/-! ### One instruction -/

/-- Data that go with the types of some values go with values of the same types. -/
theorem passes_of {P : TypeId → Datum → Prop} {types : List TypeId} {ws vs : List ValueId}
    {data : List Datum} (hv : List.Forall₂ (fun v type => e.module.typeOf v = type) vs types)
    (hw : ∀ x ∈ types.zip ws, e.module.typeOf x.2 = x.1)
    (hd : List.Forall₂ (fun w d => P (e.module.typeOf w) d) ws data) :
    ∀ x ∈ vs.zip data, P (e.module.typeOf x.1) x.2 := by
  induction hv generalizing ws data with
  | nil => simp
  | @cons v type vs types hvt _ ih =>
    cases hd with
    | nil => simp
    | @cons w d ws data hwd hrest =>
      intro x hx
      rcases List.mem_cons.mp hx with rfl | hx
      · have hwt : e.module.typeOf w = type := hw (type, w) (by simp)
        change P (e.module.typeOf v) d
        rw [hvt, ← hwt]
        exact hwd
      · exact ih (fun y hy => hw y (by simp [hy])) hrest x hx

/-- What a call hands over has the types of the parameters, and its result the type of the call. -/
theorem call_types {g : FunctionId} {args : List ValueId} (hs : e.module.Sound)
    (hi : e.module.instruction? v = some (.call g args)) :
    e.module.typeOf v = e.module.resultType g ∧ ∃ types,
      List.Forall₂ (fun w type => e.module.typeOf w = type) (e.module.params g) types ∧
      ∀ x ∈ types.zip args, e.module.typeOf x.2 = x.1 := by
  obtain ⟨hg, htype, params, hparams, -, hargs⟩ := hs.instructionFits hi
  obtain ⟨result, types, isVariadic, he, hvalues⟩ := hs.functions g hg
  obtain rfl : types = params := by simpa [he, Ty.params] using hparams
  exact ⟨htype, types, hvalues.imp fun _ _ h => h.2.1, hargs⟩

theorem operands_pass {g : FunctionId} {args : List ValueId} (hs : e.module.Sound)
    (hf : e.module.Shapes frame) (hi : e.module.instruction? v = some (.call g args)) :
    e.module.typeOf v = e.module.resultType g ∧
      Ends (args.mapM (e.operand frame)) (e.Passes g) Fault.Shapely := by
  obtain ⟨htype, types, hvalues, hargs⟩ := call_types hs hi
  have hoperands : Ends (args.mapM (e.operand frame))
      (List.Forall₂ (fun w d => e.module.types.Shape (e.module.typeOf w) d) args)
      Fault.Shapely :=
    ends_mapM fun w hw => operand_shaped hs hf (hs.operands_has hi w hw)
  refine ⟨htype, hoperands.mono (fun data hdata => ?_) fun _ he => he⟩
  exact passes_of hvalues hargs hdata

/-- The instruction at a point has a result of its type. -/
theorem executes_shaped {i : Instruction} (hm : e.module.Certified o) (hk : e.Delivers p.levels)
    (hc : e.Clear p) (hf : e.Fits p) (hx : e.Executes p v i s)
    (hcallee : ∀ g args, i = .call g args → e.module.isRemoved g = false) :
    Fault.Ends ((e.evaluate (e.call p.levels) p.frame (e.module.typeOf v) i).run.run s).1
      (e.module.types.Shape (e.module.typeOf v)) e.Excuses := by
  have hplain := hc p .refl v i s hx
  have hi := hx.2.1
  by_cases hcall : ∃ g args, i = .call g args
  · obtain ⟨g, args, rfl⟩ := hcall
    obtain ⟨htype, hoperands⟩ := operands_pass hm.sound hf.frame hi
    change Fault.Ends ((args.mapM (e.operand p.frame) >>= e.call p.levels g).run.run s).1 _ _
    rw [run_bind]
    have hread := hoperands s
    rcases hr : (args.mapM (e.operand p.frame)).run.run s with ⟨fault | data, t⟩
    · rw [hr] at hread
      exact .inl hread
    · rw [hr] at hread
      rw [htype]
      exact hk g data t (hcallee g args rfl) hread fun q hq => hc.step (.enter hx hr hq)
  · have hother : ∀ g args, i ≠ .call g args := fun g args he => hcall ⟨g, args, he⟩
    exact (evaluate_shaped hm.sound hf.frame hi hplain hother s).mono (fun _ h => h)
      fun _ he => .inl he

/-- What is left of a point behind its instruction is in its place. -/
theorem Fits.next {i : Instruction} {rest : List ValueId} {d : Datum} {t : Machine}
    (hf : e.Fits p) (hl : p.pending = v :: rest) (hi : e.module.instruction? v = some i)
    (ht : i.isTerminator = false) (hphi : i.isPhi = false)
    (hd : e.module.types.Shape (e.module.typeOf v) d) :
    e.Fits { p with pending := p.pending.tail, frame := p.frame.insert v d, machine := t } := by
  obtain ⟨last, hlast, hplaced, hend⟩ := hf.placed
  rw [hl] at hplaced hend
  cases hplaced with
  | @cons _ _ j _ hj hrest =>
    obtain rfl := Option.some_inj.mp (hi.symm.trans hj.instruction)
    refine ⟨hf.live, hf.inside, ⟨last, hlast, ?_, ?_⟩, fun w hw => ?_, hf.frame.insert hd⟩
    · simpa [hl, hphi] using hrest
    · simpa [hl] using getLast?_of_inPlace hj ht hend
    · exact hf.pending w (List.mem_of_mem_tail hw)

/-! ### One block -/

/-- How a block may be left: with a result of the function, or with a well-shaped frame. -/
def Leaves (e : Setting) (f : FunctionId) : Flow → Prop
  | .done d => e.module.types.Shape (e.module.resultType f) d
  | .jump _ frame => e.module.Shapes frame

theorem returned_shaped (hm : e.module.Certified o) (hf : e.Fits p) (hv : v ∈ p.pending)
    {value : Option ValueId} (hi : e.module.instruction? v = some (.ret value)) :
    e.module.ResultFits p.function (value.map e.module.typeOf) := by
  have hb : p.block ∈ o.blocks p.function := by
    rw [← hm.ordered.blocksOf_eq]
    exact hf.inside
  have hcode : v ∈ o.code p.block := by
    rw [← hm.ordered.instructions_eq]
    exact hf.pending v hv
  refine hm.returns p.function p.block v hb hcode _ ?_
  rw [returned, kindOf_of_instruction? hi]

theorem switchTarget_shaped {word : UInt64} {default : BlockId} {cases : List (ValueId × BlockId)}
    (hs : e.module.Sound) (hf : e.module.Shapes frame)
    (hcases : ∀ k ∈ cases, e.module.values.Has k.1 ∧
      e.module.types.kind (e.module.typeOf k.1) = .integer) :
    Ends (e.switchTarget frame word default cases) (fun _ => True) Fault.Shapely := by
  induction cases with
  | nil => exact ends_pure trivial
  | cons k cases ih =>
    obtain ⟨key, dest⟩ := k
    obtain ⟨⟨hkey, hkind⟩, hcases⟩ := List.forall_mem_cons.mp hcases
    unfold switchTarget
    refine ends_bind (wordOperand_shaped hs hf hkey hkind) fun w _ => ?_
    split
    · exact ends_pure trivial
    · exact ih hcases

theorem runInstructions_shaped (hm : e.module.Certified o) (hk : e.Delivers p.levels)
    (hc : e.Clear p) (hf : e.Fits p) :
    Fault.Ends ((e.runInstructions (e.call p.levels) p.function p.block p.pending p.frame).run.run
      p.machine).1 (e.Leaves p.function) e.Excuses := by
  induction hl : p.pending generalizing p with
  | nil => exact .inl rfl
  | cons v rest ih =>
    have hv : v ∈ p.pending := by simp [hl]
    obtain ⟨last, -, hplaced, -⟩ := hf.placed
    rw [hl] at hplaced
    cases hplaced with
    | @cons _ _ i _ hi _ =>
      have htick := (tick_physically e.limits.steps).tamely p.machine
      have operand {w : ValueId} (hw : w ∈ i.operands) :=
        operand_shaped hm.sound hf.frame (hm.sound.operands_has hi.instruction w hw)
      have shapely {step : Run Flow} (h : Ends step (e.Leaves p.function) Fault.Shapely)
          (s : Machine) : Fault.Ends (step.run.run s).1 (e.Leaves p.function) e.Excuses :=
        (h s).mono (fun _ h => h) fun _ he => .inl he
      rw [runInstructions, run_bind]
      rcases hs : (tick e.limits.steps).run.run p.machine with ⟨fault | ⟨⟩, s⟩
      · rw [hs] at htick
        exact .inl htick.2.1.1
      have hx : e.Executes p v i s := ⟨by simp [hl], hi.instruction, hs⟩
      have go (ht : i.isTerminator = false) (hphi : i.isPhi = false) :
          Fault.Ends ((do
            let d ← e.evaluate (e.call p.levels) p.frame (e.module.typeOf v) i
            e.runInstructions (e.call p.levels) p.function p.block rest
              (p.frame.insert v d)).run.run s).1 (e.Leaves p.function) e.Excuses := by
        have hd := executes_shaped hm hk hc hf hx hi.callee
        rw [run_bind]
        rcases hr : (e.evaluate (e.call p.levels) p.frame (e.module.typeOf v) i).run.run s with
          ⟨fault | d, t⟩
        · rw [hr] at hd
          exact hd
        · rw [hr] at hd
          let next : Point :=
            { p with pending := p.pending.tail, frame := p.frame.insert v d, machine := t }
          exact @ih next hk (hc.step (.next hx hr)) (hf.next hl hi.instruction ht hphi hd)
            (by simp [next, hl])
      dsimp only
      rw [hi.instruction]
      cases i with
      | branch dest => exact hf.frame
      | condBranch cond thenDest elseDest =>
        have hcond : e.module.types.kind (e.module.typeOf cond) = .integer := by
          have hfits := hm.sound.instructionFits hi.instruction
          simp [TypeTable.kind, hfits.1, Ty.kind]
        refine shapely (ends_bind (operand (by simp [Instruction.operands])) fun d hd => ?_) s
        refine ends_bind (ends_ofExcept (Datum.ends_asBool hd hcond)) fun taken _ => ?_
        exact ends_pure hf.frame
      | switch value default cases =>
        obtain ⟨hkind, hkeys, -⟩ := hm.sound.instructionFits hi.instruction
        have hhas := hm.sound.operands_has hi.instruction
        have hvalue : value ∈ (Instruction.switch value default cases).operands := by
          simp [Instruction.operands]
        have hkey : ∀ k ∈ cases, k.1 ∈ (Instruction.switch value default cases).operands := by
          intro k hk
          rw [Instruction.operands]
          exact List.mem_cons_of_mem _ (List.mem_map_of_mem hk)
        have hcases : ∀ k ∈ cases, e.module.values.Has k.1 ∧
            e.module.types.kind (e.module.typeOf k.1) = .integer := fun k hk =>
          ⟨hhas k.1 (hkey k hk), hkeys k hk ▸ hkind⟩
        refine shapely (ends_bind (wordOperand_shaped hm.sound hf.frame (hhas value hvalue) hkind)
          fun word _ => ?_) s
        refine ends_bind (switchTarget_shaped hm.sound hf.frame hcases) fun dest _ => ?_
        exact ends_pure hf.frame
      | ret value =>
        have hfits := returned_shaped hm hf hv hi.instruction
        cases value with
        | none => exact hfits.2
        | some value =>
          refine shapely (ends_bind (operand (by simp [Instruction.operands])) fun d hd => ?_) s
          refine ends_pure ?_
          have htype : e.module.typeOf value = e.module.resultType p.function := hfits
          change e.module.types.Shape (e.module.resultType p.function) d
          rw [← htype]
          exact hd
      | unreachable => exact .inl rfl
      | phi incoming => exact .inl rfl
      | _ => exact go rfl rfl

theorem readPhis_shaped (hs : e.module.Sound) (hf : e.module.Shapes frame) (f : FunctionId)
    (b : BlockId) (previous : Option BlockId) (l : List ValueId) :
    Ends (e.readPhis f b previous frame l)
      (fun r => (∀ x ∈ r.1, e.module.types.Shape (e.module.typeOf x.1) x.2) ∧ ∀ v ∈ r.2, v ∈ l)
      Fault.Shapely := by
  induction l with
  | nil => exact ends_pure ⟨by simp, by simp⟩
  | cons v l ih =>
    by_cases hphi : ∃ incoming, e.module.instruction? v = some (.phi incoming)
    · obtain ⟨incoming, hi⟩ := hphi
      have hread : Ends (e.readPhi f b previous frame v incoming)
          (fun x => e.module.types.Shape (e.module.typeOf x.1) x.2) Fault.Shapely := by
        unfold readPhi
        split
        · exact ends_throw rfl
        · rename_i source
          cases hl : incoming.lookup source with
          | none => exact ends_throw rfl
          | some value =>
            obtain ⟨hhas, htype⟩ := hs.lookup_incoming hi hl
            refine ends_bind (operand_shaped hs hf hhas) fun d hd => ends_pure ?_
            rw [← htype]
            exact hd
      rw [readPhis_phi e hi]
      refine ends_bind hread fun x hx => ends_bind ih fun r hr => ends_pure ⟨?_, fun w hw => ?_⟩
      · exact List.forall_mem_cons.mpr ⟨hx, hr.1⟩
      · exact List.mem_cons_of_mem _ (hr.2 w hw)
    · rw [readPhis_stop e (head_not_phi hphi)]
      exact ends_pure ⟨by simp, fun _ hw => hw⟩

/-- A block that control comes to, on one of its edges and with a well-shaped frame. -/
structure Admits (e : Setting) (f : FunctionId) (previous : Option BlockId) (b : BlockId)
    (frame : Frame) : Prop where
  live : f ∈ e.module.liveFunctions
  inside : b ∈ e.module.blocksOf f
  edge : ∀ k ∈ previous, k ∈ e.module.predecessors f b
  frame : e.module.Shapes frame

theorem Admits.fits (h : e.Admits f previous b frame) (hm : e.module.Certified o)
    (he : e.Enters levels f previous b frame s p) : e.Fits p := by
  obtain ⟨merged, rest, t, hr, rfl⟩ := he
  obtain ⟨last, hlast, hplaced⟩ := (verified_of_verify hm.verified h.live).placed b h.inside
  have hl : (e.module.instructions b).getLast? = some last := by
    rw [← hlast, hm.ordered.instructions_eq]
    exact (hm.ordered.code.holds b).last.symm
  have hphis : Fault.Ends
      ((e.readPhis f b previous frame (e.module.instructions b)).run.run s).1
      (fun r => e.module.Placed f b last false r.2 ∧ r.2.getLast? = some last) e.Blames :=
    readPhis_ends h.edge hplaced hl s
  have hshapes := readPhis_shaped hm.sound h.frame f b previous (e.module.instructions b) s
  rw [hr] at hphis hshapes
  exact ⟨h.live, h.inside, ⟨last, hlast, hphis⟩, hshapes.2, h.frame.insertMany hshapes.1⟩

/-- An edge that is taken at the end of a block leads to a block of the same function. -/
theorem Fits.jumps {dest : BlockId} {t : Machine} (hf : e.Fits p) (hm : e.module.Certified o)
    (hr : (e.runInstructions (e.call p.levels) p.function p.block p.pending p.frame).run.run
      p.machine = (.ok (.jump dest frame), t)) :
    dest ∈ e.module.blocksOf p.function ∧ p.block ∈ e.module.predecessors p.function dest := by
  have hverified := verified_of_verify hm.verified hf.live
  obtain ⟨last, hlast, hplaced, hend⟩ := hf.placed
  have hedge : Fault.Ends ((e.runInstructions (e.call p.levels) p.function p.block p.pending
      p.frame).run.run p.machine).1
      (fun flow => ∀ dest frame, flow = .jump dest frame → dest ∈ e.module.successors p.block)
      e.Blames :=
    runInstructions_ends (call_answers hm.ordered hm.verified p.levels) hlast hplaced hend p.machine
  rw [hr] at hedge
  have hdest : dest ∈ e.module.successors p.block := hedge dest frame rfl
  refine ⟨?_, by simp [predecessors, hf.inside, hdest]⟩
  rw [hm.ordered.blocksOf_eq]
  exact hm.ordered.functionOf?_eq_some.mp (hverified.inside p.block hf.inside dest hdest)

theorem Fits.admits {dest : BlockId} {t : Machine} (hf : e.Fits p) (hm : e.module.Certified o)
    (hframe : e.module.Shapes frame)
    (hr : (e.runInstructions (e.call p.levels) p.function p.block p.pending p.frame).run.run
      p.machine = (.ok (.jump dest frame), t)) :
    e.Admits p.function (some p.block) dest frame := by
  obtain ⟨hinside, hedge⟩ := hf.jumps hm hr
  exact ⟨hf.live, hinside, fun k hk => Option.mem_some_iff.mp hk ▸ hedge, hframe⟩

/-! ### One call -/

/-- A block that control comes to fails, returns, or is left on one of its edges. -/
theorem runBlock_shaped (hm : e.module.Certified o) (hk : e.Delivers levels)
    (h : e.Admits f previous b frame)
    (hc : ∀ p, e.Enters levels f previous b frame s p → e.Clear p) :
    match (e.runBlock (e.call levels) f previous b frame).run.run s with
    | (.error fault, _) => e.Excuses fault
    | (.ok (.done d), _) => e.module.types.Shape (e.module.resultType f) d
    | (.ok (.jump dest frame), t) => e.Admits f (some b) dest frame ∧
        ∀ q, e.Enters levels f (some b) dest frame t q → e.Clear q := by
  have hread := readPhis_shaped hm.sound h.frame f b previous (e.module.instructions b) s
  unfold runBlock
  rw [run_bind]
  rcases hr : (e.readPhis f b previous frame (e.module.instructions b)).run.run s with
    ⟨fault | ⟨merged, rest⟩, t⟩
  · rw [hr] at hread
    exact .inl hread
  let p : Point := ⟨levels, f, b, rest, frame.insertMany merged, t⟩
  have hp : e.Enters levels f previous b frame s p := ⟨merged, rest, t, hr, rfl⟩
  have hfits := h.fits hm hp
  have hclear := hc p hp
  have hshaped := runInstructions_shaped hm hk hclear hfits
  change match (e.runInstructions (e.call p.levels) p.function p.block p.pending p.frame).run.run
    p.machine with
    | (.error fault, _) => e.Excuses fault
    | (.ok (.done d), _) => e.module.types.Shape (e.module.resultType f) d
    | (.ok (.jump dest frame), t) => e.Admits f (some b) dest frame ∧
        ∀ q, e.Enters levels f (some b) dest frame t q → e.Clear q
  rcases hflow : (e.runInstructions (e.call p.levels) p.function p.block p.pending p.frame).run.run
    p.machine with ⟨fault | flow, t⟩
  · rw [hflow] at hshaped
    exact hshaped
  · rw [hflow] at hshaped
    cases flow with
    | done d => exact hshaped
    | jump dest frame =>
      exact ⟨hfits.admits hm hshaped hflow, fun q hq => hclear.step (.jump hflow hq)⟩

theorem runBlocks_shaped {fuel : Nat} (hm : e.module.Certified o) (hk : e.Delivers levels)
    (h : e.Admits f previous b frame)
    (hc : ∀ p, e.Enters levels f previous b frame s p → e.Clear p) :
    Fault.Ends ((e.runBlocks (e.call levels) f fuel previous b frame).run.run s).1
      (e.module.types.Shape (e.module.resultType f)) e.Excuses := by
  induction fuel generalizing previous b frame s with
  | zero =>
    have hblock := runBlock_shaped hm hk h hc
    rw [runBlocks_eq, run_bind]
    rcases hr : (e.runBlock (e.call levels) f previous b frame).run.run s with
      ⟨fault | flow, t⟩
    · rw [hr] at hblock
      exact hblock
    · rw [hr] at hblock
      cases flow with
      | done d => exact hblock
      | jump dest frame => exact .inl rfl
  | succ fuel ih =>
    have hblock := runBlock_shaped hm hk h hc
    rw [runBlocks_eq, run_bind]
    rcases hr : (e.runBlock (e.call levels) f previous b frame).run.run s with
      ⟨fault | flow, t⟩
    · rw [hr] at hblock
      exact hblock
    · rw [hr] at hblock
      cases flow with
      | done d => exact hblock
      | jump dest frame => exact ih hblock.1 hblock.2

/-! ### All calls -/

/-- A call of a function with a body comes to its entry well-shaped. -/
theorem admits_entry {entry : BlockId} {args : List Datum} (hm : e.module.Certified o)
    (hr : e.module.isRemoved f = false) (hd : e.module.isDeclaration f = false)
    (hentry : e.module.entry? f = some entry) (ha : e.Passes f args) :
    e.Admits f none entry (.ofList ((e.module.params f).zip args)) := by
  have hf : f.index < e.module.functions.size := by
    by_contra hn
    have hdefault : e.module.function f = default := by
      simp [function_def, Array.getElem?_eq_none (Nat.le_of_not_lt hn)]
    simp [isDeclaration, hdefault, default] at hd
  have hfirst : (o.blocks f).head? = some entry := by
    rw [← hentry]
    exact (hm.ordered.blocks.holds f).first.symm
  refine ⟨mem_liveFunctions.mpr ⟨hf, hr⟩, ?_, by simp, ?_⟩
  · rw [hm.ordered.blocksOf_eq]
    exact List.mem_of_mem_head? hfirst
  · exact Frame.forall_ofList (P := fun v => e.module.types.Shape (e.module.typeOf v)) ha

theorem unboxAs_shaped {t : TypeTable} {type : TypeId} {box : Box} {d : Datum}
    (h : unboxAs t type box = some d) : t.Shape type d := by
  unfold unboxAs at h
  split at h
  · rename_i bits word he
    obtain rfl := Option.some_inj.mp h
    exact TypeTable.shape_masked he
  · rename_i he
    obtain rfl := Option.some_inj.mp h
    exact he
  · rename_i he
    obtain rfl := Option.some_inj.mp h
    exact he
  · rename_i he
    obtain rfl := Option.some_inj.mp h
    exact he
  · rename_i he
    obtain rfl := Option.some_inj.mp h
    exact he
  · rename_i he
    obtain rfl := Option.some_inj.mp h
    simp [TypeTable.Shape, TypeTable.kind, he, Ty.kind]
  · rename_i he
    obtain rfl := Option.some_inj.mp h
    exact he
  · cases h

theorem box_shapely (d : Datum) : Fault.Ends (box d) (fun _ => True) Fault.Shapely := by
  cases d <;> trivial

theorem callHost_shaped (f : FunctionId) (args : List Datum) :
    Fault.Ends (e.callHost f args) (e.module.types.Shape (e.module.resultType f)) e.Excuses := by
  unfold callHost
  rw [Fault.ends_bind]
  refine (Fault.ends_mapM fun d _ => box_shapely d).mono (fun boxes _ => ?_) fun _ he => .inl he
  rw [Fault.ends_bind]
  cases hr : e.host.call (e.module.functionName f) boxes with
  | error fault => exact .inr ⟨_, _, hr⟩
  | ok result =>
    rw [Fault.ends_ok]
    dsimp only
    split
    · rename_i d hd
      exact unboxAs_shaped hd
    · exact .inl rfl

theorem call_shaped {args : List Datum} (hm : e.module.Certified o)
    (h : ∀ below, levels = below + 1 → e.Delivers below) (hr : e.module.isRemoved f = false)
    (ha : e.Passes f args) (hc : ∀ p, e.Begins levels f args s p → e.Clear p) :
    Fault.Ends ((e.call levels f args).run.run s).1
      (e.module.types.Shape (e.module.resultType f)) e.Excuses := by
  rw [call_run, if_neg (by simp [hr])]
  split
  · exact callHost_shaped f args
  · rename_i hd
    have hd : e.module.isDeclaration f = false := by simpa using hd
    split
    · exact .inl rfl
    · rename_i hdepth
      cases levels with
      | zero => exact .inl rfl
      | succ below =>
        change Fault.Ends ((e.execute (e.call below) f args).run.run
          { s with depth := s.depth + 1 }).1 _ _
        unfold execute
        cases hentry : e.module.entry? f with
        | none => exact .inl rfl
        | some entry =>
          refine runBlocks_shaped hm (h below rfl) (admits_entry hm hr hd hentry ha) fun p hp => ?_
          exact hc p ⟨hr, hd, Nat.lt_of_not_le hdepth, below, entry, rfl, hentry, hp⟩

/-- Every call hands back what its function promises. -/
theorem delivers (hm : e.module.Certified o) (levels : Nat) : e.Delivers levels := by
  induction levels with
  | zero => exact fun f args s hr ha hc => call_shaped hm (fun below hb => by omega) hr ha hc
  | succ levels ih =>
    intro f args s hr ha hc
    refine call_shaped hm (fun below hb => ?_) hr ha hc
    obtain rfl : levels = below := by omega
    exact ih

end Setting
end SsaKit
