import SsaKit.Proofs.Walk

/-! A verified module is run without ever losing control: control stays in blocks of the current
function, on edges that its phis list. -/
namespace SsaKit.Setting

open Run SsaKit.Module

variable {e : Setting} {f : FunctionId} {b : BlockId} {last v : ValueId} {l : List ValueId}
  {afterPhis : Bool} {callee : FunctionId → List Datum → Run Datum}

/-- A fault that breaks control flow only if a host function handed it in. -/
def Blames (e : Setting) (fault : Fault) : Prop :=
  fault.breaksControl = false ∨ ∃ name args, e.host.call name args = .error fault

theorem blames_of_calm {fault : Fault} (h : fault.Calm) : e.Blames fault := .inl h

theorem blames_of_plain (fault : Fault) (h : fault.Plain) : e.Blames fault := .inl h.1

theorem operand_blames (frame : Frame) (v : ValueId) :
    Ends (e.operand frame v) (fun _ => True) e.Blames :=
  (e.operand_tamely frame v).mono (fun _ h => h) fun _ he => blames_of_calm he.1

/-- Calls to functions that are still there only end in faults of the host. -/
def Answers (e : Setting) (callee : FunctionId → List Datum → Run Datum) : Prop :=
  ∀ f args, e.module.isRemoved f = false → Ends (callee f args) (fun _ => True) e.Blames

/-- An instruction of which the callee is still there breaks nothing. -/
theorem Answers.confines {i : Instruction} (hc : e.Answers callee)
    (hr : ∀ g args, i = .call g args → e.module.isRemoved g = false) :
    e.Confines callee e.Blames i where
  operand w _ frame := operand_blames frame w
  call g args hi data := hc g data (hr g args hi)

theorem Answers.confines_placed (hc : e.Answers callee)
    (hp : e.module.Placed f b last afterPhis l) :
    ∀ v ∈ l, ∀ i ∈ e.module.instruction? v, e.Confines callee e.Blames i := by
  intro v hv j hj
  obtain ⟨_, i, hi⟩ := hp.inPlace_of_mem hv
  obtain rfl := Option.some_inj.mp (hi.instruction.symm.trans hj)
  exact hc.confines hi.callee

/-! ### One block -/

/-- The code behind the phis runs to the end of its block and leaves it on one of its edges. -/
theorem runInstructions_ends {frame : Frame} (hc : e.Answers callee)
    (hb : (e.module.block b).chain.last = some last)
    (hp : e.module.Placed f b last false l) (hl : l.getLast? = some last) :
    Ends (e.runInstructions callee f b l frame)
      (fun flow => ∀ dest frame, flow = .jump dest frame → dest ∈ e.module.successors b)
      e.Blames :=
  runInstructions_walk blames_of_plain (hc.confines_placed hp) hb hp hl

/-- On an edge that leads to the block, its phis are read one after the other. -/
theorem readPhis_ends {frame : Frame} {previous : Option BlockId}
    (hprev : ∀ p ∈ previous, p ∈ e.module.predecessors f b)
    (hp : e.module.Placed f b last true l) (hl : l.getLast? = some last) :
    Ends (e.readPhis f b previous frame l)
      (fun r => e.module.Placed f b last false r.2 ∧ r.2.getLast? = some last) e.Blames :=
  (readPhis_walk (fun _ _ _ _ w _ frame => operand_blames frame w)
    (fun _ _ _ _ _ => blames_of_calm rfl) hprev hp hl).mono (fun _ hr => hr.1) fun _ he => he

/-! ### One function -/

/-- Control that enters a block on one of its edges leaves it on another one, or returns. -/
theorem block_ends {o : Order} {previous : Option BlockId} {frame : Frame}
    (ho : e.module.Ordered o) (hc : e.Answers callee) (hv : e.module.Verified f)
    (hb : b ∈ e.module.blocksOf f) (hprev : ∀ p ∈ previous, p ∈ e.module.predecessors f b) :
    Ends (e.runBlock callee f previous b frame)
      (fun flow => ∀ dest frame, flow = .jump dest frame → dest ∈ e.module.successors b)
      e.Blames := by
  obtain ⟨last, _, hplaced⟩ := hv.placed b hb
  exact block_walk blames_of_plain ho hv hb (hc.confines_placed hplaced)
    (fun _ _ _ _ _ => blames_of_calm rfl) hprev

/-- In a verified function every instruction calls what is still there. -/
theorem Answers.confines_verified (hc : e.Answers callee) (hv : e.module.Verified f) :
    ∀ v ∈ e.module.instructionsOf f, ∀ i ∈ e.module.instruction? v,
      e.Confines callee e.Blames i :=
  fun _ hmem _ hi => hc.confines fun _ _ hcall => hv.callee hmem (hcall ▸ hi)

/-! ### All calls -/

/-- Only a function at hand has a body. -/
theorem hasFunction_of_defined (hd : e.module.isDeclaration f = false) :
    f.index < e.module.functions.size := by
  by_contra hn
  have hdefault : e.module.function f = default := by
    simp [function_def, Array.getElem?_eq_none (Nat.le_of_not_lt hn)]
  simp [isDeclaration, hdefault, default] at hd

theorem call_answers {o : Order} (ho : e.module.Ordered o) (hv : e.module.verify = .ok ())
    (fuel : Nat) : e.Answers (e.call fuel) := by
  have hhost := e.callHost_fails (fun fault hf _ => blames_of_plain fault hf)
    fun _ _ _ hf => Or.inr ⟨_, _, hf⟩
  induction fuel with
  | zero => exact fun f args hr => call_walk blames_of_plain hr (hhost f args) fun below hb => by omega
  | succ fuel ih =>
    intro f args hr
    refine call_walk blames_of_plain hr (hhost f args) fun below hb hd => ?_
    obtain rfl : fuel = below := by omega
    have hlive := mem_liveFunctions.mpr ⟨hasFunction_of_defined hd, hr⟩
    have hf := verified_of_verify hv hlive
    exact execute_walk blames_of_plain ho hf hd (ih.confines_verified hf)
      fun _ _ _ _ _ _ => blames_of_calm rfl

theorem runFunction_ends {o : Order} (ho : e.module.Ordered o) (hv : e.module.verify = .ok ())
    (hf : f ∈ e.module.liveFunctions) (args : List Box) :
    Fault.Ends (e.runFunction f args) (fun _ => True) e.Blames := by
  have hr := (mem_liveFunctions.mp hf).2
  exact runFunction_walk blames_of_plain hr (fun data => call_answers ho hv _ f data hr) args

/-- However a function of a verified module is run, no fault of control flow comes up, unless a host
function hands it in. -/
theorem control_kept {m : Module} (h : m.Reachable) (hv : m.verify = .ok ()) (host : Host)
    (limits : Limits) (hf : f ∈ m.liveFunctions) (args : List Box) {fault : Fault}
    (hr : (⟨m, host, limits⟩ : Setting).runFunction f args = .error fault) :
    fault.breaksControl = false ∨ ∃ name boxes, host.call name boxes = .error fault := by
  have hends := runFunction_ends (e := ⟨m, host, limits⟩) h.ordered hv hf args
  rw [hr] at hends
  exact hends

/-- The scaling program stops after one step, by its limit and not by a fault of control flow. -/
theorem scaled_control_kept :
    let e : Setting := { module := scaled.module, limits := { steps := 1 } }
    ∃ fault, e.runFunction ⟨0⟩ [.int 32 5] = .error fault ∧
      (fault.breaksControl = false ∨ ∃ name boxes, e.host.call name boxes = .error fault) := by
  intro e
  have hstop : (match e.runFunction ⟨0⟩ [.int 32 5] with
    | .error fault => fault.isLimit
    | .ok _ => false) = true := by decide +kernel
  cases hr : e.runFunction ⟨0⟩ [.int 32 5] with
  | ok result => simp [hr] at hstop
  | error fault =>
    exact ⟨fault, rfl, control_kept reachable_scaled.module (by decide +kernel) .standard { steps := 1 }
      (by decide +kernel) [.int 32 5] hr⟩

end SsaKit.Setting
