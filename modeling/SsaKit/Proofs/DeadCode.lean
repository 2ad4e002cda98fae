import SsaKit.Proofs.Sparing
import SsaKit.Transform.Pipeline

/-! Removal of dead instructions keeps every result, as long as nothing depends on the numbers of
allocations; only room for undefined values that globals start with may be missed afterwards. -/
namespace SsaKit

open SsaKit.Module

/-- Whether an instruction may order addresses or send them out of the module. -/
def Instruction.exposesPlaces : Instruction → Bool
  | .icmp pred _ _ => ¬ pred.isEquality
  | .call _ _ => true
  | _ => false

namespace Setting

open Run

variable {e e' : Setting} {dead : ValueId → Prop} {f : FunctionId} {b : BlockId}
  {frame frame' : Frame} {σ : Numbering} {s t : Machine} {levels : Nat}
  {previous : Option BlockId} {args args' : List Datum}

/-! ### One block -/

/-- From every point inside a block that control comes to. -/
def EntersDiscreetly (e : Setting) (levels : Nat) (f : FunctionId) (previous : Option BlockId)
    (b : BlockId) (frame : Frame) (s : Machine) : Prop :=
  ∀ p, e.Enters levels f previous b frame s p → e.Discreetly p

theorem EntersDiscreetly.jump {dest : BlockId}
    (h : e.EntersDiscreetly levels f previous b frame s)
    (hr : (e.runBlock (e.call levels) f previous b frame).run.run s =
      (.ok (.jump dest frame'), t)) : e.EntersDiscreetly levels f (some b) dest frame' t := by
  obtain ⟨rest, frame'', s', henters, hrest⟩ := enters_of_runBlock hr
  intro q hq
  exact (h _ henters).step (.jump hrest hq)

namespace Trims

variable (h : e.Trims e' dead)
include h

theorem sameHead (f : FunctionId) : SameHead e e' f where
  name := functionName_of_head (h.erased.head f)
  type := functionType_of_head (h.erased.head f)
  params := params_of_head (h.erased.head f)
  isRemoved := isRemoved_of_head (h.erased.head f)
  isDeclaration := h.erased.isDeclaration_eq h.ordered f
  entry := h.erased.entry?_eq h.ordered f

theorem verifiedIn (hf : f ∈ e.module.liveFunctions) : e.module.Verified f :=
  verified_of_verify h.verified hf

theorem readPhis_eq (l : List ValueId) :
    e'.readPhis f b previous frame l = e.readPhis f b previous frame l :=
  Setting.readPhis_eq (h.sameHead f).name (h.erased.label b)
    (fun _ _ => ⟨trivial, h.erased.label _⟩) fun v _ => h.sameCode v

theorem runInstructions_eq {callee : FunctionId → List Datum → Run Datum} (l : List ValueId) :
    e'.runInstructions callee f b l frame = e.runInstructions callee f b l frame :=
  Setting.runInstructions_eq h.host h.limits h.erased.types (h.sameHead f).name (h.erased.label b)
    (fun _ _ => rfl) fun v _ => h.sameCode v

theorem runBlock_tracks (hk : e.CallsTrack e' levels) (hb : e.Stands f previous b)
    (hc : e.EntersDiscreetly levels f previous b frame s) (hm : e.Mirrors [] σ s t)
    (hframe : frame.Mirrors dead σ.places frame') :
    e.Tracks σ s t (e.runBlock (e.call levels) f previous b frame)
      (e'.runBlock (e'.call levels) f previous b frame')
      fun τ => Flow.Mirrors dead τ.places := by
  obtain ⟨phis, rest, hl, hphis, hrest⟩ := hb.phis h.verified
  have hin : ∀ v ∈ e.module.instructions b, v ∈ e.module.instructionsOf f := fun v hv =>
    List.mem_flatMap.mpr ⟨b, hb.inside, hv⟩
  unfold runBlock
  rw [h.erased.instructions_eq, h.readPhis_eq]
  simp only [h.runInstructions_eq]
  have hread : ∀ v ∈ phis, ¬ dead v → ∀ i, e.module.instruction? v = some i →
      ∀ w ∈ i.operands, e.Follows σ frame frame' w := fun v hv hn i hi =>
    h.follows hb.live (hin v (by simp [hl, hv])) hn hi hframe
  have hmerged := readPhis_tracks (f := f) (b := b) previous hphis hrest hread hm
  rw [← hl] at hmerged
  refine tracks_bind hmerged fun τ r r' s' t' hx hm' hr _ hrr => ?_
  obtain ⟨merged, others⟩ := r
  obtain ⟨merged', others'⟩ := r'
  obtain ⟨rfl, rfl, hmerges⟩ := hrr
  let p : Point := ⟨levels, f, b, others, frame.insertMany merged, s'⟩
  have hp : e.Enters levels f previous b frame s p := ⟨merged, others, s', hr, rfl⟩
  exact h.runInstructions_tracks (p := p) hk (hc p hp) hb.live
    (fun v hv => hin v (hl ▸ List.mem_append_right phis hv)) hm'
    ((hframe.mono hx.places).insertMany hmerges)

/-! ### One call -/

/-- A block that is left stands on an edge of its function. -/
theorem stands_of_jump {dest : BlockId} {flowFrame : Frame} (hb : e.Stands f previous b)
    (hr : (e.runBlock (e.call levels) f previous b frame).run.run s =
      (.ok (.jump dest flowFrame), t)) : e.Stands f (some b) dest := by
  have hends : Fault.Ends ((e.runBlock (e.call levels) f previous b frame).run.run s).1 _ e.Blames :=
    block_ends h.ordered (call_answers h.ordered h.verified levels) (h.verifiedIn hb.live)
      hb.inside hb.edge s
  rw [hr] at hends
  have hdest : dest ∈ e.module.successors b := hends dest flowFrame rfl
  refine ⟨hb.live, ?_, ?_⟩
  · rw [h.ordered.blocksOf_eq]
    exact h.ordered.functionOf?_eq_some.mp
      ((h.verifiedIn hb.live).inside b hb.inside dest hdest)
  · rintro k ⟨⟩
    simp [predecessors, hb.inside, hdest]

/-- Control goes through the same blocks in both runs, one after the other. -/
theorem runBlocks_tracks {fuel : Nat} (hk : e.CallsTrack e' levels) (hb : e.Stands f previous b)
    (hc : e.EntersDiscreetly levels f previous b frame s) (hm : e.Mirrors [] σ s t)
    (hframe : frame.Mirrors dead σ.places frame') :
    e.Tracks σ s t (e.runBlocks (e.call levels) f fuel previous b frame)
      (e'.runBlocks (e'.call levels) f fuel previous b frame')
      fun τ => Datum.Mirrors τ.places := by
  induction fuel generalizing previous b frame frame' σ s t with
  | zero =>
    rw [runBlocks_eq, runBlocks_eq]
    refine tracks_bind (h.runBlock_tracks hk hb hc hm hframe)
      fun τ flow flow' s' t' _ hm' _ _ hflow => ?_
    cases hflow with
    | jump dest _ => exact tracks_throw _
    | done hd => exact tracks_pure hm' hd
  | succ fuel ih =>
    rw [runBlocks_eq, runBlocks_eq]
    refine tracks_bind (h.runBlock_tracks hk hb hc hm hframe)
      fun τ flow flow' s' t' _ hm' hr _ hflow => ?_
    cases hflow with
    | jump dest hframe => exact ih (h.stands_of_jump hb hr) (hc.jump hr) hm' hframe
    | done hd => exact tracks_pure hm' hd

theorem execute_tracks (hk : e.CallsTrack e' levels) (hf : f ∈ e.module.liveFunctions)
    (hc : ∀ entry ∈ e.module.entry? f, e.EntersDiscreetly levels f none entry
      (.ofList ((e.module.params f).zip args)) s) (hm : e.Mirrors [] σ s t)
    (hargs : List.Forall₂ (Datum.Mirrors σ.places) args args') :
    e.Tracks σ s t (e.execute (e.call levels) f args) (e'.execute (e'.call levels) f args')
      fun τ => Datum.Mirrors τ.places := by
  unfold execute
  rw [(h.sameHead f).entry, (h.sameHead f).params, h.limits]
  cases hentry : e.module.entry? f with
  | none => exact tracks_throw _
  | some entry =>
    have hin : entry ∈ e.module.blocksOf f := by
      rw [h.ordered.blocksOf_eq]
      rw [h.ordered.entry?_eq] at hentry
      exact List.mem_of_mem_head? hentry
    exact h.runBlocks_tracks hk ⟨hf, hin, by simp⟩ (hc entry hentry) hm (mirrors_ofList hargs)

/-! ### All calls -/

theorem callHost_eq (args : List Datum) : e'.callHost f args = e.callHost f args := by
  unfold callHost resultType
  rw [(h.sameHead f).name, (h.sameHead f).type, h.erased.types, h.host]

/-- The host does the same for the second run, which leaves both machines alone. -/
theorem host_arrives {d : Datum} (hm : e.Mirrors [] σ s t)
    (hargs : List.Forall₂ (Datum.Mirrors σ.places) args args')
    (hremoved : e.module.isRemoved f = false) (hd : e.module.isDeclaration f = true)
    (hhides : e.Hides f args) (hhost : e.callHost f args = .ok d) :
    e.Arrives [] σ s t (e'.call levels f args') fun τ => Datum.Mirrors τ.places d := by
  have hhead := h.sameHead f
  obtain ⟨d', hd', hmirrors⟩ := callHost_mirrors hargs hhides d hhost
  unfold Arrives
  rw [call_declared (hhead.isRemoved.trans hremoved) (hhead.isDeclaration.trans hd), h.callHost_eq,
    hd']
  exact ⟨σ, .refl σ, hm, hmirrors⟩

theorem calls_track (levels : Nat) : e.CallsTrack e' levels := by
  induction levels with
  | zero =>
    intro f args args' σ s t hm hargs hhides _ d s' hr
    obtain ⟨hremoved, ⟨hd, hhost, rfl⟩ | ⟨-, -, below, hlevels, -⟩⟩ := call_eq_ok hr
    · exact h.host_arrives hm hargs hremoved hd (hhides hd) hhost
    · cases hlevels
  | succ levels ih =>
    intro f args args' σ s t hm hargs hhides hc d s' hr
    obtain ⟨hremoved, ⟨hd, hhost, rfl⟩ | ⟨hd, hdepth, below, hlevels, hrun⟩⟩ := call_eq_ok hr
    · exact h.host_arrives hm hargs hremoved hd (hhides hd) hhost
    · obtain rfl : levels = below := by omega
      have hf : f ∈ e.module.liveFunctions :=
        mem_liveFunctions.mpr ⟨hasFunction_of_defined hd, hremoved⟩
      have htracks : e.Tracks σ s t (nested (e.execute (e.call levels) f args))
          (nested (e'.execute (e'.call levels) f args')) fun τ => Datum.Mirrors τ.places := by
        refine tracks_nested (P := fun places => Datum.Mirrors places) hm
          fun τ s₁ t₁ hplaces hm' hs => ?_
        subst hs
        refine h.execute_tracks ih hf (fun entry hentry p hp => ?_) hm' (hplaces ▸ hargs)
        exact hc p ⟨hremoved, hd, hdepth, levels, entry, rfl, hentry, hp⟩
      have harrives := htracks d s' hrun
      have hhead := h.sameHead f
      unfold Arrives at harrives ⊢
      rwa [call_defined (hhead.isRemoved.trans hremoved) (hhead.isDeclaration.trans hd)
        (by rw [h.limits, hm.depth]; exact hdepth)]

end Trims

/-! ### Whole runs -/

/-- Running a function from outside checks the arguments and calls it in a new machine. -/
theorem runFunction_eq {boxes : List Box} (hr : e.module.isRemoved f = false) :
    (e.module.Takes f boxes.length → e.runFunction f boxes = do
      let data ← e.arguments f (e.module.paramTypes f) boxes
      box (← ((e.call e.limits.callDepth f data).run.run e.start).1)) ∧
    (¬ e.module.Takes f boxes.length → ∃ fault, e.runFunction f boxes = .error fault) := by
  unfold runFunction Takes paramTypes
  rw [if_neg (by simp [hr])]
  dsimp only
  constructor
  · intro ht
    rw [if_pos ht]
  · intro ht
    rw [if_neg ht]
    exact ⟨_, rfl⟩

theorem runFunction_eq_ok {boxes : List Box} {r : Box} (h : e.runFunction f boxes = .ok r) :
    e.module.isRemoved f = false ∧ e.module.Takes f boxes.length ∧ ∃ data d s,
      e.arguments f (e.module.paramTypes f) boxes = .ok data ∧
      (e.call e.limits.callDepth f data).run.run e.start = (.ok d, s) ∧ box d = .ok r := by
  have hremoved : e.module.isRemoved f = false := by
    by_contra hr
    unfold runFunction at h
    rw [if_pos (by simpa using hr)] at h
    cases h
  have htakes : e.module.Takes f boxes.length := by
    by_contra ht
    obtain ⟨fault, hfault⟩ := (runFunction_eq hremoved).2 ht
    rw [hfault] at h
    cases h
  rw [(runFunction_eq hremoved).1 htakes] at h
  refine ⟨hremoved, htakes, ?_⟩
  cases hdata : e.arguments f (e.module.paramTypes f) boxes with
  | error fault =>
    rw [hdata] at h
    cases h
  | ok data =>
    rw [hdata] at h
    rcases hcall : (e.call e.limits.callDepth f data).run.run e.start with ⟨fault | d, s⟩
    · simp only [hcall, bind, Except.bind] at h
      cases h
    · simp only [hcall, bind, Except.bind] at h
      exact ⟨data, d, s, rfl, hcall, h⟩

/-- Nothing in a run depends on the numbers of allocations, from its arguments to its result. -/
structure RunsDiscreetly (e : Setting) (f : FunctionId) (args : List Box) : Prop where
  arguments : ∀ x ∈ args, x.isPointer = false
  points : ∀ p, e.Visits f args p → e.Discreet p
  result : ∀ r, e.runFunction f args = .ok r → r.isPointer = false

theorem discreet_of_code {m : Module} (h : ∀ n < m.values.size,
    ∀ i ∈ m.instruction? ⟨n⟩, i.exposesPlaces = false) {host : Host} {limits : Limits} {p : Point} :
    (⟨m, host, limits⟩ : Setting).Discreet p := by
  have hcode {v : ValueId} {i : Instruction} {s : Machine}
      (hx : (⟨m, host, limits⟩ : Setting).Executes p v i s) : i.exposesPlaces = false :=
    h v.index (has_of_kindOf (by simp [kindOf_of_instruction? hx.2.1])) i hx.2.1
  constructor
  · intro v pred lhs rhs s d s' hx _
    left
    simpa [Instruction.exposesPlaces] using hcode hx
  · intro v g ws s data s' boxes hx
    cases hcode hx

theorem hasPointer_unbox {x : Box} (hx : x.isPointer = false) : (unbox x).hasPointer = false := by
  cases x with
  | pointer address => cases hx
  | _ => rfl

theorem hasPointer_of_arguments {params : List TypeId} {boxes : List Box} {data : List Datum}
    (h : e.arguments f params boxes = .ok data) (hb : ∀ x ∈ boxes, x.isPointer = false) :
    ∀ d ∈ data, d.hasPointer = false := by
  have hall : Fault.Ends (e.arguments f params boxes)
      (List.Forall₂ (fun _ d => d.hasPointer = false) boxes.zipIdx) fun _ => True := by
    unfold arguments
    refine Fault.ends_mapM fun x hx => ?_
    have hplain : x.1.isPointer = false := hb x.1 (List.fst_mem_of_mem_zipIdx hx)
    dsimp only
    split
    · exact hasPointer_unbox hplain
    · split
      · rename_i hd
        exact hasPointer_unboxAs hd hplain
      · trivial
  rw [h] at hall
  intro d hd
  obtain ⟨i, hi⟩ := List.getElem?_of_mem hd
  obtain ⟨x, -, hplain⟩ := Datum.forall₂_lookup hall.flip hi
  exact hplain

/-- The second run returns what the first one does, or it starves. -/
theorem Trims.runFunction_keeps (h : e.Trims e' dead) {boxes : List Box} {r : Box}
    (hd : e.RunsDiscreetly f boxes) (hr : e.runFunction f boxes = .ok r) :
    e'.runFunction f boxes = .ok r ∨
      ∃ fault, e'.runFunction f boxes = .error fault ∧ e.Starves fault := by
  obtain ⟨hremoved, htakes, data, d, s, hdata, hcall, hbox⟩ := runFunction_eq_ok hr
  have hhead := h.sameHead f
  have hplain := hasPointer_of_arguments hdata hd.arguments
  have hself : List.Forall₂ (Datum.Mirrors ([] : List Nat)) data data :=
    List.forall₂_same.mpr fun a ha => .refl (hplain a ha)
  have hresult : d.hasPointer = false := hasPointer_of_box hbox (hd.result r hr)
  have hhides (hdeclared : e.module.isDeclaration f = true) : e.Hides f data := fun d' hd' => by
    rw [call_declared hremoved hdeclared, hd'] at hcall
    obtain ⟨he, -⟩ := Prod.mk.inj hcall
    obtain rfl := Except.ok.inj he
    exact ⟨hplain, hresult⟩
  have harrives := h.calls_track e.limits.callDepth f data data {} e.start e.start
    (mirrors_start e) hself hhides
    (fun p hp q hq => hd.points q ⟨htakes, data, p, hdata, hp, hq⟩) d s hcall
  have hrun : e'.runFunction f boxes =
      ((e'.call e.limits.callDepth f data).run.run e.start).1 >>= box := by
    have htypes : e'.module.types = e.module.types := h.erased.types
    have hparams : e'.module.paramTypes f = e.module.paramTypes f := by
      rw [paramTypes, paramTypes, hhead.type, htypes]
    have htakes' : e'.module.Takes f boxes.length := by
      rw [Takes, hparams, hhead.type, htypes]
      exact htakes
    have hdata' : e'.arguments f (e'.module.paramTypes f) boxes = .ok data := by
      rw [← hdata, hparams, arguments, arguments, htypes, hhead.name]
    have hstart : e'.start = e.start := by rw [start, start, h.limits]
    rw [(runFunction_eq (hhead.isRemoved.trans hremoved)).1 htakes', hdata', h.limits, hstart]
    rfl
  rw [hrun]
  unfold Arrives at harrives
  rcases hcall' : (e'.call e.limits.callDepth f data).run.run e.start with ⟨fault | d', t⟩
  · rw [hcall'] at harrives
    exact .inr ⟨fault, rfl, harrives⟩
  · rw [hcall'] at harrives
    obtain ⟨τ, -, -, hmirrors⟩ := harrives
    rw [hmirrors.eq_of_no_pointer hresult]
    exact .inl hbox

end Setting

/-- Removal of dead instructions comes to its end. For every function, host, limit and argument where
nothing in the run depends on the numbers of allocations, whatever was returned is returned
afterwards, unless room is missed for an undefined value that a global starts with. -/
theorem Module.Reachable.dead_code {m : Module} (h : m.Reachable) (hv : m.verify = .ok ()) :
    ∃ changed m', Pass.dce.run.outcome m = (.ok changed, m') ∧
      ∀ (host : Host) (limits : Limits) f args r,
        (⟨m, host, limits⟩ : Setting).RunsDiscreetly f args →
        (⟨m, host, limits⟩ : Setting).runFunction f args = .ok r →
        (⟨m', host, limits⟩ : Setting).runFunction f args = .ok r ∨
          ∃ fault, (⟨m', host, limits⟩ : Setting).runFunction f args = .error fault ∧
            (⟨m, host, limits⟩ : Setting).Starves fault := by
  obtain ⟨changed, m', hrun, dead, he⟩ := (ends_eraseDead h.ordered).exists_ok
  refine ⟨changed, m', hrun, fun host limits f args r hd hr => ?_⟩
  have htrims : Setting.Trims ⟨m, host, limits⟩ ⟨m', host, limits⟩ dead :=
    ⟨rfl, rfl, he, h.sound, h.grounded, h.ordered, hv⟩
  exact htrims.runFunction_keeps hd hr

theorem Attempt.outcome_get_bind {σ α : Type} {s : σ} (next : σ → Attempt σ α) :
    (get >>= next : Attempt σ α).outcome s = (next s).outcome s := by
  rw [outcome_bind]
  rfl

namespace Transform

/-- What is dead, with what is read in a list, so that it can be evaluated. -/
def unread (m : Module) : List ValueId :=
  (codeOf m).filter fun v =>
    !(readValues m (codeOf m)).contains v && (m.instruction? v).any fun i => !i.hasSideEffects

theorem deadCode_eq_unread (m : Module) : deadCode m = unread m := by
  refine List.filter_congr fun v _ => ?_
  simp [isUseless]

/-- One instruction is all that is dead, before and after its removal. -/
theorem outcome_eraseDead {m t : Module} {v : ValueId} (hv : deadCode m = [v])
    (hs : (eraseInstruction v).outcome m = (.ok (), t)) (ht : deadCode t = []) :
    eraseDead.outcome m = (.ok true, t) := by
  have hrest (fuel : Nat) : (eraseRounds fuel true).outcome t = (.ok true, t) := by
    cases fuel with
    | zero => rfl
    | succ fuel =>
      rw [eraseRounds, Attempt.outcome_get_bind]
      simp [ht]
      rfl
  rw [eraseDead, Attempt.outcome_get_bind, eraseRounds, Attempt.outcome_get_bind]
  simp only [hv, List.isEmpty_cons, Bool.false_eq_true, if_false]
  have hround : ([v].forM eraseInstruction).outcome m = (.ok (), t) := by
    rw [List.forM, Attempt.outcome_bind, hs]
    rfl
  rw [Attempt.outcome_bind, hround]
  exact hrest _

/-- The same, of what can be evaluated. -/
theorem outcome_eraseDead_of_unread {m : Module} {v : ValueId}
    (h : unread m = [v] ∧ ((eraseInstruction v).outcome m).1 = .ok () ∧
      unread ((eraseInstruction v).outcome m).2 = []) :
    eraseDead.outcome m = (.ok true, ((eraseInstruction v).outcome m).2) := by
  obtain ⟨hv, hs, ht⟩ := h
  rw [← deadCode_eq_unread] at hv ht
  exact outcome_eraseDead hv (Prod.ext hs rfl) ht

end Transform

/-- A program that starts a global with an undefined value and reads it twice, once for nothing. -/
def starving : List Call :=
  [.types (.ofType (.int 32)),
    .symbol (.declareFunction "main" ⟨0⟩ [] false),
    .symbol (.addGlobal ⟨0⟩ "g"),
    .constant (.undef ⟨0⟩),
    .symbol (.setInitializer ⟨0⟩ ⟨1⟩),
    .layout (.appendBlock ⟨0⟩ "entry"),
    .setCursor (some { block := ⟨0⟩ }),
    .emission (.load ⟨0⟩),
    .emission (.alloca ⟨0⟩),
    .constant (.integer ⟨0⟩ 0),
    .emission (.store ⟨4⟩ ⟨3⟩),
    .emission (.load ⟨0⟩),
    .emission (.ret ⟨6⟩)]

/-- The builder after those calls. -/
def starved : Builder := Builder.replay { module := { name := "starving" } } starving

theorem reachable_starved : starved.Reachable :=
  Builder.Replays.reachable (by decide +kernel) (Builder.reachable_empty "starving")

/-- The program neither orders addresses nor calls, and returns no address. -/
theorem starved_discreet {limits : Limits} (h : (⟨starved.module, .standard, limits⟩ :
    Setting).runFunction ⟨0⟩ [] = .ok (.int 32 0)) :
    (⟨starved.module, .standard, limits⟩ : Setting).RunsDiscreetly ⟨0⟩ [] := by
  have hcode : ∀ n < starved.module.values.size, ∀ i ∈ starved.module.instruction? ⟨n⟩,
      i.exposesPlaces = false := by decide +kernel
  refine ⟨by simp, fun p _ => Setting.discreet_of_code hcode, fun r hr => ?_⟩
  obtain rfl := Except.ok.inj (h.symm.trans hr)
  rfl

/-- With room for three cells both reads of the global come to its value, and so does the one that
stays. -/
theorem starved_fed : starved.module.Reachable ∧ starved.module.verify = .ok () ∧
    (⟨starved.module, .standard, { cells := 3 }⟩ : Setting).RunsDiscreetly ⟨0⟩ [] ∧
    (⟨starved.module, .standard, { cells := 3 }⟩ : Setting).runFunction ⟨0⟩ [] =
      .ok (.int 32 0) ∧
    ∃ changed m', Pass.dce.run.outcome starved.module = (.ok changed, m') ∧
      ((⟨m', .standard, { cells := 3 }⟩ : Setting).runFunction ⟨0⟩ [] = .ok (.int 32 0) ∨
        ∃ fault, (⟨m', .standard, { cells := 3 }⟩ : Setting).runFunction ⟨0⟩ [] = .error fault ∧
          (⟨starved.module, .standard, { cells := 3 }⟩ : Setting).Starves fault) := by
  have hv : starved.module.verify = .ok () := by decide +kernel
  have hr : (⟨starved.module, .standard, { cells := 3 }⟩ : Setting).runFunction ⟨0⟩ [] =
      .ok (.int 32 0) := by decide +kernel
  have hd := starved_discreet hr
  obtain ⟨changed, m', hrun, hkept⟩ := Module.Reachable.dead_code reachable_starved.module hv
  exact ⟨reachable_starved.module, hv, hd, hr, changed, m', hrun,
    hkept .standard { cells := 3 } ⟨0⟩ [] (.int 32 0) hd hr⟩

/-- The program without its first read of the global. -/
def drained : Module := ((Module.eraseInstruction ⟨2⟩).outcome starved.module).2

/-- With room for two cells the undefined value has found room as long as the global was read before
the slot was made, and finds none when that first read is taken away. -/
theorem starved_out_of_room : starved.module.Reachable ∧ starved.module.verify = .ok () ∧
    (⟨starved.module, .standard, { cells := 2 }⟩ : Setting).RunsDiscreetly ⟨0⟩ [] ∧
    (⟨starved.module, .standard, { cells := 2 }⟩ : Setting).runFunction ⟨0⟩ [] =
      .ok (.int 32 0) ∧
    ∃ changed m', Pass.dce.run.outcome starved.module = (.ok changed, m') ∧
      (⟨m', .standard, { cells := 2 }⟩ : Setting).runFunction ⟨0⟩ [] =
        .error (.memoryLimit 1 "i32" 2) := by
  have hr : (⟨starved.module, .standard, { cells := 2 }⟩ : Setting).runFunction ⟨0⟩ [] =
      .ok (.int 32 0) := by decide +kernel
  exact ⟨reachable_starved.module, by decide +kernel, starved_discreet hr, hr, true, drained,
    Transform.outcome_eraseDead_of_unread (by decide +kernel), by decide +kernel⟩

end SsaKit
