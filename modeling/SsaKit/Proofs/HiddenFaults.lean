import SsaKit.Proofs.DeadCode
import SsaKit.Proofs.Echoing

/-! Removal of dead instructions hides the faults that these raise, and no other ones, as long as
nothing depends on the numbers of allocations. -/
namespace SsaKit

section

variable {dead : ValueId → Prop} {places : List Nat} {frame frame' : Frame} {v : ValueId}
  {d d' : Datum} {l l' : List (ValueId × Datum)}

theorem Frame.Covers.insert (h : frame.Covers frame') :
    Frame.Covers (frame.insert v d) (frame'.insert v d') := by
  intro w hw
  rw [getElem?_insert] at hw ⊢
  split at hw
  · cases hw
  · rename_i hne
    rw [if_neg hne, h w hw]

theorem Frame.Covers.insert_left (h : frame.Covers frame') :
    Frame.Covers (frame.insert v d) frame' := by
  intro w hw
  rw [getElem?_insert] at hw
  split at hw
  · cases hw
  · exact h w hw

theorem Frame.Covers.insertMany (h : frame.Covers frame') (hl : Merges dead places l l') :
    Frame.Covers (frame.insertMany l) (frame'.insertMany l') := by
  induction hl generalizing frame frame' with
  | nil => simpa using h
  | dead _ _ ih =>
    rw [Std.TreeMap.insertMany_cons]
    exact ih h.insert_left
  | live _ _ ih =>
    rw [Std.TreeMap.insertMany_cons, Std.TreeMap.insertMany_cons]
    exact ih h.insert

/-- Arguments that go together are held by the same names. -/
theorem covers_ofList {vs : List ValueId} {ds ds' : List Datum}
    (h : List.Forall₂ (Datum.Mirrors places) ds ds') :
    Frame.Covers (Std.TreeMap.ofList (vs.zip ds)) (Std.TreeMap.ofList (vs.zip ds')) := by
  rw [Std.TreeMap.ofList_eq_insertMany_empty, Std.TreeMap.ofList_eq_insertMany_empty]
  have hempty : Frame.Covers {} {} := fun _ h => h
  have hmerges : Merges (fun _ => False) places (vs.zip ds) (vs.zip ds') := by
    induction h generalizing vs with
    | nil => simpa using .nil
    | cons hd _ ih =>
      cases vs with
      | nil => exact .nil
      | cons v vs => exact .live hd ih
  exact hempty.insertMany hmerges

/-- Ways out of a block where the first frame has all that the second one has. -/
def Flow.Covers : Flow → Flow → Prop
  | .jump _ frame, .jump _ frame' => frame.Covers frame'
  | _, _ => True

end

/-- An edge that control is on: what it comes from, the block that it leads to, what the current call
has computed, and how many levels of calls are left below it. -/
structure Edge where
  levels : Nat
  function : FunctionId
  previous : Option BlockId
  block : BlockId
  frame : Frame
  machine : Machine

namespace Setting

open Run SsaKit.Module

variable {e e' : Setting} {dead : ValueId → Prop} {excused : Fault → Prop} {f : FunctionId}
  {b : BlockId} {frame frame' : Frame} {σ : Numbering} {s t : Machine} {levels : Nat} {v : ValueId}
  {previous : Option BlockId} {args args' : List Datum} {boxes : List Box} {p : Point} {k : Edge}

/-! ### Faults of dead instructions -/

/-- A call of a function with a body goes to its entry. -/
def Opens (e : Setting) (levels : Nat) (f : FunctionId) (args : List Datum) (s : Machine)
    (k : Edge) : Prop :=
  e.module.isRemoved f = false ∧ e.module.isDeclaration f = false ∧
    s.depth < e.limits.callDepth ∧ ∃ below entry, levels = below + 1 ∧
      e.module.entry? f = some entry ∧
      k = ⟨below, f, none, entry, .ofList ((e.module.params f).zip args),
        { s with depth := s.depth + 1 }⟩

/-- The edge that control takes from a point, out of its block or into a function. -/
inductive Turns (e : Setting) (p : Point) : Edge → Prop
  | jump {dest : BlockId} {frame : Frame} {s : Machine} :
    (e.runInstructions (e.call p.levels) p.function p.block p.pending p.frame).run.run p.machine =
      (.ok (.jump dest frame), s) →
    Turns e p ⟨p.levels, p.function, some p.block, dest, frame, s⟩
  | enter {v : ValueId} {callee : FunctionId} {args : List ValueId} {data : List Datum}
    {s t : Machine} {k : Edge} : e.Executes p v (.call callee args) s →
    (args.mapM (e.operand p.frame)).run.run s = (.ok data, t) →
    e.Opens p.levels callee data t k → Turns e p k

/-- The edges that running a function comes by. -/
def Approaches (e : Setting) (f : FunctionId) (boxes : List Box) (k : Edge) : Prop :=
  (e.module.Takes f boxes.length ∧ ∃ data, e.arguments f (e.module.paramTypes f) boxes = .ok data ∧
    e.Opens e.limits.callDepth f data e.start k) ∨ ∃ p, e.Visits f boxes p ∧ e.Turns p k

/-- Running a function comes to an instruction, which raises a fault: among those behind the phis of
a block, or as a phi on an edge to it. -/
inductive Raises (e : Setting) (f : FunctionId) (boxes : List Box) (v : ValueId) (fault : Fault) :
    Prop
  | inside {p : Point} {i : Instruction} {s t : Machine} : e.Visits f boxes p →
    e.Executes p v i s →
    (e.evaluate (e.call p.levels) p.frame (e.module.typeOf v) i).run.run s = (.error fault, t) →
    Raises e f boxes v fault
  | phi {k : Edge} {incoming : List (BlockId × ValueId)} {s t : Machine} :
    e.Approaches f boxes k → v ∈ e.module.instructions k.block →
    e.module.instruction? v = some (.phi incoming) → e.Widens k.machine s →
    (e.readPhi k.function k.block k.previous k.frame v incoming).run.run s = (.error fault, t) →
    Raises e f boxes v fault

theorem Visits.points (h : e.Visits f boxes p) (hd : e.RunsDiscreetly f boxes) : e.Discreetly p := by
  obtain ⟨htakes, data, start, hdata, hbegins, hreaches⟩ := h
  exact fun q hq => hd.points q ⟨htakes, data, start, hdata, hbegins, hreaches.trans hq⟩

/-- Behind the phis on an edge. -/
theorem Approaches.enters (h : e.Approaches f boxes k)
    (he : e.Enters k.levels k.function k.previous k.block k.frame k.machine p) :
    e.Visits f boxes p := by
  have begins {levels : Nat} {g : FunctionId} {data : List Datum} {s : Machine}
      (ho : e.Opens levels g data s k) : e.Begins levels g data s p := by
    obtain ⟨hr, hd, hdepth, below, entry, rfl, hentry, rfl⟩ := ho
    exact ⟨hr, hd, hdepth, below, entry, rfl, hentry, he⟩
  rcases h with ⟨htakes, data, hdata, ho⟩ | ⟨q, hq, hturns⟩
  · exact ⟨htakes, data, p, hdata, begins ho, .refl⟩
  · cases hturns with
    | jump hr => exact hq.leads (.jump hr he)
    | enter hx hr ho => exact hq.leads (.enter hx hr (begins ho))

theorem Approaches.discreetly (h : e.Approaches f boxes k) (hd : e.RunsDiscreetly f boxes) :
    e.EntersDiscreetly k.levels k.function k.previous k.block k.frame k.machine :=
  fun _ hp => (h.enters hp).points hd

/-! ### One block -/

theorem readPhi_echoes {incoming : List (BlockId × ValueId)}
    (hi : ∀ w ∈ (Instruction.phi incoming).operands, e.Shares excused σ frame frame' w)
    (hm : e.Mirrors [] σ s t) :
    Echo excused s t (e.readPhi f b previous frame v incoming)
      (e.readPhi f b previous frame' v incoming) := by
  unfold readPhi
  cases previous with
  | none => exact echoes_throw _
  | some source =>
    dsimp only
    cases hl : incoming.lookup source with
    | none => exact echoes_throw _
    | some w =>
      have hw := hi w (List.mem_map_of_mem (mem_of_lookup hl))
      exact (hw.operand hm).map _ _

open Classical in
/-- The phis at the head of a block fail in both runs, but for those that are dead. -/
theorem readPhis_echoes (previous : Option BlockId) {phis rest : List ValueId}
    (hphis : ∀ v ∈ phis, ∃ incoming, e.module.instruction? v = some (.phi incoming))
    (hrest : ∀ v ∈ rest, ∀ i ∈ e.module.instruction? v, i.isPhi = false)
    (hread : ∀ v ∈ phis, ¬ dead v → ∀ i, e.module.instruction? v = some i → ∀ w ∈ i.operands,
      e.Shares excused σ frame frame' w) (hm : e.Mirrors [] σ s t)
    (hdead : ∀ v ∈ phis, dead v → ∀ incoming s₁ fault s₂,
      e.module.instruction? v = some (.phi incoming) → e.Widens s s₁ →
      (e.readPhi f b previous frame v incoming).run.run s₁ = (.error fault, s₂) → excused fault) :
    Echo excused s t (e.readPhis f b previous frame (phis ++ rest))
      (e.readPhis f b previous frame' ((phis ++ rest).filter fun v => ¬ dead v)) := by
  induction phis generalizing σ s t with
  | nil =>
    have hhead : ∀ v ∈ rest.head?, ∀ i ∈ e.module.instruction? v, i.isPhi = false := fun v hv =>
      hrest v (List.mem_of_mem_head? hv)
    rw [List.nil_append, readPhis_stop e hhead]
    exact echo_succeeded rfl
  | cons v phis ih =>
    obtain ⟨incoming, hi⟩ := hphis v (by simp)
    have later {σ' : Numbering} {s' t' : Machine} (hx : σ.Extends σ') (hm : e.Mirrors [] σ' s' t')
        (hw : e.Widens s s') : Echo excused s' t' (e.readPhis f b previous frame (phis ++ rest))
          (e.readPhis f b previous frame' ((phis ++ rest).filter fun v => ¬ dead v)) :=
      ih (fun w hw => hphis w (by simp [hw]))
        (fun w hw hn i hi u hu => (hread w (by simp [hw]) hn i hi u hu).mono hx) hm
        fun w hw' hd incoming s₁ fault s₂ hi hw₁ =>
          hdead w (by simp [hw']) hd incoming s₁ fault s₂ hi (hw.trans hw₁)
    rw [List.cons_append, readPhis_phi e hi]
    by_cases hd : dead v
    · rw [List.filter_cons_of_neg (by simpa using hd)]
      refine echoes_left hm readPhi_widens (fun fault s' hr => .inr ?_) fun x s' hm' hr _ => ?_
      · exact hdead v (by simp) hd incoming s fault s' hi (.refl e s) hr
      · have hw := (readPhi_widens x s' hr).1
        exact (later (.refl σ) hm' hw).map_left _
    · rw [List.filter_cons_of_pos (by simpa using hd), readPhis_phi e hi]
      have hlive := hread v (by simp) hd _ hi
      refine echoes_bind (readPhi_tracks (fun w hw => (hlive w hw).follows) hm)
        (readPhi_echoes hlive hm) fun τ x x' s' t' hx hm' hr _ _ _ => ?_
      exact (later hx hm' (readPhi_widens x s' hr).1).map _ _

/-- The faults that dead instructions raise when a function runs. -/
def Hidden (e : Setting) (dead : ValueId → Prop) (f : FunctionId) (boxes : List Box)
    (fault : Fault) : Prop :=
  ∃ v, dead v ∧ e.Raises f boxes v fault

/-- Calls with a number of levels below them fail in both runs. -/
def CallsEcho (e e' : Setting) (dead : ValueId → Prop) (f : FunctionId) (boxes : List Box)
    (levels : Nat) : Prop :=
  ∀ g args args' σ s t, e.Mirrors [] σ s t → List.Forall₂ (Datum.Mirrors σ.places) args args' →
    (e.module.isDeclaration g → ∀ shown, args.mapM box = .ok shown →
      ∀ d ∈ args, d.hasPointer = false) →
    (∀ k, e.Opens levels g args s k → e.Approaches f boxes k) →
    Echo (e.Hidden dead f boxes) s t (e.call levels g args) (e'.call levels g args')

theorem box_mirrors {places : List Nat} {d d' : Datum} (h : d.Mirrors places d') :
    Fault.Entails (box d) (box d') fun _ _ => True := by
  cases h with
  | aggregate _ => exact Fault.entails_error _ _
  | _ => exact Fault.entails_ok trivial

/-- What comes from the host may go back to it. -/
theorem box_of_callHost {g : FunctionId} {d : Datum} (h : e.callHost g args = .ok d) :
    ∃ x, box d = .ok x := by
  obtain ⟨-, r, -, -, hd⟩ := callHost_eq_ok h
  unfold unboxAs at hd
  split at hd <;> cases hd <;> exact ⟨_, rfl⟩

theorem overrun_of_tick {limit : Nat} {fault : Fault}
    (h : (tick limit).run.run s = (.error fault, t)) : fault.isOverrun := by
  rw [tick_run] at h
  split at h
  · cases h
    rfl
  · cases h

theorem executes_echoes {type : TypeId} {i : Instruction}
    (hk : e.CallsEcho e' dead f boxes p.levels) (hv : e.Visits f boxes p)
    (hd : e.RunsDiscreetly f boxes) (hx : e.Executes p v i s) (hm : e.Mirrors [] σ s t)
    (hi : ∀ w ∈ i.operands, e.Shares (e.Hidden dead f boxes) σ p.frame frame' w) :
    Echo (e.Hidden dead f boxes) s t (e.evaluate (e.call p.levels) p.frame type i)
      (e.evaluate (e'.call p.levels) frame' type i) := by
  have hdiscreet := hd.points p hv
  refine evaluate_echoes hi hm (fun pred lhs rhs he d s' hr => ?_)
    fun g args he data s' hr τ t' data' _ hm' hd' => ?_
  · subst he
    exact hdiscreet.compares v pred lhs rhs s d s' hx hr
  · subst he
    exact hk g data data' τ s' t' hm' hd'
      (fun hg shown hshown => hasPointer_of_boxes hshown
        (hdiscreet.border v g args s data s' shown hx hr hg hshown).1)
      fun k ho => .inr ⟨p, hv, .enter hx hr ho⟩

namespace Trims

variable (h : e.Trims e' dead)
include h

/-- Instructions that stay read nothing that is dead. -/
theorem shares {g : FunctionId} {i : Instruction} (hf : g ∈ e.module.liveFunctions)
    (hv : v ∈ e.module.instructionsOf g) (hn : ¬ dead v) (hi : e.module.instruction? v = some i)
    (hm : frame.Mirrors dead σ.places frame') (hc : frame.Covers frame') :
    ∀ w ∈ i.operands, e.Shares excused σ frame frame' w :=
  fun w hw => shares_of_frames h.sound h.grounded hm hc (h.sound.operands_has hi w hw)
    (h.erased.unread g hf v hv hn w (mem_readOf.mpr ⟨i, hi, hw⟩))

open Classical in
/-- Behind the phis of a block. The induction is on the instructions to come: a dead one has an excuse
where it fails, each of the others fails in both runs. -/
theorem runInstructions_echoes (hk : e.CallsEcho e' dead f boxes p.levels)
    (hkt : e.CallsTrack e' p.levels) (hd : e.RunsDiscreetly f boxes) (hv : e.Visits f boxes p)
    (hf : p.function ∈ e.module.liveFunctions)
    (hin : ∀ v ∈ p.pending, v ∈ e.module.instructionsOf p.function)
    (hlate : ∀ v ∈ p.pending, ∀ i ∈ e.module.instruction? v, i.isPhi = false)
    (hm : e.Mirrors [] σ p.machine t) (hframe : p.frame.Mirrors dead σ.places frame')
    (hc : p.frame.Covers frame') :
    Echoes (e.Hidden dead f boxes) p.machine t
      (e.runInstructions (e.call p.levels) p.function p.block p.pending p.frame)
      (e.runInstructions (e'.call p.levels) p.function p.block
        (p.pending.filter fun v => ¬ dead v) frame') Flow.Covers := by
  induction hl : p.pending generalizing p σ t frame' with
  | nil => exact echoes_throw _
  | cons v rest ih =>
    have hmem := hin v (by simp [hl])
    have next {i : Instruction} {s s' : Machine} {τ : Numbering} {t : Machine} {frame' : Frame}
        {d : Datum} (hx : e.Executes p v i s)
        (hr : (e.evaluate (e.call p.levels) p.frame (e.module.typeOf v) i).run.run s = (.ok d, s'))
        (hm : e.Mirrors [] τ s' t)
        (hframe : Frame.Mirrors dead τ.places (p.frame.insert v d) frame')
        (hc : Frame.Covers (p.frame.insert v d) frame') :
        Echoes (e.Hidden dead f boxes) s' t
          (e.runInstructions (e.call p.levels) p.function p.block rest (p.frame.insert v d))
          (e.runInstructions (e'.call p.levels) p.function p.block
            (rest.filter fun v => ¬ dead v) frame') Flow.Covers :=
      ih (p := { p with pending := p.pending.tail, frame := p.frame.insert v d, machine := s' })
        hk hkt (hv.leads (.next hx hr)) hf (fun w hw => hin w (List.mem_of_mem_tail hw))
        (fun w hw => hlate w (List.mem_of_mem_tail hw)) hm hframe hc (by simp [hl])
    by_cases hdead : dead v
    · obtain ⟨i, hi, hidle⟩ := h.erased.idle v hdead
      have hphi := hlate v (by simp [hl]) i hi
      have hterm : i.isTerminator = false := by
        by_contra ht
        have := Instruction.hasSideEffects_of_isTerminator (by simpa using ht)
        rw [hidle] at this
        cases this
      rw [List.filter_cons_of_neg (by simpa using hdead), runInstructions_other e hi hphi hterm]
      refine echoes_left hm (widening_tick _) (fun fault s' hr => .inl (overrun_of_tick hr))
        fun _ s hm hs _ => ?_
      have hx : e.Executes p v i s := ⟨by simp [hl], hi, hs⟩
      refine echoes_left hm (evaluate_widens hidle)
        (fun fault s' hr => .inr ⟨v, hdead, .inside hv hx hr⟩) fun d s' hm hr _ => ?_
      exact next hx hr hm (hframe.insert_dead hdead) hc.insert_left
    · rw [List.filter_cons_of_pos (by simpa using hdead), runInstructions, runInstructions]
      refine echoes_bind (tracks_tick hm _) (tick_echoes _) fun τ _ _ s t hx hm hs _ _ _ => ?_
      cases hi : e.module.instruction? v with
      | none => exact echoes_throw _
      | some i =>
        have hread : ∀ w ∈ i.operands, e.Shares (e.Hidden dead f boxes) τ p.frame frame' w :=
          h.shares hf hmem hdead hi (hframe.mono hx.places) hc
        have hexecutes : e.Executes p v i s := ⟨by simp [hl], hi, hs⟩
        have go : Echoes (e.Hidden dead f boxes) s t (do
              let d ← e.evaluate (e.call p.levels) p.frame (e.module.typeOf v) i
              e.runInstructions (e.call p.levels) p.function p.block rest (p.frame.insert v d))
            (do
              let d ← e.evaluate (e'.call p.levels) frame' (e.module.typeOf v) i
              e.runInstructions (e'.call p.levels) p.function p.block
                (rest.filter fun v => ¬ dead v) (frame'.insert v d)) Flow.Covers := by
          refine echoes_bind (executes_tracks hkt (hv.points hd) hexecutes hm
              fun w hw => (hread w hw).follows)
            (executes_echoes hk hv hd hexecutes hm hread) fun υ d d' s' t' hx' hm hr _ hdd _ => ?_
          exact next hexecutes hr hm (((hframe.mono hx.places).mono hx'.places).insert hdd) hc.insert
        cases i with
        | branch dest => exact echoes_pure hc
        | condBranch cond thenDest elseDest =>
          refine (hread cond (by simp [Instruction.operands])).bind hm
            fun υ d d' s t hy hm _ hdd => ?_
          refine echoes_bind (P := fun _ => (· = ·)) (tracks_ofExcept hm hdd.asBool)
            (echo_ofExcept hm fun _ hb => (hdd.flip hb).asBool)
            fun φ taken _ s t hz hm _ _ he _ => ?_
          exact echoes_pure hc
        | switch value default cases =>
          refine (hread value (by simp [Instruction.operands])).word hm fun υ word s t hy hm => ?_
          have hcases : ∀ c ∈ cases, e.Shares (e.Hidden dead f boxes) υ p.frame frame' c.1 :=
            fun c hc' => by
              refine (hread c.1 ?_).mono hy
              rw [Instruction.operands]
              exact List.mem_cons_of_mem _ (List.mem_map_of_mem hc')
          refine echoes_bind (switchTarget_tracks (fun c hc' => (hcases c hc').follows) hm)
            (switchTarget_echoes hcases hm) fun φ dest _ s t hz hm _ _ he _ => ?_
          exact echoes_pure hc
        | ret value =>
          cases value with
          | none => exact echoes_pure trivial
          | some value =>
            exact (hread value (by simp [Instruction.operands])).bind hm
              fun υ d d' s t _ hm _ hdd => echoes_pure trivial
        | unreachable => exact echoes_throw _
        | phi incoming => exact echoes_throw _
        | _ => exact go

/-- From an edge on to the next one. -/
theorem runBlock_echoes (hk : e.CallsEcho e' dead f boxes k.levels)
    (hkt : e.CallsTrack e' k.levels) (hd : e.RunsDiscreetly f boxes)
    (ha : e.Approaches f boxes k) (hb : e.Stands k.function k.previous k.block)
    (hm : e.Mirrors [] σ k.machine t) (hframe : k.frame.Mirrors dead σ.places frame')
    (hc : k.frame.Covers frame') :
    Echoes (e.Hidden dead f boxes) k.machine t
      (e.runBlock (e.call k.levels) k.function k.previous k.block k.frame)
      (e'.runBlock (e'.call k.levels) k.function k.previous k.block frame') Flow.Covers := by
  obtain ⟨phis, rest, hl, hphis, hrest⟩ := hb.phis h.verified
  have hin : ∀ v ∈ e.module.instructions k.block, v ∈ e.module.instructionsOf k.function :=
    fun v hv => List.mem_flatMap.mpr ⟨k.block, hb.inside, hv⟩
  unfold runBlock
  rw [h.erased.instructions_eq, h.readPhis_eq]
  simp only [h.runInstructions_eq]
  have hread : ∀ v ∈ phis, ¬ dead v → ∀ i, e.module.instruction? v = some i →
      ∀ w ∈ i.operands, e.Shares (e.Hidden dead f boxes) σ k.frame frame' w := fun v hv hn i hi =>
    h.shares hb.live (hin v (by simp [hl, hv])) hn hi hframe hc
  have htracks := readPhis_tracks (f := k.function) (b := k.block) k.previous hphis hrest
    (fun v hv hn i hi w hw => (hread v hv hn i hi w hw).follows) hm
  have hechoes := readPhis_echoes (f := k.function) (b := k.block) k.previous hphis hrest hread hm
    fun v hv hdead incoming s₁ fault s₂ hi hw hr =>
      ⟨v, hdead, .phi ha (by simp [hl, hv]) hi hw hr⟩
  rw [← hl] at htracks hechoes
  refine echoes_bind htracks hechoes fun τ r r' s' t' hx hm' hr _ hrr _ => ?_
  obtain ⟨merged, others⟩ := r
  obtain ⟨merged', others'⟩ := r'
  obtain ⟨rfl, rfl, hmerges⟩ := hrr
  let p : Point := ⟨k.levels, k.function, k.block, others, k.frame.insertMany merged, s'⟩
  have hp : e.Visits f boxes p := ha.enters ⟨merged, others, s', hr, rfl⟩
  exact h.runInstructions_echoes (p := p) hk hkt hd hp hb.live
    (fun v hv => hin v (hl ▸ List.mem_append_right phis hv)) hrest hm'
    ((hframe.mono hx.places).insertMany hmerges) (hc.insertMany hmerges)

/-! ### One call -/

theorem runBlocks_echoes {fuel : Nat} (hk : e.CallsEcho e' dead f boxes k.levels)
    (hkt : e.CallsTrack e' k.levels) (hd : e.RunsDiscreetly f boxes)
    (ha : e.Approaches f boxes k) (hb : e.Stands k.function k.previous k.block)
    (hm : e.Mirrors [] σ k.machine t) (hframe : k.frame.Mirrors dead σ.places frame')
    (hc : k.frame.Covers frame') :
    Echo (e.Hidden dead f boxes) k.machine t
      (e.runBlocks (e.call k.levels) k.function fuel k.previous k.block k.frame)
      (e'.runBlocks (e'.call k.levels) k.function fuel k.previous k.block frame') := by
  induction fuel generalizing k frame' σ t with
  | zero =>
    rw [runBlocks_eq, runBlocks_eq]
    refine echoes_bind (h.runBlock_tracks hkt hb (ha.discreetly hd) hm hframe)
      (h.runBlock_echoes hk hkt hd ha hb hm hframe hc) fun τ flow flow' s' t' _ _ _ _ hflow _ => ?_
    cases hflow with
    | jump dest _ => exact echoes_throw _
    | done _ => exact echoes_pure trivial
  | succ fuel ih =>
    rw [runBlocks_eq, runBlocks_eq]
    refine echoes_bind (h.runBlock_tracks hkt hb (ha.discreetly hd) hm hframe)
      (h.runBlock_echoes hk hkt hd ha hb hm hframe hc)
      fun τ flow flow' s' t' _ hm' hr _ hflow hcovers => ?_
    cases hflow with
    | @jump dest frame₁ frame₁' hframe =>
      obtain ⟨rest, frame'', s'', henters, hrest⟩ := enters_of_runBlock hr
      have hturns : e.Approaches f boxes ⟨k.levels, k.function, some k.block, dest, frame₁, s'⟩ :=
        .inr ⟨_, ha.enters henters, .jump hrest⟩
      exact ih (k := ⟨k.levels, k.function, some k.block, dest, frame₁, s'⟩) hk hkt hturns
        (h.stands_of_jump hb hr) hm' hframe hcovers
    | done _ => exact echoes_pure trivial

theorem execute_echoes {g : FunctionId} (hk : e.CallsEcho e' dead f boxes levels)
    (hkt : e.CallsTrack e' levels) (hd : e.RunsDiscreetly f boxes)
    (ha : ∀ entry ∈ e.module.entry? g, e.Approaches f boxes
      ⟨levels, g, none, entry, .ofList ((e.module.params g).zip args), s⟩)
    (hg : g ∈ e.module.liveFunctions) (hm : e.Mirrors [] σ s t)
    (hargs : List.Forall₂ (Datum.Mirrors σ.places) args args') :
    Echo (e.Hidden dead f boxes) s t (e.execute (e.call levels) g args)
      (e'.execute (e'.call levels) g args') := by
  unfold execute
  rw [(h.sameHead g).entry, (h.sameHead g).params, h.limits]
  cases hentry : e.module.entry? g with
  | none => exact echoes_throw _
  | some entry =>
    have hin : entry ∈ e.module.blocksOf g := by
      rw [h.ordered.blocksOf_eq]
      rw [h.ordered.entry?_eq] at hentry
      exact List.mem_of_mem_head? hentry
    exact h.runBlocks_echoes hk hkt hd (ha entry hentry) ⟨hg, hin, by simp⟩ hm (mirrors_ofList hargs)
      (covers_ofList hargs)

/-! ### All calls -/

theorem callHost_echoes {g : FunctionId} (hm : e.Mirrors [] σ s t)
    (hargs : List.Forall₂ (Datum.Mirrors σ.places) args args')
    (hborder : ∀ shown, args.mapM box = .ok shown → ∀ d ∈ args, d.hasPointer = false) :
    Echo excused s t (Run.ofExcept (e.callHost g args)) (Run.ofExcept (e'.callHost g args')) := by
  rw [h.callHost_eq]
  refine echo_ofExcept (S := fun _ _ _ => True) hm fun back hback d hd => ?_
  obtain ⟨shown', -, hshown', -, -⟩ := callHost_eq_ok hd
  have hboxes : Fault.Entails (args'.mapM box) (args.mapM box) (List.Forall₂ fun _ _ => True) :=
    Fault.entails_mapM (mirrors_flip hargs hback) fun _ _ => box_mirrors
  obtain ⟨shown, hshown, -⟩ := hboxes shown' hshown'
  have hplain := hborder shown hshown
  have hsame : List.Forall₂ (· = ·) args args' := forall₂_imp_left hargs fun a ha a' hm =>
    (hm.eq_of_no_pointer (hplain a ha)).symm
  rw [List.forall₂_eq_eq_eq] at hsame
  exact ⟨d, hsame ▸ hd, trivial⟩

/-- A call fails in both runs, if it does so with a body and levels left for it. -/
theorem call_echoes {g : FunctionId} (hm : e.Mirrors [] σ s t)
    (hargs : List.Forall₂ (Datum.Mirrors σ.places) args args')
    (hborder : e.module.isDeclaration g → ∀ shown, args.mapM box = .ok shown →
      ∀ d ∈ args, d.hasPointer = false)
    (hbody : e.module.isRemoved g = false → e.module.isDeclaration g = false →
      s.depth < e.limits.callDepth →
      Echo excused s t (e.call levels g args) (e'.call levels g args')) :
    Echo excused s t (e.call levels g args) (e'.call levels g args') := by
  have hhead := h.sameHead g
  cases hr : e.module.isRemoved g with
  | true =>
    have hfails : ((e'.call levels g args').run.run t).1 = .error .removedCallee := by
      rw [call_run]
      simp [hhead.isRemoved, hr]
    exact echoes_failed hfails
  | false =>
    cases hd : e.module.isDeclaration g with
    | true =>
      exact (h.callHost_echoes hm hargs (hborder hd)).congr (congrArg (·.1) (call_declared hr hd))
        (congrArg (·.1) (call_declared (hhead.isRemoved.trans hr) (hhead.isDeclaration.trans hd)))
    | false =>
      by_cases hdepth : s.depth < e.limits.callDepth
      · exact hbody hr hd hdepth
      · have hstops : ((e.call levels g args).run.run s).1 =
            .error (.callDepth e.limits.callDepth (e.module.functionName g)) := by
          rw [call_run]
          simp [hr, hd, Nat.le_of_not_lt hdepth]
        exact echoes_stopped hstops (.inl rfl)

theorem calls_echo (hd : e.RunsDiscreetly f boxes) (levels : Nat) :
    e.CallsEcho e' dead f boxes levels := by
  induction levels with
  | zero =>
    intro g args args' σ s t hm hargs hborder _
    refine h.call_echoes hm hargs hborder fun hr hd hdepth => ?_
    have hstops : ((e.call 0 g args).run.run s).1 =
        .error (.callDepth e.limits.callDepth (e.module.functionName g)) := by
      rw [call_run]
      simp [hr, hd, Nat.not_le_of_lt hdepth]
    exact echoes_stopped hstops (.inl rfl)
  | succ levels ih =>
    intro g args args' σ s t hm hargs hborder ha
    refine h.call_echoes hm hargs hborder fun hr hdefined hdepth => ?_
    have hhead := h.sameHead g
    have hg : g ∈ e.module.liveFunctions :=
      mem_liveFunctions.mpr ⟨hasFunction_of_defined hdefined, hr⟩
    refine (nested_echoes (h.execute_echoes (s := { s with depth := s.depth + 1 }) ih
      (h.calls_track levels) hd (fun entry hentry => ?_) hg hm.entered hargs)).congr
      (congrArg (·.1) (call_defined hr hdefined hdepth))
      (congrArg (·.1) (call_defined (hhead.isRemoved.trans hr) (hhead.isDeclaration.trans hdefined)
        (by rw [h.limits, hm.depth]; exact hdepth)))
    exact ha _ ⟨hr, hdefined, hdepth, levels, entry, rfl, hentry, rfl⟩

/-! ### Whole runs -/

/-- Where the first run fails, so does the second one, unless a limit or a dead instruction stopped the
first. -/
theorem runFunction_fails (hd : e.RunsDiscreetly f boxes) {fault : Fault}
    (hr : e.runFunction f boxes = .error fault) (hlimit : fault.isOverrun = false) :
    (∃ fault', e'.runFunction f boxes = .error fault') ∨ e.Hidden dead f boxes fault := by
  have hhead := h.sameHead f
  have htypes : e'.module.types = e.module.types := h.erased.types
  have hparams : e'.module.paramTypes f = e.module.paramTypes f := by
    rw [paramTypes, paramTypes, hhead.type, htypes]
  have htakes_iff : e'.module.Takes f boxes.length ↔ e.module.Takes f boxes.length := by
    rw [Takes, Takes, hparams, hhead.type, htypes]
  cases hremoved : e.module.isRemoved f with
  | true =>
    refine .inl ⟨.removedEntry, ?_⟩
    unfold runFunction
    rw [if_pos (by rw [hhead.isRemoved, hremoved])]
    rfl
  | false =>
    have hremoved' := hhead.isRemoved.trans hremoved
    by_cases htakes : e.module.Takes f boxes.length
    · rw [(runFunction_eq hremoved).1 htakes] at hr
      have hdata' : e'.arguments f (e'.module.paramTypes f) boxes =
          e.arguments f (e.module.paramTypes f) boxes := by
        rw [hparams, arguments, arguments, htypes, hhead.name]
      have hstart : e'.start = e.start := by rw [start, start, h.limits]
      rw [(runFunction_eq hremoved').1 (htakes_iff.mpr htakes), hdata', h.limits, hstart]
      cases hdata : e.arguments f (e.module.paramTypes f) boxes with
      | error refusal => exact .inl ⟨refusal, rfl⟩
      | ok data =>
        rw [hdata] at hr
        have hplain := hasPointer_of_arguments hdata hd.arguments
        have hself : List.Forall₂ (Datum.Mirrors ([] : List Nat)) data data :=
          List.forall₂_same.mpr fun a ha => .refl (hplain a ha)
        have hecho := h.calls_echo hd e.limits.callDepth f data data {} e.start e.start
          (mirrors_start e) hself (fun _ _ _ => hplain)
          fun k ho => .inl ⟨htakes, data, hdata, ho⟩
        unfold Echo Echoes at hecho
        rcases hcall' : (e'.call e.limits.callDepth f data).run.run e.start with ⟨fault' | d', t⟩
        · exact .inl ⟨fault', by simp only [bind, Except.bind, hcall']⟩
        rcases hcall : (e.call e.limits.callDepth f data).run.run e.start with ⟨fault₁ | d, s⟩
        · rw [hcall, hcall'] at hecho
          simp only [bind, Except.bind, hcall, Except.error.injEq] at hr
          exact .inr ((hr ▸ hecho).resolve_left (by simp [hlimit]))
        · have hbox : box d = .error fault := by simpa only [bind, Except.bind, hcall] using hr
          have hdefined : e.module.isDeclaration f ≠ true := fun hdeclared => by
            rw [call_declared hremoved hdeclared] at hcall
            obtain ⟨x, hx⟩ := box_of_callHost (Prod.mk.inj hcall).1
            rw [hx] at hbox
            cases hbox
          have harrives := h.calls_track e.limits.callDepth f data data {} e.start e.start
            (mirrors_start e) hself (fun hdeclared => (hdefined hdeclared).elim)
            (fun p hp q hq => hd.points q ⟨htakes, data, p, hdata, hp, hq⟩) d s hcall
          unfold Arrives at harrives
          rw [hcall'] at harrives
          obtain ⟨τ, -, hm, hmirrors⟩ := harrives
          obtain ⟨back, hback⟩ := exists_flips hm.nodup
          refine .inl ?_
          cases hbox' : box d' with
          | error fault' => exact ⟨fault', by simp only [bind, Except.bind, hcall', hbox']⟩
          | ok x' =>
            obtain ⟨x, hx, -⟩ := box_mirrors (hmirrors.flip hback) x' hbox'
            rw [hx] at hbox
            cases hbox
    · exact .inl ((runFunction_eq hremoved').2 fun ht => htakes (htakes_iff.mp ht))

end Trims

end Setting

/-- Removal of dead instructions comes to its end. Whatever fails in a run where nothing depends on the
numbers of allocations fails afterwards too, unless a limit stopped the run or an instruction that was
removed raised the fault. -/
theorem Module.Reachable.hidden_faults {m : Module} (h : m.Reachable) (hv : m.verify = .ok ()) :
    ∃ changed m', Pass.dce.run.outcome m = (.ok changed, m') ∧
      ∀ (host : Host) (limits : Limits) f args fault,
        (⟨m, host, limits⟩ : Setting).RunsDiscreetly f args →
        (⟨m, host, limits⟩ : Setting).runFunction f args = .error fault →
        fault.isOverrun = false →
        (∃ fault', (⟨m', host, limits⟩ : Setting).runFunction f args = .error fault') ∨
          ∃ v i, m.instruction? v = some i ∧ i.hasSideEffects = false ∧
            (∀ b, v ∉ m'.instructions b) ∧
            (⟨m, host, limits⟩ : Setting).Raises f args v fault := by
  obtain ⟨changed, m', hrun, dead, he⟩ := (ends_eraseDead h.ordered).exists_ok
  refine ⟨changed, m', hrun, fun host limits f args fault hd hr hlimit => ?_⟩
  have htrims : Setting.Trims ⟨m, host, limits⟩ ⟨m', host, limits⟩ dead :=
    ⟨rfl, rfl, he, h.sound, h.grounded, h.ordered, hv⟩
  refine (htrims.runFunction_fails hd hr hlimit).imp_right ?_
  rintro ⟨v, hv, hraises⟩
  obtain ⟨i, hi, hidle⟩ := he.idle v hv
  exact ⟨v, i, hi, hidle, fun b hmem => (he.mem_instructions.mp hmem).2 hv, hraises⟩

/-- A program that divides by zero, with a sum and a quotient that nothing reads. -/
def dividing : List Call :=
  [.types (.ofType (.int 32)),
    .symbol (.declareFunction "main" ⟨0⟩ [] false),
    .layout (.appendBlock ⟨0⟩ "entry"),
    .setCursor (some { block := ⟨0⟩ }),
    .constant (.integer ⟨0⟩ 1),
    .constant (.integer ⟨0⟩ 0),
    .emission (.binary .add ⟨0⟩ ⟨1⟩),
    .emission (.binary .sdiv ⟨0⟩ ⟨1⟩),
    .emission (.ret ⟨1⟩)]

/-- The builder after those calls. -/
def divided : Builder := Builder.replay { module := { name := "dividing" } } dividing

theorem reachable_divided : divided.Reachable :=
  Builder.Replays.reachable (by decide +kernel) (Builder.reachable_empty "dividing")

/-- The division stays, and fails as before. -/
theorem divided_fails : divided.module.Reachable ∧ divided.module.verify = .ok () ∧
    (⟨divided.module, .standard, {}⟩ : Setting).RunsDiscreetly ⟨0⟩ [] ∧
    (⟨divided.module, .standard, {}⟩ : Setting).runFunction ⟨0⟩ [] =
      .error (.arithmetic .divisionByZero) ∧
    ∃ changed m', Pass.dce.run.outcome divided.module = (.ok changed, m') ∧
      ((∃ fault', (⟨m', .standard, {}⟩ : Setting).runFunction ⟨0⟩ [] = .error fault') ∨
        ∃ v i, divided.module.instruction? v = some i ∧ i.hasSideEffects = false ∧
          (∀ b, v ∉ m'.instructions b) ∧
          (⟨divided.module, .standard, {}⟩ : Setting).Raises ⟨0⟩ [] v
            (.arithmetic .divisionByZero)) := by
  have hv : divided.module.verify = .ok () := by decide +kernel
  have hr : (⟨divided.module, .standard, {}⟩ : Setting).runFunction ⟨0⟩ [] =
      .error (.arithmetic .divisionByZero) := by decide +kernel
  have hcode : ∀ n < divided.module.values.size, ∀ i ∈ divided.module.instruction? ⟨n⟩,
      i.exposesPlaces = false := by decide +kernel
  have hd : (⟨divided.module, .standard, {}⟩ : Setting).RunsDiscreetly ⟨0⟩ [] :=
    ⟨by simp, fun p _ => Setting.discreet_of_code hcode, fun r hok => by rw [hr] at hok; cases hok⟩
  obtain ⟨changed, m', hrun, hkept⟩ := Module.Reachable.hidden_faults reachable_divided.module hv
  exact ⟨reachable_divided.module, hv, hd, hr, changed, m', hrun,
    hkept .standard {} ⟨0⟩ [] _ hd hr rfl⟩

/-- A program that loads from null for nothing. -/
def peeking : List Call :=
  [.types (.ofType (.int 32)),
    .types (.ofType (.pointer ⟨0⟩)),
    .symbol (.declareFunction "main" ⟨0⟩ [] false),
    .layout (.appendBlock ⟨0⟩ "entry"),
    .setCursor (some { block := ⟨0⟩ }),
    .constant (.null ⟨1⟩),
    .emission (.load ⟨0⟩),
    .constant (.integer ⟨0⟩ 0),
    .emission (.ret ⟨2⟩)]

/-- The builder after those calls. -/
def peeked : Builder := Builder.replay { module := { name := "peeking" } } peeking

/-- The program without its load. -/
def blinded : Module := ((Module.eraseInstruction ⟨1⟩).outcome peeked.module).2

/-- The load from null stops the run, and nothing does when it is taken away. -/
theorem peeked_hidden : peeked.module.Reachable ∧ peeked.module.verify = .ok () ∧
    peeked.module.isRemoved ⟨0⟩ = false ∧
    (⟨peeked.module, .standard, {}⟩ : Setting).runFunction ⟨0⟩ [] = .error .loadNull ∧
    Fault.loadNull.isOverrun = false ∧
    ∃ changed m', Pass.dce.run.outcome peeked.module = (.ok changed, m') ∧
      (⟨m', .standard, {}⟩ : Setting).runFunction ⟨0⟩ [] = .ok (.int 32 0) := by
  have hreachable : peeked.Reachable :=
    Builder.Replays.reachable (by decide +kernel) (Builder.reachable_empty "peeking")
  exact ⟨hreachable.module, by decide +kernel, by decide +kernel, by decide +kernel, rfl, true, blinded,
    Transform.outcome_eraseDead_of_unread (by decide +kernel), by decide +kernel⟩

/-- A program that loads from a global for nothing, and goes on if that global has an address behind
that of a slot. -/
def ranking : List Call :=
  [.types (.ofType (.int 32)),
    .symbol (.addGlobal ⟨0⟩ "g"),
    .symbol (.declareFunction "main" ⟨0⟩ [] false),
    .layout (.appendBlock ⟨0⟩ "entry"),
    .layout (.appendBlock ⟨0⟩ "good"),
    .layout (.appendBlock ⟨0⟩ "bad"),
    .setCursor (some { block := ⟨0⟩ }),
    .emission (.load ⟨0⟩),
    .emission (.alloca ⟨0⟩),
    .emission (.icmp .ugt ⟨0⟩ ⟨2⟩),
    .emission (.condBr ⟨3⟩ ⟨1⟩ ⟨2⟩),
    .setCursor (some { block := ⟨1⟩ }),
    .constant (.integer ⟨0⟩ 0),
    .emission (.ret ⟨5⟩),
    .setCursor (some { block := ⟨2⟩ }),
    .emission .unreachable]

/-- The builder after those calls. -/
def ranked : Builder := Builder.replay { module := { name := "ranking" } } ranking

/-- The program without its load. -/
def reranked : Module := ((Module.eraseInstruction ⟨1⟩).outcome ranked.module).2

/-- Where the order of addresses matters, a fault that no removed instruction raises may be hidden. -/
theorem ranked_hidden : ranked.module.Reachable ∧ ranked.module.verify = .ok () ∧
    (⟨ranked.module, .standard, {}⟩ : Setting).runFunction ⟨0⟩ [] = .error (.unreachable "main") ∧
    ∃ changed m', Pass.dce.run.outcome ranked.module = (.ok changed, m') ∧
      (⟨m', .standard, {}⟩ : Setting).runFunction ⟨0⟩ [] = .ok (.int 32 0) := by
  have hreachable : ranked.Reachable :=
    Builder.Replays.reachable (by decide +kernel) (Builder.reachable_empty "ranking")
  exact ⟨hreachable.module, by decide +kernel, by decide +kernel, true, reranked,
    Transform.outcome_eraseDead_of_unread (by decide +kernel), by decide +kernel⟩

end SsaKit
