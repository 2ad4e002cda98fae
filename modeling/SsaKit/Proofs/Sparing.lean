import SsaKit.Proofs.Agreement
import SsaKit.Proofs.Erasure
import SsaKit.Proofs.Host
import SsaKit.Proofs.Tracking
import SsaKit.Proofs.Visit

/-! Runs without dead instructions follow the runs with them. -/
namespace SsaKit

section

variable {dead : ValueId → Prop} {places : List Nat} {frame frame' : Frame} {v : ValueId}
  {d d' : Datum} {l l' : List (ValueId × Datum)}

theorem Frame.Mirrors.insert (h : frame.Mirrors dead places frame') (hd : d.Mirrors places d') :
    Frame.Mirrors dead places (frame.insert v d) (frame'.insert v d') := by
  intro w c hw hc
  rw [getElem?_insert] at hc ⊢
  split at hc
  · rename_i he
    rw [if_pos he]
    obtain rfl := Option.some_inj.mp hc
    exact ⟨d', rfl, hd⟩
  · rename_i he
    rw [if_neg he]
    exact h w c hw hc

theorem Frame.Mirrors.insert_dead (h : frame.Mirrors dead places frame') (hv : dead v) :
    Frame.Mirrors dead places (frame.insert v d) frame' := by
  intro w c hw hc
  rw [getElem?_insert] at hc
  split at hc
  · rename_i he
    obtain rfl := he
    exact (hw hv).elim
  · exact h w c hw hc

/-- Results of phis, of which the second run has only those that are not dead. -/
inductive Merges (dead : ValueId → Prop) (places : List Nat) :
    List (ValueId × Datum) → List (ValueId × Datum) → Prop
  | nil : Merges dead places [] []
  | dead {v : ValueId} {d : Datum} {l l' : List (ValueId × Datum)} : dead v →
    Merges dead places l l' → Merges dead places ((v, d) :: l) l'
  | live {v : ValueId} {d d' : Datum} {l l' : List (ValueId × Datum)} : d.Mirrors places d' →
    Merges dead places l l' → Merges dead places ((v, d) :: l) ((v, d') :: l')

theorem Frame.Mirrors.insertMany (h : frame.Mirrors dead places frame')
    (hl : Merges dead places l l') :
    Frame.Mirrors dead places (frame.insertMany l) (frame'.insertMany l') := by
  induction hl generalizing frame frame' with
  | nil => simpa using h
  | dead hv _ ih =>
    rw [Std.TreeMap.insertMany_cons]
    exact ih (h.insert_dead hv)
  | live hd _ ih =>
    rw [Std.TreeMap.insertMany_cons, Std.TreeMap.insertMany_cons]
    exact ih (h.insert hd)

/-- Arguments that go together make frames that do. -/
theorem mirrors_ofList {vs : List ValueId} {ds ds' : List Datum}
    (h : List.Forall₂ (Datum.Mirrors places) ds ds') :
    Frame.Mirrors dead places (Std.TreeMap.ofList (vs.zip ds)) (Std.TreeMap.ofList (vs.zip ds')) := by
  rw [Std.TreeMap.ofList_eq_insertMany_empty, Std.TreeMap.ofList_eq_insertMany_empty]
  have hempty : Frame.Mirrors dead places {} {} := fun v d _ hd => by simp at hd
  refine hempty.insertMany ?_
  induction h generalizing vs with
  | nil => simpa using .nil
  | cons hd _ ih =>
    cases vs with
    | nil => exact .nil
    | cons v vs => exact .live hd ih

/-- The same way out of a block. -/
inductive Flow.Mirrors (dead : ValueId → Prop) (places : List Nat) : Flow → Flow → Prop
  | jump (dest : BlockId) {frame frame' : Frame} : frame.Mirrors dead places frame' →
    Flow.Mirrors dead places (.jump dest frame) (.jump dest frame')
  | done {d d' : Datum} : d.Mirrors places d' → Flow.Mirrors dead places (.done d) (.done d')

end

namespace Setting

open Run SsaKit.Module

variable {e e' : Setting} {dead : ValueId → Prop} {f : FunctionId} {b : BlockId} {v : ValueId}
  {i : Instruction} {frame frame' : Frame} {σ τ : Numbering} {s t : Machine} {levels : Nat}
  {p : Point} {previous : Option BlockId}

/-- Nothing at a point depends on the numbers of allocations: no order of places is asked for, and no
address goes to the host or comes from it. -/
structure Discreet (e : Setting) (p : Point) : Prop where
  compares : ∀ v pred lhs rhs s d s', e.Executes p v (.icmp pred lhs rhs) s →
    (e.operand p.frame lhs).run.run s = (.ok d, s') → pred.isEquality ∨ d.hasPointer = false
  border : ∀ v g args s data s' boxes, e.Executes p v (.call g args) s →
    (args.mapM (e.operand p.frame)).run.run s = (.ok data, s') → e.module.isDeclaration g →
    data.mapM box = .ok boxes → (∀ x ∈ boxes, x.isPointer = false) ∧
      ∀ r, e.host.call (e.module.functionName g) boxes = .ok r → r.isPointer = false

/-- From a point on. -/
def Discreetly (e : Setting) (p : Point) : Prop :=
  ∀ q, Relation.ReflTransGen e.Leads p q → e.Discreet q

theorem Discreetly.step {q : Point} (h : e.Discreetly p) (hl : e.Leads p q) : e.Discreetly q :=
  fun r hr => h r (.head hl hr)

/-! ### The host -/

theorem hasPointer_of_box {d : Datum} {x : Box} (h : box d = .ok x) (hx : x.isPointer = false) :
    d.hasPointer = false := by
  cases d with
  | pointer p =>
    cases h
    cases hx
  | aggregate ds => cases h
  | _ => rfl

theorem hasPointer_of_boxes {data : List Datum} {boxes : List Box}
    (h : data.mapM box = .ok boxes) (hb : ∀ x ∈ boxes, x.isPointer = false) :
    ∀ d ∈ data, d.hasPointer = false := by
  have hall : Fault.Ends (data.mapM box) (List.Forall₂ (fun d x => box d = .ok x) data)
      fun _ => True := Fault.ends_mapM fun d _ => by cases h : box d <;> simp [Fault.Ends]
  rw [h] at hall
  clear h
  induction hall with
  | nil => simp
  | cons hx _ ih =>
    obtain ⟨hxp, hrest⟩ := List.forall_mem_cons.mp hb
    exact List.forall_mem_cons.mpr ⟨hasPointer_of_box hx hxp, ih hrest⟩

theorem hasPointer_unboxAs {types : TypeTable} {type : TypeId} {x : Box} {d : Datum}
    (h : unboxAs types type x = some d) (hx : x.isPointer = false) : d.hasPointer = false := by
  unfold unboxAs at h
  split at h
  · cases h; rfl
  · cases h; rfl
  · cases h; rfl
  · cases h; rfl
  · cases h; rfl
  · cases hx
  · cases h; rfl
  · cases h

theorem callHost_eq_ok {args : List Datum} {d : Datum} (h : e.callHost f args = .ok d) :
    ∃ boxes r, args.mapM box = .ok boxes ∧
      e.host.call (e.module.functionName f) boxes = .ok r ∧
      unboxAs e.module.types (e.module.resultType f) r = some d := by
  unfold callHost at h
  cases hb : args.mapM box with
  | error fault =>
    rw [hb] at h
    cases h
  | ok boxes =>
    rw [hb] at h
    simp only [bind, Except.bind] at h
    cases hr : e.host.call (e.module.functionName f) boxes with
    | error fault =>
      rw [hr] at h
      cases h
    | ok r =>
      rw [hr] at h
      dsimp only at h
      cases hd : unboxAs e.module.types (e.module.resultType f) r with
      | none =>
        rw [hd] at h
        cases h
      | some d' =>
        rw [hd] at h
        cases h
        exact ⟨boxes, r, rfl, hr, hd⟩

/-- A call to the host in which no address crosses the border. -/
def Hides (e : Setting) (f : FunctionId) (args : List Datum) : Prop :=
  ∀ d, e.callHost f args = .ok d → (∀ a ∈ args, a.hasPointer = false) ∧ d.hasPointer = false

theorem Discreet.hides {g : FunctionId} {ws : List ValueId} {data : List Datum} {s' : Machine}
    (h : e.Discreet p) (hx : e.Executes p v (.call g ws) s)
    (hr : (ws.mapM (e.operand p.frame)).run.run s = (.ok data, s'))
    (hd : e.module.isDeclaration g) : e.Hides g data := by
  intro d hd'
  obtain ⟨boxes, r, hb, hcall, hunbox⟩ := callHost_eq_ok hd'
  obtain ⟨hboxes, hresult⟩ := h.border v g ws s data s' boxes hx hr hd hb
  exact ⟨hasPointer_of_boxes hb hboxes, hasPointer_unboxAs hunbox (hresult r hcall)⟩

theorem callHost_mirrors {places : List Nat} {args args' : List Datum}
    (h : List.Forall₂ (Datum.Mirrors places) args args') (hh : e.Hides f args) :
    Fault.Entails (e.callHost f args) (e.callHost f args') (Datum.Mirrors places) := by
  intro d hd
  obtain ⟨hargs, hresult⟩ := hh d hd
  have hsame : List.Forall₂ (· = ·) args args' := forall₂_imp_left h fun a ha a' hm =>
    (hm.eq_of_no_pointer (hargs a ha)).symm
  rw [List.forall₂_eq_eq_eq] at hsame
  exact ⟨d, hsame ▸ hd, .refl hresult⟩

/-! ### One instruction -/

/-- The same host and limits, and a module without some dead instructions of a verified one. -/
structure Trims (e e' : Setting) (dead : ValueId → Prop) : Prop where
  host : e'.host = e.host
  limits : e'.limits = e.limits
  erased : e.module.Erased dead e'.module
  sound : e.module.Sound
  grounded : e.module.Grounded
  ordered : e.module.Ordered e.module.order
  verified : e.module.verify = .ok ()

/-- Calls with a number of levels below them are followed. -/
def CallsTrack (e e' : Setting) (levels : Nat) : Prop :=
  ∀ f args args' σ s t, e.Mirrors [] σ s t → List.Forall₂ (Datum.Mirrors σ.places) args args' →
    (e.module.isDeclaration f → e.Hides f args) →
    (∀ p, e.Begins levels f args s p → e.Discreetly p) →
    e.Tracks σ s t (e.call levels f args) (e'.call levels f args') fun τ => Datum.Mirrors τ.places

namespace Trims

variable (h : e.Trims e' dead)
include h

theorem sameRead (v : ValueId) : SameRead e e' v := by
  have hconstants : e.SameConstants e' fun _ => True :=
    { host := h.host
      types := h.erased.types
      values := h.erased.values
      typeOf := fun v _ => h.erased.typeOf v
      kindOf := fun v _ => .inl (h.erased.kindOf v)
      listed := fun v _ _ => by simp only [isListed, h.erased.globals]
      closed := fun _ _ _ _ => trivial }
  exact hconstants.sameRead trivial

theorem sameCode (v : ValueId) : SameCode e e' (fun _ => True) (fun _ => True) v := by
  refine ⟨h.erased.typeOf v, ?_⟩
  rw [h.erased.instruction?]
  cases e.module.instruction? v with
  | none => exact .none
  | some i => exact .some (sameInstruction_self (fun w _ => h.sameRead w) fun _ _ _ => trivial)

/-- Instructions that stay read nothing that is dead. -/
theorem follows (hf : f ∈ e.module.liveFunctions) (hv : v ∈ e.module.instructionsOf f)
    (hn : ¬ dead v) (hi : e.module.instruction? v = some i)
    (hm : frame.Mirrors dead σ.places frame') : ∀ w ∈ i.operands, e.Follows σ frame frame' w :=
  fun w hw => follows_of_frames h.sound h.grounded hm (h.sound.operands_has hi w hw)
    (h.erased.unread f hf v hv hn w (mem_readOf.mpr ⟨i, hi, hw⟩))

end Trims

theorem executes_tracks {type : TypeId} (hk : e.CallsTrack e' p.levels) (hc : e.Discreetly p)
    (hx : e.Executes p v i s) (hm : e.Mirrors [] σ s t)
    (hi : ∀ w ∈ i.operands, e.Follows σ p.frame frame' w) :
    e.Tracks σ s t (e.evaluate (e.call p.levels) p.frame type i)
      (e.evaluate (e'.call p.levels) frame' type i) fun τ => Datum.Mirrors τ.places := by
  refine evaluate_tracks hi hm (fun pred lhs rhs he d s' hr => ?_)
    fun g args he data s' hr τ t' data' _ hm' hd => ?_
  · subst he
    exact (hc p .refl).compares v pred lhs rhs s d s' hx hr
  · subst he
    exact hk g data data' τ s' t' hm' hd (fun hg => (hc p .refl).hides hx hr hg)
      fun q hq => hc.step (.enter hx hr hq)

/-! ### One block -/

theorem readPhi_tracks {incoming : List (BlockId × ValueId)}
    (hi : ∀ w ∈ (Instruction.phi incoming).operands, e.Follows σ frame frame' w)
    (hm : e.Mirrors [] σ s t) :
    e.Tracks σ s t (e.readPhi f b previous frame v incoming)
      (e.readPhi f b previous frame' v incoming)
      fun τ x x' => x.1 = v ∧ x'.1 = v ∧ x.2.Mirrors τ.places x'.2 := by
  unfold readPhi
  cases previous with
  | none => exact tracks_throw _
  | some source =>
    dsimp only
    cases hl : incoming.lookup source with
    | none => exact tracks_throw _
    | some w =>
      have hw := hi w (List.mem_map_of_mem (mem_of_lookup hl))
      exact tracks_bind (hw.operand hm) fun τ d d' s t _ hm _ _ hd => tracks_pure hm ⟨rfl, rfl, hd⟩

open Classical in
/-- The phis at the head of a block, and no others behind them. -/
theorem readPhis_tracks (previous : Option BlockId) {phis rest : List ValueId}
    (hphis : ∀ v ∈ phis, ∃ incoming, e.module.instruction? v = some (.phi incoming))
    (hrest : ∀ v ∈ rest, ∀ i ∈ e.module.instruction? v, i.isPhi = false)
    (hread : ∀ v ∈ phis, ¬ dead v → ∀ i, e.module.instruction? v = some i → ∀ w ∈ i.operands,
      e.Follows σ frame frame' w) (hm : e.Mirrors [] σ s t) :
    e.Tracks σ s t (e.readPhis f b previous frame (phis ++ rest))
      (e.readPhis f b previous frame' ((phis ++ rest).filter fun v => ¬ dead v))
      fun τ r r' => r.2 = rest ∧ (r'.2 = rest.filter fun v => ¬ dead v) ∧
        Merges dead τ.places r.1 r'.1 := by
  induction phis generalizing σ s t with
  | nil =>
    have head {l : List ValueId} (hl : ∀ v ∈ l, v ∈ rest) :
        ∀ v ∈ l.head?, ∀ i ∈ e.module.instruction? v, i.isPhi = false := fun v hv =>
      hrest v (hl v (List.mem_of_mem_head? hv))
    rw [List.nil_append, readPhis_stop e (head fun _ hv => hv),
      readPhis_stop e (head fun _ hv => (List.mem_filter.mp hv).1)]
    exact tracks_pure hm ⟨rfl, rfl, .nil⟩
  | cons v phis ih =>
    obtain ⟨incoming, hi⟩ := hphis v (by simp)
    have later {σ τ : Numbering} {s t : Machine} (hx : σ.Extends τ) (hm : e.Mirrors [] τ s t)
        (hread : ∀ v ∈ phis, ¬ dead v → ∀ i, e.module.instruction? v = some i → ∀ w ∈ i.operands,
          e.Follows σ frame frame' w) :=
      ih (fun w hw => hphis w (by simp [hw]))
        (fun w hw hn i hi u hu => (hread w hw hn i hi u hu).mono hx) hm
    have hread' := fun w hw => hread w (List.mem_cons_of_mem v hw)
    rw [List.cons_append, readPhis_phi e hi]
    by_cases hd : dead v
    · rw [List.filter_cons_of_neg (by simpa using hd)]
      refine tracks_left hm readPhi_widens fun x s hm _ hx => ?_
      obtain ⟨w, d⟩ := x
      obtain rfl : w = v := hx
      rw [← bind_pure (e.readPhis f b previous frame' _)]
      refine tracks_bind (later (.refl σ) hm hread') fun υ r r' s t _ hm _ _ hr => ?_
      exact tracks_pure hm ⟨hr.1, hr.2.1, .dead hd hr.2.2⟩
    · rw [List.filter_cons_of_pos (by simpa using hd), readPhis_phi e hi]
      refine tracks_bind (readPhi_tracks (hread v (by simp) hd _ hi) hm)
        fun τ x x' s t hx hm _ _ hxx => ?_
      refine tracks_bind (later hx hm hread') fun υ r r' s t hx' hm _ _ hr => ?_
      obtain ⟨w, d⟩ := x
      obtain ⟨w', d'⟩ := x'
      obtain ⟨rfl, rfl, hmirrors⟩ := hxx
      exact tracks_pure hm ⟨hr.1, hr.2.1, .live (hmirrors.mono hx'.places) hr.2.2⟩

open Classical in
/-- Behind the phis of a block. Dead instructions only add to the first machine; the induction is on
the instructions to come, and each of the others is followed. -/
theorem Trims.runInstructions_tracks (h : e.Trims e' dead) (hk : e.CallsTrack e' p.levels)
    (hc : e.Discreetly p) (hf : p.function ∈ e.module.liveFunctions)
    (hin : ∀ v ∈ p.pending, v ∈ e.module.instructionsOf p.function)
    (hm : e.Mirrors [] σ p.machine t) (hframe : p.frame.Mirrors dead σ.places frame') :
    e.Tracks σ p.machine t
      (e.runInstructions (e.call p.levels) p.function p.block p.pending p.frame)
      (e.runInstructions (e'.call p.levels) p.function p.block
        (p.pending.filter fun v => ¬ dead v) frame')
      fun τ => Flow.Mirrors dead τ.places := by
  induction hl : p.pending generalizing p σ t frame' with
  | nil => exact tracks_throw _
  | cons v rest ih =>
    have hv := hin v (by simp [hl])
    -- What is left behind the instruction, which leaves its result in the frame.
    have next {i : Instruction} {s s' : Machine} {τ : Numbering} {t : Machine} {frame' : Frame}
        {d : Datum} (hx : e.Executes p v i s)
        (hr : (e.evaluate (e.call p.levels) p.frame (e.module.typeOf v) i).run.run s = (.ok d, s'))
        (hm : e.Mirrors [] τ s' t)
        (hframe : Frame.Mirrors dead τ.places (p.frame.insert v d) frame') :
        e.Tracks τ s' t
          (e.runInstructions (e.call p.levels) p.function p.block rest (p.frame.insert v d))
          (e.runInstructions (e'.call p.levels) p.function p.block
            (rest.filter fun v => ¬ dead v) frame')
          fun τ => Flow.Mirrors dead τ.places :=
      ih (p := { p with pending := p.pending.tail, frame := p.frame.insert v d, machine := s' })
        hk (hc.step (.next hx hr)) hf (fun w hw => hin w (List.mem_of_mem_tail hw)) hm hframe
        (by simp [hl])
    by_cases hd : dead v
    · obtain ⟨i, hi, hidle⟩ := h.erased.idle v hd
      rw [List.filter_cons_of_neg (by simpa using hd)]
      by_cases hphi : i.isPhi = false
      · have hterm : i.isTerminator = false := by
          by_contra ht
          have := Instruction.hasSideEffects_of_isTerminator (by simpa using ht)
          rw [hidle] at this
          cases this
        rw [runInstructions_other e hi hphi hterm]
        refine tracks_left hm (widening_tick _) fun _ s hm hs _ => ?_
        have hx : e.Executes p v i s := ⟨by simp [hl], hi, hs⟩
        refine tracks_left hm (evaluate_widens hidle) fun d s' hm hr _ => ?_
        exact next hx hr hm (hframe.insert_dead hd)
      · have hlate : ∃ incoming, i = .phi incoming := by
          cases i with
          | phi incoming => exact ⟨incoming, rfl⟩
          | _ => exact (hphi rfl).elim
        obtain ⟨incoming, rfl⟩ := hlate
        rw [runInstructions]
        refine tracks_left hm (widening_tick _) fun _ s _ _ _ => ?_
        rw [hi]
        exact tracks_throw _
    · rw [List.filter_cons_of_pos (by simpa using hd), runInstructions, runInstructions]
      refine tracks_bind (tracks_tick hm _) fun τ _ _ s t hx hm hs _ _ => ?_
      cases hi : e.module.instruction? v with
      | none => exact tracks_throw _
      | some i =>
        have hread := h.follows hf hv hd hi (hframe.mono hx.places)
        have hexecutes : e.Executes p v i s := ⟨by simp [hl], hi, hs⟩
        have go : e.Tracks τ s t (do
              let d ← e.evaluate (e.call p.levels) p.frame (e.module.typeOf v) i
              e.runInstructions (e.call p.levels) p.function p.block rest (p.frame.insert v d))
            (do
              let d ← e.evaluate (e'.call p.levels) frame' (e.module.typeOf v) i
              e.runInstructions (e'.call p.levels) p.function p.block
                (rest.filter fun v => ¬ dead v) (frame'.insert v d))
            fun υ => Flow.Mirrors dead υ.places := by
          refine tracks_bind (executes_tracks hk hc hexecutes hm hread)
            fun υ d d' s' t hx' hm hr _ hdd => ?_
          exact next hexecutes hr hm (((hframe.mono hx.places).mono hx'.places).insert hdd)
        cases i with
        | branch dest => exact tracks_pure hm (.jump dest (hframe.mono hx.places))
        | condBranch cond thenDest elseDest =>
          refine tracks_bind ((hread cond (by simp [Instruction.operands])).operand hm)
            fun υ d d' s t hy hm _ _ hdd => ?_
          refine tracks_bind (P := fun _ => (· = ·)) (tracks_ofExcept hm hdd.asBool)
            fun φ taken _ s t hz hm _ _ he => ?_
          subst he
          exact tracks_pure hm
            (.jump _ (hframe.mono ((hx.places.trans hy.places).trans hz.places)))
        | switch value default cases =>
          refine tracks_bind ((hread value (by simp [Instruction.operands])).word hm)
            fun υ word _ s t hy hm _ _ he => ?_
          subst he
          refine tracks_bind (switchTarget_tracks (fun c hc => (hread c.1 ?_).mono hy) hm)
            fun φ dest _ s t hz hm _ _ he => ?_
          · rw [Instruction.operands]
            exact List.mem_cons_of_mem _ (List.mem_map_of_mem hc)
          · subst he
            exact tracks_pure hm
              (.jump _ (hframe.mono ((hx.places.trans hy.places).trans hz.places)))
        | ret value =>
          cases value with
          | none => exact tracks_pure hm (.done .void)
          | some value =>
            exact tracks_bind ((hread value (by simp [Instruction.operands])).operand hm)
              fun υ d d' s t _ hm _ _ hdd => tracks_pure hm (.done hdd)
        | unreachable => exact tracks_throw _
        | phi incoming => exact tracks_throw _
        | _ => exact go

/-- A block of a live function that control comes to on one of its edges. -/
structure Stands (e : Setting) (f : FunctionId) (previous : Option BlockId) (b : BlockId) :
    Prop where
  live : f ∈ e.module.liveFunctions
  inside : b ∈ e.module.blocksOf f
  edge : ∀ k ∈ previous, k ∈ e.module.predecessors f b

/-- Behind the phis of a verified block there are no others. -/
theorem Stands.phis (h : e.Stands f previous b) (hv : e.module.verify = .ok ()) :
    ∃ phis rest, e.module.instructions b = phis ++ rest ∧
      (∀ v ∈ phis, ∃ incoming, e.module.instruction? v = some (.phi incoming)) ∧
      ∀ v ∈ rest, ∀ i ∈ e.module.instruction? v, i.isPhi = false := by
  obtain ⟨last, -, hplaced⟩ := (verified_of_verify hv h.live).placed b h.inside
  exact hplaced.phis

end Setting
end SsaKit
