import SsaKit.Proofs.Host
import SsaKit.Proofs.WellShaped

/-! Type soundness: the values of a run have the shapes of their types at every point that it comes
by, and no fault of shapes comes up. -/
namespace SsaKit

namespace Module

variable {m : Module} {f : FunctionId} {v : ValueId}

theorem Sound.paramTypes_getElem? {n : Nat} (hs : m.Sound) (hn : (m.params f)[n]? = some v) :
    (m.paramTypes f)[n]? = some (m.typeOf v) := by
  have hf : m.HasFunction f := by
    by_contra hf
    have hdefault : m.function f = default := by
      simp [function_def, Array.getElem?_eq_none (Nat.le_of_not_lt hf)]
    simp [params, hdefault, default] at hn
  obtain ⟨result, types, isVariadic, he, hvalues⟩ := hs.functions f hf
  have htypes : m.paramTypes f = types := by simp [paramTypes, he, Ty.params]
  obtain ⟨hv, rfl⟩ := List.getElem?_eq_some_iff.mp hn
  have ht : n < types.length := hvalues.length_eq ▸ hv
  have htype : m.typeOf (m.params f)[n] = types[n] := (hvalues.get hv ht).2.1
  rw [htypes, htype, List.getElem?_eq_getElem ht]

theorem forall_instruction? {i : Instruction} {P : ValueId → Instruction → Prop}
    (h : ∀ n < m.values.size, ∀ i ∈ m.instruction? ⟨n⟩, P ⟨n⟩ i)
    (hi : m.instruction? v = some i) : P v i :=
  h v.index (has_of_kindOf (by simp [kindOf_of_instruction? hi])) i hi

end Module

namespace Setting

open Run SsaKit.Module

variable {e : Setting} {o : Order} {p q : Point} {f : FunctionId} {v : ValueId} {frame : Frame}
  {s : Machine} {levels : Nat}

/-- Where all instructions are plain, those that are executed are. -/
theorem executes_plain {m : Module} {host : Host} {limits : Limits}
    (h : ∀ n < m.values.size, ∀ i ∈ m.instruction? ⟨n⟩, m.isPlain ⟨n⟩ i) (p : Point) :
    ∀ v i s, (⟨m, host, limits⟩ : Setting).Executes p v i s → m.isPlain v i :=
  fun _ _ _ hx => forall_instruction? (P := fun v i => m.isPlain v i) h hx.2.1

/-! ### All points of a run -/

theorem fits_of_begins {args : List Datum} (hm : e.module.Certified o) (ha : e.Passes f args)
    (h : e.Begins levels f args s p) : e.Fits p := by
  obtain ⟨hr, hd, -, below, entry, -, hentry, henters⟩ := h
  exact (admits_entry hm hr hd hentry ha).fits hm henters

/-- The instruction at a point in its place is the first of those to come. -/
theorem Fits.head {i : Instruction} (hf : e.Fits p) (hx : e.Executes p v i s) :
    ∃ rest, p.pending = v :: rest ∧ ∀ g args, i = .call g args → e.module.isRemoved g = false := by
  obtain ⟨last, -, hplaced, -⟩ := hf.placed
  obtain ⟨rest, hl⟩ := List.head?_eq_some_iff.mp hx.1
  rw [hl] at hplaced
  cases hplaced with
  | cons hi _ =>
    obtain rfl := Option.some_inj.mp (hx.2.1.symm.trans hi.instruction)
    exact ⟨rest, hl, hi.callee⟩

/-- Only an instruction in the middle of a block has a result. -/
theorem middle_of_evaluate {i : Instruction} {callee : FunctionId → List Datum → Run Datum}
    {type : TypeId} {d : Datum} {t : Machine}
    (h : (e.evaluate callee frame type i).run.run s = (.ok d, t)) :
    i.isTerminator = false ∧ i.isPhi = false := by
  unfold evaluate at h
  cases i with
  | branch _ | condBranch _ _ _ | switch _ _ _ | ret _ | unreachable | phi _ => cases h
  | _ => exact ⟨rfl, rfl⟩

/-- Every step of a run leads to a point in its place. -/
theorem Fits.leads (hf : e.Fits p) (hm : e.module.Certified o) (hc : e.Clear p)
    (h : e.Leads p q) : e.Fits q := by
  have hk := delivers hm p.levels
  cases h with
  | next hx hr =>
    obtain ⟨rest, hl, hcallee⟩ := hf.head hx
    obtain ⟨ht, hphi⟩ := middle_of_evaluate hr
    have hd := executes_shaped hm hk hc hf hx hcallee
    rw [hr] at hd
    exact hf.next hl hx.2.1 ht hphi hd
  | jump hr henters =>
    have hframe := runInstructions_shaped hm hk hc hf
    rw [hr] at hframe
    exact (hf.admits hm hframe hr).fits hm henters
  | @enter _ v callee args data s t hx hr hbegins =>
    have hd := (operands_pass hm.sound hf.frame hx.2.1).2 s
    rw [hr] at hd
    exact fits_of_begins hm hd hbegins

theorem Fits.reaches (hf : e.Fits p) (hm : e.module.Certified o) (hc : e.Clear p)
    (h : Relation.ReflTransGen e.Leads p q) : e.Fits q := by
  induction h using Relation.ReflTransGen.head_induction_on with
  | refl => exact hf
  | head hl _ ih => exact ih (hf.leads hm hc hl) (hc.step hl)

/-! ### Whole runs -/

theorem arguments_pass (hs : e.module.Sound) (f : FunctionId) (args : List Box) :
    Fault.Ends (e.arguments f (e.module.paramTypes f) args) (e.Passes f) Fault.Shapely := by
  let fits (x : Box × Nat) (d : Datum) : Prop :=
    ∀ type ∈ (e.module.paramTypes f)[x.2]?, e.module.types.Shape type d
  have hdata : Fault.Ends (e.arguments f (e.module.paramTypes f) args)
      (List.Forall₂ fits args.zipIdx) Fault.Shapely := by
    refine Fault.ends_mapM fun x _ => ?_
    obtain ⟨arg, index⟩ := x
    dsimp only
    cases hp : (e.module.paramTypes f)[index]? with
    | none => exact fun type ht => by simp [hp] at ht
    | some type =>
      dsimp only
      cases hd : unboxAs e.module.types type arg with
      | none => rfl
      | some d =>
        intro type' ht
        obtain rfl : type = type' := by simpa [hp] using ht
        exact unboxAs_shaped hd
  refine hdata.mono (fun data hdata x hx => ?_) fun _ he => he
  obtain ⟨n, hn, rfl⟩ := List.mem_iff_getElem.mp hx
  have hv : n < (e.module.params f).length := by
    simp only [List.length_zip] at hn
    omega
  have hd : n < data.length := by
    simp only [List.length_zip] at hn
    omega
  have hz : n < args.zipIdx.length := hdata.length_eq ▸ hd
  have hshape : fits args.zipIdx[n] data[n] := hdata.get hz hd
  rw [List.getElem_zip]
  refine hshape _ ?_
  simpa using hs.paramTypes_getElem? (List.getElem?_eq_getElem hv)

section

variable {args : List Box} (hm : e.module.Certified o)
  (hplain : ∀ p, e.Visits f args p → ∀ v i s, e.Executes p v i s → e.module.isPlain v i)
include hm hplain

/-- Every point that a run comes by is in its place. -/
theorem Fits.of_visits (h : e.Visits f args p) : e.Fits p := by
  obtain ⟨htakes, data, start, hd, hbegins, hreaches⟩ := h
  have ha := arguments_pass hm.sound f args
  rw [hd] at ha
  exact (fits_of_begins hm ha hbegins).reaches hm
    (fun q hq => hplain q ⟨htakes, data, start, hd, hbegins, hq⟩) hreaches

theorem runFunction_shaped :
    Fault.Ends (e.runFunction f args) (fun _ => True) e.Excuses := by
  unfold runFunction
  by_cases hr : e.module.isRemoved f = true
  · simp only [hr, if_true]
    exact .inl rfl
  · have hr : e.module.isRemoved f = false := by simpa using hr
    simp only [hr, Bool.false_eq_true, if_false]
    have run (htakes : e.module.Takes f args.length) : Fault.Ends (do
        let data ← e.arguments f (e.module.paramTypes f) args
        box (← ((e.call e.limits.callDepth f data).run.run e.start).1)) (fun _ => True)
        e.Excuses := by
      have ha := arguments_pass hm.sound f args
      cases hd : e.arguments f (e.module.paramTypes f) args with
      | error fault =>
        rw [hd] at ha
        exact .inl ha
      | ok data =>
        rw [hd] at ha
        have hresult := delivers hm _ f data e.start hr ha fun p hp q hq =>
          hplain q ⟨htakes, data, p, hd, hp, hq⟩
        change Fault.Ends (((e.call e.limits.callDepth f data).run.run e.start).1 >>= box) _ _
        rw [Fault.ends_bind]
        refine hresult.mono (fun d _ => ?_) fun _ he => he
        exact (box_shapely d).mono (fun _ h => h) fun _ he => .inl he
    split
    · rename_i htakes
      exact run htakes
    · exact .inl rfl

end

end Setting

open Setting in
/-- Type soundness. When a module is built without linking old instructions anew and passes
verification, every run that executes plain instructions only keeps the shapes of all values, never
takes a member that an aggregate does not have, and never meets a fault of shapes, unless a host
function hands it in. -/
theorem Module.Built.shapes_kept {m : Module} (h : m.Built) (hv : m.verify = .ok ()) (host : Host)
    (limits : Limits) (f : FunctionId) (args : List Box)
    (hplain : ∀ p, (⟨m, host, limits⟩ : Setting).Visits f args p → ∀ v i s,
      (⟨m, host, limits⟩ : Setting).Executes p v i s → m.isPlain v i) :
    let e : Setting := ⟨m, host, limits⟩
    (∀ p, e.Visits f args p → m.Shapes p.frame ∧ ∀ v i s fault, e.Executes p v i s →
      i.takesMember →
      ((e.evaluate (e.call p.levels) p.frame (m.typeOf v) i).run.run s).1 = .error fault →
      fault.isMember = false) ∧
    ∀ fault, e.runFunction f args = .error fault →
      fault.breaksShape = false ∨ ∃ name boxes, host.call name boxes = .error fault := by
  intro e
  have hm : e.module.Certified m.order := h.certified hv
  refine ⟨fun p hp => ?_, fun fault hr => ?_⟩
  · have hf : e.Fits p := .of_visits hm hplain hp
    refine ⟨hf.frame, fun v i s fault hx ht hr => ?_⟩
    have hmember : Fault.Ends
        ((e.evaluate (e.call p.levels) p.frame (m.typeOf v) i).run.run s).1 (fun _ => True)
        fun fault => fault.isMember = false :=
      evaluate_member hm.sound hf.frame hx.2.1 ht s
    rw [hr] at hmember
    exact hmember
  · have hends : Fault.Ends (e.runFunction f args) (fun _ => True) e.Excuses :=
      runFunction_shaped hm hplain
    rw [hr] at hends
    exact hends

theorem built_scaled : scaled.Built :=
  Builder.Replays.built (by decide +kernel) (by decide) (Builder.built_empty "scaling")

open Setting in
/-- The scaling program comes by its entry at least, and keeps the shapes of all values. -/
theorem scaled_shapes_kept :
    let e : Setting := { module := scaled.module }
    (∃ p, e.Visits ⟨0⟩ [.int 32 5] p) ∧ (∀ p, e.Visits ⟨0⟩ [.int 32 5] p →
      e.module.Shapes p.frame) ∧ ∀ fault, e.runFunction ⟨0⟩ [.int 32 5] = .error fault →
        fault.breaksShape = false := by
  intro e
  have hkept := Module.Built.shapes_kept built_scaled.module (by decide +kernel) .standard {} ⟨0⟩
    [.int 32 5] fun p _ => executes_plain (by decide +kernel) p
  refine ⟨?_, fun p hp => by simpa only [e] using (hkept.1 p hp).1, fun fault hr => ?_⟩
  · let frame : Frame := Std.TreeMap.ofList ((e.module.params ⟨0⟩).zip [Datum.int 32 5])
    have hphis : e.readPhis ⟨0⟩ ⟨0⟩ none frame (e.module.instructions ⟨0⟩) =
        pure ([], e.module.instructions ⟨0⟩) := readPhis_stop e (by decide +kernel)
    have hdata : e.arguments ⟨0⟩ (e.module.paramTypes ⟨0⟩) [.int 32 5] = .ok [.int 32 5] := by
      decide +kernel
    let entry : Point := ⟨511, ⟨0⟩, ⟨0⟩, e.module.instructions ⟨0⟩, frame.insertMany [],
      { e.start with depth := 1 }⟩
    have henters : e.Enters 511 ⟨0⟩ none ⟨0⟩ frame { e.start with depth := 1 } entry :=
      ⟨[], _, _, by rw [hphis]; rfl, rfl⟩
    refine ⟨entry, .inl (by decide +kernel), [.int 32 5], entry, hdata, ?_, .refl⟩
    exact ⟨by decide +kernel, by decide +kernel, by decide, 511, ⟨0⟩, rfl, by decide +kernel,
      henters⟩
  · obtain h | ⟨name, boxes, h⟩ := hkept.2 fault hr
    · exact h
    · have hshapely := Host.standard_shapely name boxes
      rw [h] at hshapely
      exact hshapely

/-- The calls that make something new, or move the cursor. -/
def Call.constructs : Call → Bool
  | layout (.appendBlock _ _) | layout (.insertBlockBefore _ _) => true
  | layout _ | symbol (.removeGlobal _) | symbol (.removeFunction _) => false
  | _ => true

/-- A program with a jump out of the body of one function into that of another, whose result has
another type. -/
def straying : List Call :=
  [.types (.ofType .double),
    .types (.ofType (.int 32)),
    .types (.ofType (.int 1)),
    .constant (.float ⟨0⟩ ⟨0x3ff0000000000000⟩),
    .symbol (.declareFunction "f" ⟨0⟩ [] false),
    .layout (.appendBlock ⟨0⟩ "entry"),
    .setCursor (some { block := ⟨0⟩ }),
    .emission (.ret ⟨0⟩),
    .symbol (.declareFunction "g" ⟨1⟩ [] false),
    .layout (.appendBlock ⟨1⟩ "entry"),
    .setCursor (some { block := ⟨1⟩ }),
    .emission (.br ⟨0⟩),
    .symbol (.declareFunction "main" ⟨2⟩ [] false),
    .layout (.appendBlock ⟨2⟩ "entry"),
    .setCursor (some { block := ⟨2⟩ }),
    .emission (.call ⟨1⟩ []),
    .emission (.icmp .eq ⟨3⟩ ⟨3⟩),
    .emission (.ret ⟨4⟩)]

/-- The builder after those calls. -/
def strayed : Builder := Builder.replay { module := { name := "straying" } } straying

theorem strayed_runs : (⟨strayed.module, .standard, {}⟩ : Setting).runFunction ⟨2⟩ [] =
    .error (.cannotCompare (.double ⟨0x3ff0000000000000⟩) (.double ⟨0x3ff0000000000000⟩)) := by
  decide +kernel

/-- Without verification the result of a call may have another shape than its type says, and
comparing it breaks the run. -/
theorem strayed_shape_broken :
    let e : Setting := { module := strayed.module }
    (∀ c ∈ straying, c.constructs) ∧ strayed.Built ∧ (∀ p, e.Visits ⟨2⟩ [] p → ∀ v i s,
      e.Executes p v i s → e.module.isPlain v i) ∧ ∃ fault, e.runFunction ⟨2⟩ [] = .error fault ∧
        fault.breaksShape ∧ ∀ name boxes, e.host.call name boxes ≠ .error fault := by
  intro e
  have hbuilt : strayed.Built :=
    Builder.Replays.built (by decide +kernel) (by decide) (Builder.built_empty "straying")
  have hplain (p : Point) := @Setting.executes_plain strayed.module .standard {}
    (by decide +kernel) p
  refine ⟨by decide, hbuilt, fun p _ => by simpa only [e] using hplain p, _, strayed_runs, rfl,
    fun name boxes h => ?_⟩
  have hshapely := Host.standard_shapely name boxes
  rw [h] at hshapely
  cases hshapely

end SsaKit
