import SsaKit.Proofs.Fault
import SsaKit.Proofs.Word

/-! Where steps of a run end, and that reading and computing never break control flow. -/
namespace SsaKit

namespace Run

variable {α β : Type} {ok ok' : α → Prop} {failed failed' : Fault → Prop}

/-- From every machine a successful step ends in `ok` with its result, a failed one in `failed`. -/
def Ends (step : Run α) (ok : α → Prop) (failed : Fault → Prop) : Prop :=
  ∀ s, Fault.Ends (step.run.run s).1 ok failed

theorem run_bind (step : Run β) (next : β → Run α) (s : Machine) :
    (step >>= next).run.run s = match step.run.run s with
      | (.ok b, t) => (next b).run.run t
      | (.error e, t) => (.error e, t) := by
  simp only [bind, ExceptT.bind, ExceptT.mk, ExceptT.run, StateT.run, StateT.bind]
  rcases step s with ⟨_ | _, t⟩ <;> rfl

/-- Where both steps succeed, the second one goes on from what the first one leaves. -/
theorem run_bind_eq_ok {step : Run β} {next : β → Run α} {a : α} {s t : Machine}
    (h : (step >>= next).run.run s = (.ok a, t)) :
    ∃ b s', step.run.run s = (.ok b, s') ∧ (next b).run.run s' = (.ok a, t) := by
  rw [run_bind] at h
  rcases hs : step.run.run s with ⟨e | b, s'⟩
  · rw [hs] at h
    cases h
  · rw [hs] at h
    exact ⟨b, s', rfl, h⟩

theorem run_get (s : Machine) : (get : Run Machine).run.run s = (.ok s, s) := rfl

theorem Ends.mono {step : Run α} (h : Ends step ok failed) (hok : ∀ a, ok a → ok' a)
    (hfailed : ∀ e, failed e → failed' e) : Ends step ok' failed' :=
  fun s => (h s).mono hok hfailed

theorem ends_somehow (step : Run α) : Ends step (fun _ => True) fun _ => True := by
  intro s
  cases (step.run.run s).1 <;> trivial

theorem ends_pure {a : α} (h : ok a) : Ends (pure a) ok failed := fun _ => h

theorem ends_throw {e : Fault} (h : failed e) : Ends (throw e : Run α) ok failed := fun _ => h

theorem ends_bind {step : Run β} {next : β → Run α} {mid : β → Prop} (h : Ends step mid failed)
    (hn : ∀ b, mid b → Ends (next b) ok failed) : Ends (step >>= next) ok failed := by
  intro s
  have hs := h s
  rw [run_bind]
  rcases hr : step.run.run s with ⟨e | b, t⟩
  · rw [hr] at hs
    exact hs
  · rw [hr] at hs
    exact hn b hs t

theorem ends_bind_any {step : Run β} {next : β → Run α} (h : Ends step (fun _ => True) failed)
    (hn : ∀ b, Ends (next b) ok failed) : Ends (step >>= next) ok failed :=
  ends_bind h fun b _ => hn b

/-- What follows a step needs to agree only on the results that the step may have. -/
theorem bind_congr_of_ends {step : Run β} {next next' : β → Run α} {ok : β → Prop}
    {failed : Fault → Prop} (h : Ends step ok failed) (hn : ∀ b, ok b → next b = next' b) :
    step >>= next = step >>= next' := by
  refine ExceptT.ext (funext fun s => ?_)
  change (step >>= next).run.run s = (step >>= next').run.run s
  have hs := h s
  rw [run_bind, run_bind]
  rcases hr : step.run.run s with ⟨e | b, t⟩
  · rfl
  · rw [hr] at hs
    exact congrArg (fun step : Run α => step.run.run t) (hn b hs)

theorem ends_get {ok : Machine → Prop} (h : ∀ s, ok s) : Ends (get : Run Machine) ok failed := h

theorem ends_modify {f : Machine → Machine} {ok : PUnit → Prop} (h : ok ()) :
    Ends (modify f : Run PUnit) ok failed :=
  fun _ => h

theorem ends_modifyGet {f : Machine → α × Machine} (h : ∀ s, ok (f s).1) :
    Ends (modifyGet f : Run α) ok failed := h

theorem ends_ofExcept {r : Except Fault α} (h : Fault.Ends r ok failed) :
    Ends (ofExcept r) ok failed :=
  fun _ => h

theorem ends_nested {step : Run α} (h : Ends step ok failed) : Ends (nested step) ok failed :=
  fun s => h { s with depth := s.depth + 1 }

theorem ends_mapM {f : β → Run α} {P : β → α → Prop} {xs : List β}
    (h : ∀ x ∈ xs, Ends (f x) (P x) failed) : Ends (xs.mapM f) (List.Forall₂ P xs) failed := by
  induction xs with
  | nil => exact ends_pure .nil
  | cons x xs ih =>
    rw [List.mapM_cons]
    refine ends_bind (h x (by simp)) fun a ha => ?_
    exact ends_bind (ih fun y hy => h y (by simp [hy])) fun as has => ends_pure (.cons ha has)

theorem ends_foldlM {f : α → β → Run α} {xs : List β} {a : α} (ha : ok a)
    (h : ∀ a, ok a → ∀ x ∈ xs, Ends (f a x) ok failed) : Ends (xs.foldlM f a) ok failed := by
  induction xs generalizing a with
  | nil => exact ends_pure ha
  | cons x xs ih =>
    rw [List.foldlM_cons]
    exact ends_bind (h a ha x (by simp)) fun b hb =>
      ih hb fun c hc y hy => h c hc y (by simp [hy])

/-! ### Steps that only fail for reasons of limits and memory -/

/-- A step that only fails for reasons of limits, of memory and of values that are not there. -/
abbrev Tamely (step : Run α) : Prop := Ends step (fun _ => True) Fault.Tame

abbrev Physically (step : Run α) : Prop := Ends step (fun _ => True) Fault.Physical

theorem Physically.tamely {step : Run α} (h : Physically step) : Tamely step :=
  h.mono (fun _ _ => trivial) fun _ he => he.1

theorem tick_physically (limit : Nat) : Physically (tick limit) := by
  unfold tick
  refine ends_bind_any (ends_modify trivial) fun _ => ?_
  refine ends_bind_any (ends_get fun _ => trivial) fun s => ?_
  split
  · exact ends_throw ⟨⟨rfl, ⟨rfl, rfl⟩, rfl⟩, rfl⟩
  · exact ends_pure trivial

theorem allocate_physically (host : Host) (t : TypeTable) (type : TypeId) (count : Nat)
    (isStack : Bool) : Physically (allocate host t type count isStack) := by
  unfold allocate
  refine ends_bind_any (ends_get fun _ => trivial) fun s => ?_
  refine ends_bind_any (ends_ofExcept (Memory.newRow_physically _ _ _ _ _ _)) fun row => ?_
  exact ends_modifyGet fun _ => trivial

theorem load_fails {failed : Fault → Prop} (h : ∀ fault : Fault, fault.Firm → failed fault)
    (target : Option Pointer) : Ends (load target) (fun _ => True) failed := by
  unfold load
  refine ends_bind (ends_get fun _ => trivial) fun s _ => ?_
  exact ends_ofExcept ((Memory.load_firmly s.memory target).mono (fun _ _ => trivial) h)

theorem store_fails {failed : Fault → Prop} (h : ∀ fault : Fault, fault.Firm → failed fault)
    (target : Option Pointer) (d : Datum) : Ends (store target d) (fun _ => True) failed := by
  unfold store
  refine ends_bind (ends_get fun _ => trivial) fun s _ => ?_
  refine ends_bind (ends_ofExcept ((Memory.changedCell_firmly s.memory target d).mono
    (fun _ h => h) h)) fun r _ => ?_
  exact ends_modify trivial

theorem load_physically (target : Option Pointer) : Physically (load target) :=
  load_fails (fun _ h => h.1) target

theorem store_physically (target : Option Pointer) (d : Datum) : Physically (store target d) :=
  store_fails (fun _ h => h.1) target d

end Run

/-! ### Frames -/

instance {entity : Entity} : Std.TransOrd (Handle entity) :=
  inferInstanceAs (Std.TransCmp (compareOn Handle.index))

instance {entity : Entity} : Std.LawfulEqOrd (Handle entity) where
  eq_of_compare {j k} h := by
    obtain ⟨j⟩ := j
    obtain ⟨k⟩ := k
    exact congrArg Handle.mk (Nat.compare_eq_eq.mp h)

/-- What is found behind an insertion. -/
theorem getElem?_insert {entity : Entity} {α : Type} {t : Std.TreeMap (Handle entity) α}
    {j k : Handle entity} {a : α} : (t.insert j a)[k]? = if j = k then some a else t[k]? := by
  rw [Std.TreeMap.getElem?_insert]
  simp only [Std.LawfulEqCmp.compare_eq_iff_eq]

namespace Frame

variable {P : ValueId → Datum → Prop} {frame : Frame} {v : ValueId} {d : Datum}
  {l : List (ValueId × Datum)}

theorem forall_insert (h : ∀ w x, frame[w]? = some x → P w x) (hd : P v d) :
    ∀ w x, (frame.insert v d)[w]? = some x → P w x := by
  intro w x hx
  rw [getElem?_insert] at hx
  split at hx
  · rename_i hvw
    obtain rfl := hvw
    obtain rfl := Option.some_inj.mp hx
    exact hd
  · exact h w x hx

theorem forall_insertMany (h : ∀ w x, frame[w]? = some x → P w x) (hl : ∀ y ∈ l, P y.1 y.2) :
    ∀ w x, (frame.insertMany l)[w]? = some x → P w x := by
  induction l generalizing frame with
  | nil => simpa using h
  | cons y l ih =>
    obtain ⟨v, d⟩ := y
    rw [Std.TreeMap.insertMany_cons]
    exact ih (forall_insert h (hl (v, d) (by simp))) fun z hz => hl z (by simp [hz])

theorem forall_ofList (hl : ∀ y ∈ l, P y.1 y.2) :
    ∀ w x, (Std.TreeMap.ofList l : Frame)[w]? = some x → P w x := by
  rw [Std.TreeMap.ofList_eq_insertMany_empty]
  exact forall_insertMany (by simp) hl

end Frame

/-- What a constant is made of, or what a global starts with. -/
def ValueKind.parts : ValueKind → List ValueId
  | aggregate elements => elements
  | global g => g.initializer.toList
  | _ => []

namespace Setting

open Run

variable (e : Setting) {frame : Frame}

/-- The storage of a global that has none yet. -/
def newStorage (constant : ValueId → Run Datum) (v : ValueId) (g : Global) : Run Pointer := do
  let p ← Run.allocate e.host e.module.types g.valueType 1 false
  modify fun s => { s with globals := s.globals.insert v p }
  if let some init := g.initializer then
    Run.store (some p) (← constant init)
  return p

/-- A value that is not constant, read in a frame. -/
def framed (frame : Frame) (v : ValueId) : Run Datum :=
  match frame[v]? with
  | some d => return d
  | none => throw (.undefined v.index)

theorem storage_run (constant : ValueId → Run Datum) (v : ValueId) (g : Global) (s : Machine) :
    (e.storage constant v g).run.run s = match s.globals[v]? with
      | some p => (.ok p, s)
      | none => if e.module.isListed v then (e.newStorage constant v g).run.run s
        else (.error (.removedGlobal v.index), s) := by
  unfold storage
  rw [run_bind, run_get]
  cases hv : s.globals[v]? with
  | some p =>
    simp only [hv]
    rfl
  | none =>
    simp only [hv]
    by_cases hl : e.module.isListed v
    · simp only [hl, if_true]
      rfl
    · simp only [hl, Bool.false_eq_true, if_false]
      rfl

/-- The storage of a global fails for reasons of memory, because its content does, or because it is
not listed. -/
theorem storage_ends {constant : ValueId → Run Datum} {failed : Fault → Prop} {g : Global}
    {v : ValueId} (hfailed : ∀ fault, fault.Physical → failed fault)
    (hremoved : e.module.isListed v = false → failed (.removedGlobal v.index))
    (h : ∀ init ∈ g.initializer, Ends (constant init) (fun _ => True) failed) :
    Ends (e.storage constant v g) (fun _ => True) failed := by
  have physical {α : Type} {step : Run α} (ht : Physically step) :
      Ends step (fun _ => True) failed :=
    ht.mono (fun _ _ => trivial) hfailed
  unfold storage
  refine ends_bind (ends_get fun _ => trivial) fun s _ => ?_
  split
  · exact ends_pure trivial
  · have make : Ends (e.newStorage constant v g) (fun _ => True) failed := by
      unfold newStorage
      refine ends_bind (physical (allocate_physically _ _ _ _ _)) fun p _ => ?_
      refine ends_bind (physical (ends_modify trivial)) fun _ _ => ?_
      split
      · rename_i init hi
        refine ends_bind (h init hi) fun d _ => ?_
        exact ends_bind (physical (store_physically _ _)) fun _ _ => ends_pure trivial
      · exact ends_pure trivial
    by_cases hl : e.module.isListed v
    · simp only [hl, if_true]
      exact make
    · simp only [hl, Bool.false_eq_true, if_false]
      have hthrow := hremoved (by simpa using hl)
      exact ends_bind_any (ends_throw hthrow) fun _ => make

section

variable {failed : Fault → Prop} {among : ValueId → Prop}
  (hphysical : ∀ fault, fault.Physical → failed fault)
  (hconstant : ∀ v : ValueId, failed (.notConstant v.index))
  (hparts : ∀ v, among v → ∀ w ∈ (e.module.kindOf v).parts, among w)
  (hremoved : ∀ v g, among v → e.module.kindOf v = .global g → e.module.isListed v = false →
    failed (.removedGlobal v.index))
include hphysical hconstant hparts hremoved

/-- A constant is read unless memory, what it is made of, or a global off the list stops it. -/
theorem constant_ends (fuel : Nat) {v : ValueId} (hv : among v) :
    Ends (e.constant fuel v) (fun _ => True) failed := by
  induction fuel generalizing v with
  | zero => exact ends_throw (hconstant v)
  | succ fuel ih =>
    have hpart := hparts v hv
    unfold constant
    dsimp only
    cases hk : (e.module.value v).kind with
    | int _ | float _ | null | bytes _ => exact ends_pure trivial
    | undef =>
      refine ends_bind (ends_get fun _ => trivial) fun s _ => ?_
      have hzero := s.memory.zero_ends e.host e.module.types (e.module.value v).type
      exact ends_ofExcept (hzero.mono (fun _ _ => trivial) hphysical)
    | aggregate elements =>
      have hk : e.module.kindOf v = .aggregate elements := hk
      rw [hk] at hpart
      exact ends_bind (ends_mapM fun w hw => ih (hpart w hw)) fun _ _ => ends_pure trivial
    | global g =>
      have hk : e.module.kindOf v = .global g := hk
      rw [hk] at hpart
      have hinit (init : ValueId) (hi : init ∈ g.initializer) :
          Ends (e.constant fuel init) (fun _ => True) failed :=
        ih (hpart init (by simpa [ValueKind.parts] using hi))
      exact ends_bind (e.storage_ends hphysical (hremoved v g hv hk) hinit) fun _ _ =>
        ends_pure trivial
    | argument _ _ | instruction _ => exact ends_throw (hconstant v)

theorem operand_ends (hundefined : ∀ v : ValueId, failed (.undefined v.index)) (frame : Frame)
    {v : ValueId} (hv : among v) : Ends (e.operand frame v) (fun _ => True) failed := by
  have found : Ends (framed frame v) (fun _ => True) failed := by
    unfold framed
    split
    · exact ends_pure trivial
    · exact ends_throw (hundefined v)
  unfold operand
  split
  · exact found
  · exact found
  · exact e.constant_ends hphysical hconstant hparts hremoved _ hv

end

theorem operand_tamely (frame : Frame) (v : ValueId) : Tamely (e.operand frame v) :=
  e.operand_ends (fun _ he => he.1) (fun _ => ⟨rfl, ⟨rfl, rfl⟩, rfl⟩) (fun _ _ _ _ => trivial)
    (fun _ _ _ _ _ => ⟨rfl, ⟨rfl, rfl⟩, rfl⟩) (fun _ => ⟨rfl, ⟨rfl, rfl⟩, rfl⟩) frame trivial

/-- A signed reading has 64 bits. -/
theorem signedOperand_bounds (frame : Frame) (v : ValueId) :
    Ends (e.signedOperand frame v) (fun n => -2 ^ 63 ≤ n ∧ n < 2 ^ 63) fun _ => True := by
  refine ends_bind (ends_somehow _) fun d _ => ends_ofExcept ?_
  rw [Datum.asSigned, Fault.ends_map]
  cases d with
  | int bits word => exact Word.signed_bounds bits word
  | _ => trivial

/-- An integer constant reads as its word. -/
theorem operand_of_word {e : Setting} {v : ValueId} {bits : Nat} {word : UInt64}
    (hk : e.module.kindOf v = .int word)
    (ht : e.module.types.entry (e.module.typeOf v) = .int bits) (frame : Frame) :
    e.operand frame v = pure (.int bits word) := by
  have hd : e.wordDatum (e.module.typeOf v) word = .int bits word := by
    simp [wordDatum, TypeTable.intWidth, ht, Ty.intWidth]
  unfold operand
  rw [hk]
  dsimp only
  have hdepth : e.constantDepth =
      (e.module.values.size + 1) * e.module.values.size + e.module.values.size + 1 := by
    rw [constantDepth, Nat.mul_succ]
    omega
  rw [hdepth, constant]
  have hk : (e.module.value v).kind = .int word := hk
  simp only [hk]
  exact congrArg pure hd

theorem elementIndex_plainly (index : Int) : Fault.Plainly (elementIndex index) := by
  unfold elementIndex
  split <;> trivial

/-- A step to another place fails plainly, except for an overflow where this is checked. -/
theorem advance_fails {host : Host} {failed : Fault → Prop}
    (hplain : ∀ fault : Fault, fault.Plain → fault.isCrash = false → failed fault)
    (hover : host.isChecked → failed (.crash .overflow)) (p : Pointer) (offset : Int) :
    Fault.Ends (advance host p offset) (fun _ => True) failed := by
  unfold advance
  split
  · rw [Fault.ends_bind]
    refine (host.ends_sum _ _ hover).mono (fun sum _ => ?_) fun _ he => he
    rw [Fault.ends_bind]
    exact (elementIndex_plainly sum).mono (fun _ _ => trivial) fun fault hf => hplain fault hf.1 hf.2
  · rw [Fault.ends_bind]
    exact (host.ends_sum _ _ hover).mono (fun _ _ => trivial) fun _ he => he

theorem enter_plainly (p : Pointer) (index : Int) : Fault.Plainly (enter p index) :=
  Fault.Ends.bind_any (elementIndex_plainly index) fun _ => trivial

theorem box_plainly (d : Datum) : Fault.Plainly (box d) := by
  cases d <;> trivial

/-- A function of the host fails as the host makes it fail, and plainly at the border. -/
theorem callHost_fails {failed : Fault → Prop}
    (hplain : ∀ fault : Fault, fault.Plain → fault.isCrash = false → failed fault)
    (hhost : ∀ name boxes fault, e.host.call name boxes = .error fault → failed fault)
    (f : FunctionId) (args : List Datum) :
    Fault.Ends (e.callHost f args) (fun _ => True) failed := by
  unfold callHost
  simp only [Fault.ends_bind]
  refine (Fault.plainly_mapM fun d _ => box_plainly d).mono (fun boxes _ => ?_)
    fun fault hf => hplain fault hf.1 hf.2
  cases hr : e.host.call (e.module.functionName f) boxes with
  | ok result =>
    simp only [Fault.ends_ok]
    split
    · trivial
    · exact hplain _ ⟨rfl, rfl⟩ rfl
  | error fault => exact hhost _ _ _ hr

/-! ### One block after the other -/

theorem mem_of_lookup {κ α : Type} [BEq κ] [LawfulBEq κ] {xs : List (κ × α)} {k : κ} {a : α}
    (h : xs.lookup k = some a) : (k, a) ∈ xs := by
  obtain ⟨l, r, rfl, -⟩ := List.lookup_eq_some_iff.mp h
  simp

/-- What a phi takes on the edge just taken. -/
def readPhi (f : FunctionId) (b : BlockId) (previous : Option BlockId) (frame : Frame)
    (v : ValueId) (incoming : List (BlockId × ValueId)) : Run (ValueId × Datum) :=
  match previous with
  | none => throw (.phiInEntry (e.module.functionName f))
  | some source => match incoming.lookup source with
    | none => throw (.noIncoming (e.module.label b) (e.module.label source))
    | some value => do return (v, ← e.operand frame value)

theorem readPhis_phi {f : FunctionId} {b : BlockId} {previous : Option BlockId} {v : ValueId}
    {rest : List ValueId} {incoming : List (BlockId × ValueId)}
    (hv : e.module.instruction? v = some (.phi incoming)) :
    e.readPhis f b previous frame (v :: rest) = (do
      let p ← e.readPhi f b previous frame v incoming
      let (merged, others) ← e.readPhis f b previous frame rest
      return (p :: merged, others)) := by
  rw [readPhis, hv]
  unfold readPhi
  cases previous with
  | none => rfl
  | some source =>
    dsimp only
    cases incoming.lookup source with
    | none => rfl
    | some value =>
      dsimp only
      rw [bind_assoc]
      rfl

theorem readPhis_stop {f : FunctionId} {b : BlockId} {previous : Option BlockId}
    {l : List ValueId} (hl : ∀ v ∈ l.head?, ∀ i ∈ e.module.instruction? v, i.isPhi = false) :
    e.readPhis f b previous frame l = pure ([], l) := by
  cases l with
  | nil => rfl
  | cons v rest =>
    rw [readPhis]
    split
    · rename_i incoming hi
      simpa [Instruction.isPhi] using hl v rfl _ hi
    · rfl

theorem head_not_phi {m : Module} {v : ValueId} {l : List ValueId}
    (hv : ¬ ∃ incoming, m.instruction? v = some (.phi incoming)) :
    ∀ w ∈ (v :: l).head?, ∀ i ∈ m.instruction? w, i.isPhi = false := by
  intro w hw i hi
  obtain rfl : v = w := by simpa using hw
  cases i with
  | phi incoming => exact (hv ⟨incoming, hi⟩).elim
  | _ => rfl

/-- Code is made of the phis at its head and of what follows them. -/
theorem phis_split (m : Module) (l : List ValueId) : ∃ phis rest, l = phis ++ rest ∧
    (∀ v ∈ phis, ∃ incoming, m.instruction? v = some (.phi incoming)) ∧
    ∀ v ∈ rest.head?, ∀ i ∈ m.instruction? v, i.isPhi = false := by
  induction l with
  | nil => exact ⟨[], [], rfl, by simp, by simp⟩
  | cons v l ih =>
    by_cases hv : ∃ incoming, m.instruction? v = some (.phi incoming)
    · obtain ⟨phis, rest, rfl, hphis, hrest⟩ := ih
      refine ⟨v :: phis, rest, rfl, fun w hw => ?_, hrest⟩
      rcases List.mem_cons.mp hw with rfl | hw
      · exact hv
      · exact hphis w hw
    · exact ⟨[], v :: l, rfl, by simp, head_not_phi hv⟩

theorem readPhis_rest {f : FunctionId} {b : BlockId} {previous : Option BlockId}
    {phis rest : List ValueId}
    (hphis : ∀ v ∈ phis, ∃ incoming, e.module.instruction? v = some (.phi incoming))
    (hrest : ∀ v ∈ rest.head?, ∀ i ∈ e.module.instruction? v, i.isPhi = false) :
    Run.Ends (e.readPhis f b previous frame (phis ++ rest)) (fun r => r.2 = rest) fun _ => True := by
  induction phis with
  | nil =>
    rw [List.nil_append, readPhis_stop e hrest]
    exact ends_pure rfl
  | cons v phis ih =>
    obtain ⟨incoming, hi⟩ := hphis v (by simp)
    rw [List.cons_append, readPhis_phi e hi]
    refine ends_bind (ends_somehow _) fun p _ => ?_
    exact ends_bind (ih fun w hw => hphis w (by simp [hw])) fun r hr => ends_pure hr

/-- An instruction that does not end the block leaves its result in the frame. -/
theorem runInstructions_other {callee : FunctionId → List Datum → Run Datum} {f : FunctionId}
    {b : BlockId} {v : ValueId} {rest : List ValueId} {i : Instruction}
    (hv : e.module.instruction? v = some i) (hp : i.isPhi = false)
    (ht : i.isTerminator = false) :
    e.runInstructions callee f b (v :: rest) frame = (do
      Run.tick e.limits.steps
      let d ← e.evaluate callee frame (e.module.typeOf v) i
      e.runInstructions callee f b rest (frame.insert v d)) := by
  rw [runInstructions, hv]
  cases i <;> first | rfl | exact Bool.noConfusion hp | exact Bool.noConfusion ht

/-- One block: its phis on the edge just taken, then the instructions behind them. -/
def runBlock (callee : FunctionId → List Datum → Run Datum) (f : FunctionId)
    (previous : Option BlockId) (b : BlockId) (frame : Frame) : Run Flow := do
  let (merged, rest) ← e.readPhis f b previous frame (e.module.instructions b)
  e.runInstructions callee f b rest (frame.insertMany merged)

theorem runBlocks_eq (callee : FunctionId → List Datum → Run Datum) (f : FunctionId) (fuel : Nat)
    (previous : Option BlockId) (b : BlockId) (frame : Frame) :
    e.runBlocks callee f fuel previous b frame =
      e.runBlock callee f previous b frame >>= fun
        | .done result => pure result
        | .jump dest frame => match fuel with
          | 0 => throw (.stepLimit e.limits.steps)
          | fuel + 1 => e.runBlocks callee f fuel (some b) dest frame := by
  conv_lhs => unfold runBlocks
  refine Eq.trans ?_ (bind_assoc _ _ _).symm
  refine bind_congr fun r => ?_
  obtain ⟨merged, rest⟩ := r
  refine bind_congr fun flow => ?_
  cases flow with
  | done result => rfl
  | jump dest frame => cases fuel <;> rfl

/-! ### What a call is -/

section

variable {e} {f : FunctionId} {data : List Datum} {s t : Machine} {levels : Nat}

theorem call_run (levels : Nat) (data : List Datum) (s : Machine) :
    (e.call levels f data).run.run s =
      if e.module.isRemoved f then (.error .removedCallee, s)
      else if e.module.isDeclaration f then (e.callHost f data, s)
      else if e.limits.callDepth ≤ s.depth then
        (.error (.callDepth e.limits.callDepth (e.module.functionName f)), s)
      else match levels with
        | 0 => (.error (.callDepth e.limits.callDepth (e.module.functionName f)), s)
        | below + 1 => (nested (e.execute (e.call below) f data)).run.run s := by
  unfold call
  by_cases hr : e.module.isRemoved f
  · simp only [hr, if_true]
    rfl
  · simp only [hr, Bool.false_eq_true, if_false]
    by_cases hd : e.module.isDeclaration f
    · simp only [hd, if_true]
      rfl
    · simp only [hd, Bool.false_eq_true, if_false]
      rw [run_bind, run_get]
      dsimp only
      split
      · rfl
      · cases levels <;> rfl

theorem call_declared (hr : e.module.isRemoved f = false) (hd : e.module.isDeclaration f = true) :
    (e.call levels f data).run.run s = (e.callHost f data, s) := by
  simp [call_run, hr, hd]

theorem call_defined (hr : e.module.isRemoved f = false) (hd : e.module.isDeclaration f = false)
    (hdepth : s.depth < e.limits.callDepth) :
    (e.call (levels + 1) f data).run.run s =
      (nested (e.execute (e.call levels) f data)).run.run s := by
  simp [call_run, hr, hd, Nat.not_le_of_lt hdepth]

/-- A call that succeeds went to the host, or to a body below which there was a level left. -/
theorem call_eq_ok {d : Datum} (h : (e.call levels f data).run.run s = (.ok d, t)) :
    e.module.isRemoved f = false ∧
      (e.module.isDeclaration f = true ∧ e.callHost f data = .ok d ∧ t = s ∨
        e.module.isDeclaration f = false ∧ s.depth < e.limits.callDepth ∧ ∃ below,
          levels = below + 1 ∧
          (nested (e.execute (e.call below) f data)).run.run s = (.ok d, t)) := by
  rw [call_run] at h
  split at h
  · cases h
  · rename_i hr
    refine ⟨by simpa using hr, ?_⟩
    split at h
    · rename_i hd
      obtain ⟨hhost, rfl⟩ := Prod.mk.inj h
      exact .inl ⟨hd, hhost, rfl⟩
    · rename_i hd
      split at h
      · cases h
      · rename_i hdepth
        cases levels with
        | zero => cases h
        | succ below => exact .inr ⟨by simpa using hd, Nat.lt_of_not_le hdepth, below, rfl, h⟩

end

end Setting
end SsaKit
