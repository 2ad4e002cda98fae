import SsaKit.Proofs.IntegerCast
import SsaKit.Proofs.Parallel

/-! Exact costs. A step that counts a number of steps on its way comes to its result wherever the limit
leaves room for them, and runs into the limit everywhere else. -/
namespace SsaKit

/-- The machine after more counted steps, and as it was otherwise. -/
def Machine.after (s : Machine) (n : Nat) : Machine := { s with steps := s.steps + n }

namespace Machine

variable (s : Machine) (m n : Nat)

@[simp] theorem after_zero : s.after 0 = s := rfl

@[simp] theorem after_steps : (s.after n).steps = s.steps + n := rfl

@[simp] theorem after_depth : (s.after n).depth = s.depth := rfl

@[simp] theorem after_after : (s.after m).after n = s.after (m + n) := by
  simp [after, Nat.add_assoc]

end Machine

theorem Memory.releaseFrom_mark (mem : Memory) : mem.releaseFrom mem.mark = mem := by
  unfold releaseFrom mark
  rw [Nat.sub_self]
  rfl

namespace Run

variable {α β : Type} {limit m n : Nat} {s : Machine} {step : Run α} {a : α} {r : Except Fault α}
  {fault : Fault}

/-- From a machine within the limit, a step counts `n` steps and comes to `r`, unless these are too
many. A success changes nothing but the count. -/
def Costs (limit : Nat) (s : Machine) (step : Run α) (n : Nat) (r : Except Fault α) : Prop :=
  s.steps ≤ limit → ∃ t,
    step.run.run s = (if s.steps + n ≤ limit then r else .error (.stepLimit limit), t) ∧
      (s.steps + n ≤ limit → ∀ a, r = .ok a → t = s.after n)

theorem costs_pure (a : α) : Costs limit s (pure a) 0 (.ok a) :=
  fun hs => ⟨s, by rw [if_pos (by simpa using hs)]; rfl, fun _ _ _ => rfl⟩

theorem costs_tick : Costs limit s (tick limit) 1 (.ok ()) := by
  intro hs
  refine ⟨s.after 1, ?_, fun _ _ _ => rfl⟩
  rw [tick_run]
  by_cases hn : s.steps + 1 ≤ limit
  · rw [if_pos hn, if_neg (Nat.not_lt.mpr hn)]
    rfl
  · rw [if_neg hn, if_pos (Nat.lt_of_not_le hn)]
    rfl

/-- A failure is what the whole comes to. -/
theorem costs_bind_error {step : Run β} {next : β → Run α}
    (h : Costs limit s step n (.error fault)) : Costs limit s (step >>= next) n (.error fault) := by
  intro hs
  obtain ⟨t, ht, -⟩ := h hs
  refine ⟨t, ?_, fun _ _ ha => nomatch ha⟩
  rw [run_bind, ht]
  by_cases hn : s.steps + n ≤ limit
  · rw [if_pos hn, if_pos hn]
  · rw [if_neg hn, if_neg hn]

/-- Costs add up when a success is followed by what comes next. -/
theorem costs_bind {step : Run β} {next : β → Run α} {b : β} (h : Costs limit s step m (.ok b))
    (hn : Costs limit (s.after m) (next b) n r) : Costs limit s (step >>= next) (m + n) r := by
  intro hs
  obtain ⟨t, ht, hok⟩ := h hs
  rw [run_bind, ht]
  by_cases hm : s.steps + m ≤ limit
  · obtain rfl := hok hm b rfl
    simpa only [if_pos hm, Machine.after_steps, Machine.after_after, Nat.add_assoc] using hn hm
  · have hmore : ¬ s.steps + (m + n) ≤ limit := by omega
    rw [if_neg hm, if_neg hmore]
    exact ⟨t, rfl, fun hle => absurd hle hmore⟩

/-- A call gives back no stack where none was taken. -/
theorem costs_nested (h : Costs limit { s with depth := s.depth + 1 } step n r) :
    Costs limit s (nested step) n r := by
  intro hs
  obtain ⟨t, ht, hok⟩ := h hs
  rw [nested_run, ht]
  refine ⟨_, rfl, fun hn a ha => ?_⟩
  rw [hok hn a ha]
  simp [Machine.after, Memory.releaseFrom_mark]

end Run

namespace Setting

open Run

variable {e : Setting} {callee : FunctionId → List Datum → Run Datum} {f : FunctionId}
  {b dest entry : BlockId} {previous : Option BlockId} {frame frame' : Frame} {u v w : ValueId}
  {rest : List ValueId} {type : TypeId} {i : Instruction} {s : Machine} {x y d : Datum}
  {data : List Datum} {fault : Fault} {m n fuel levels : Nat}

/-! ### Operands and instructions -/

theorem operand_of_frame (hk : e.module.isConstant v = false) (hv : frame[v]? = some d) :
    e.operand frame v = pure d := by
  unfold Module.isConstant at hk
  unfold operand
  cases h : e.module.kindOf v with
  | argument _ _ | instruction _ => simp [hv]
  | _ => simp [h, ValueKind.isConstant] at hk

theorem evaluate_binary {op : BinaryOp} (hv : e.operand frame v = pure x)
    (hw : e.operand frame w = pure y) (hd : Datum.binary e.host op x y = .ok d) :
    e.evaluate callee frame type (.binary op v w) = pure d := by
  rw [evaluate, hv, hw, pure_bind, pure_bind, hd]
  rfl

theorem evaluate_icmp {pred : IntPredicate} (hv : e.operand frame v = pure x)
    (hw : e.operand frame w = pure y) (hd : Datum.icmp pred x y = .ok d) :
    e.evaluate callee frame type (.icmp pred v w) = pure d := by
  rw [evaluate, hv, hw, pure_bind, pure_bind, hd]
  rfl

theorem evaluate_call {g : FunctionId} (hv : e.operand frame v = pure x) :
    e.evaluate callee frame type (.call g [v]) = callee g [x] := by
  rw [evaluate, List.mapM_cons, List.mapM_nil, hv]
  simp only [pure_bind]

theorem operand_of_result (hi : e.module.instruction? v = some i) (hv : frame[v]? = some d) :
    e.operand frame v = pure d :=
  operand_of_frame (by simp [Module.isConstant, Module.kindOf_of_instruction? hi, ValueKind.isConstant])
    hv

theorem operand_of_insert (hi : e.module.instruction? v = some i) :
    e.operand (frame.insert v d) v = pure d :=
  operand_of_result hi Std.TreeMap.getElem?_insert_self

/-! ### Code -/

section

variable (hv : e.module.instruction? v = some i) (hp : i.isPhi = false)
  (ht : i.isTerminator = false)
include hv hp ht

theorem costs_instruction {r : Except Fault Flow}
    (he : Costs e.limits.steps (s.after 1) (e.evaluate callee frame (e.module.typeOf v) i) m (.ok d))
    (hr : Costs e.limits.steps (s.after (1 + m))
      (e.runInstructions callee f b rest (frame.insert v d)) n r) :
    Costs e.limits.steps s (e.runInstructions callee f b (v :: rest) frame) (1 + m + n) r := by
  rw [runInstructions_other e hv hp ht, Nat.add_assoc]
  refine costs_bind costs_tick (costs_bind he ?_)
  rwa [Machine.after_after]

theorem costs_failing
    (he : Costs e.limits.steps (s.after 1) (e.evaluate callee frame (e.module.typeOf v) i) m
      (.error fault)) :
    Costs e.limits.steps s (e.runInstructions callee f b (v :: rest) frame) (1 + m)
      (.error fault) := by
  rw [runInstructions_other e hv hp ht]
  exact costs_bind costs_tick (costs_bind_error he)

/-- An instruction that asks nothing of the machine costs its step. -/
theorem costs_computed {r : Except Fault Flow}
    (he : e.evaluate callee frame (e.module.typeOf v) i = pure d)
    (hr : Costs e.limits.steps (s.after 1)
      (e.runInstructions callee f b rest (frame.insert v d)) n r) :
    Costs e.limits.steps s (e.runInstructions callee f b (v :: rest) frame) (1 + n) r :=
  costs_instruction hv hp ht (he ▸ costs_pure d) hr

end

theorem costs_branch (hv : e.module.instruction? v = some (.branch dest)) :
    Costs e.limits.steps s (e.runInstructions callee f b (v :: rest) frame) 1
      (.ok (.jump dest frame)) := by
  rw [runInstructions, hv]
  refine costs_bind costs_tick (n := 0) ?_
  exact costs_pure _

theorem costs_condBranch {thenDest elseDest : BlockId} {p : Prop} [Decidable p]
    (hv : e.module.instruction? v = some (.condBranch w thenDest elseDest))
    (hw : e.operand frame w = pure (Datum.ofBool (decide p))) :
    Costs e.limits.steps s (e.runInstructions callee f b (v :: rest) frame) 1
      (.ok (.jump (if p then thenDest else elseDest) frame)) := by
  have hbool : (Datum.ofBool (decide p)).asBool = .ok (decide p) := by cases decide p <;> rfl
  have htaken : (if p then thenDest else elseDest) =
      if decide p = true then thenDest else elseDest := by simp
  rw [runInstructions, hv, htaken]
  dsimp only
  rw [hw, pure_bind, hbool]
  refine costs_bind costs_tick (n := 0) ?_
  exact costs_pure _

theorem costs_ret (hv : e.module.instruction? v = some (.ret (some w)))
    (hw : e.operand frame w = pure d) :
    Costs e.limits.steps s (e.runInstructions callee f b (v :: rest) frame) 1 (.ok (.done d)) := by
  rw [runInstructions, hv]
  dsimp only
  rw [hw]
  refine costs_bind costs_tick (n := 0) ?_
  exact costs_pure _

/-! ### Blocks and calls -/

theorem costs_block {merged : List (ValueId × Datum)} {r : Except Fault Flow}
    (hphis : e.readPhis f b previous frame (e.module.instructions b) = pure (merged, rest))
    (hr : Costs e.limits.steps s (e.runInstructions callee f b rest (frame.insertMany merged)) n r) :
    Costs e.limits.steps s (e.runBlock callee f previous b frame) n r := by
  unfold runBlock
  rwa [hphis, pure_bind]

theorem costs_block_plain {l : List ValueId} {r : Except Fault Flow}
    (hl : e.module.instructions b = v :: l) (hv : e.module.instruction? v = some i)
    (hp : i.isPhi = false)
    (hr : Costs e.limits.steps s (e.runInstructions callee f b (v :: l) frame) n r) :
    Costs e.limits.steps s (e.runBlock callee f previous b frame) n r := by
  have hphis : e.readPhis f b previous frame (e.module.instructions b) = pure ([], v :: l) := by
    rw [hl]
    refine readPhis_stop e fun w hw j hj => ?_
    obtain rfl : v = w := by simpa using hw
    obtain rfl : i = j := Option.some_inj.mp (hv.symm.trans hj)
    exact hp
  exact costs_block hphis (by simpa using hr)

theorem readPhis_taken {source : BlockId} {incoming : List (BlockId × ValueId)}
    {l : List ValueId} {merged : List (ValueId × Datum)}
    (hv : e.module.instruction? v = some (.phi incoming)) (hl : incoming.lookup source = some w)
    (hw : e.operand frame w = pure d)
    (hrest : e.readPhis f b (some source) frame l = pure (merged, rest)) :
    e.readPhis f b (some source) frame (v :: l) = pure ((v, d) :: merged, rest) := by
  rw [readPhis_phi e hv, hrest]
  unfold readPhi
  simp only [hl, hw, pure_bind]

theorem costs_done (hb : Costs e.limits.steps s (e.runBlock callee f previous b frame) n
    (.ok (.done d))) :
    Costs e.limits.steps s (e.runBlocks callee f fuel previous b frame) n (.ok d) := by
  rw [runBlocks_eq]
  refine costs_bind hb (n := 0) ?_
  exact costs_pure d

theorem costs_left (hb : Costs e.limits.steps s (e.runBlock callee f previous b frame) n
    (.error fault)) :
    Costs e.limits.steps s (e.runBlocks callee f fuel previous b frame) n (.error fault) := by
  rw [runBlocks_eq]
  exact costs_bind_error hb

/-- The fuel of a run is as good as its limit of steps, since every jump counts one. -/
theorem costs_jump {r : Except Fault Datum}
    (hb : Costs e.limits.steps s (e.runBlock callee f previous b frame) (m + 1)
      (.ok (.jump dest frame')))
    (hfuel : e.limits.steps ≤ s.steps + fuel)
    (hr : ∀ fuel, e.limits.steps ≤ (s.after (m + 1)).steps + fuel →
      Costs e.limits.steps (s.after (m + 1)) (e.runBlocks callee f fuel (some b) dest frame') n r) :
    Costs e.limits.steps s (e.runBlocks callee f fuel previous b frame) (m + 1 + n) r := by
  rw [runBlocks_eq]
  refine costs_bind hb ?_
  cases fuel with
  | zero =>
    intro hs
    rw [Machine.after_steps] at hs
    omega
  | succ fuel =>
    refine hr fuel ?_
    rw [Machine.after_steps]
    omega

theorem costs_execute {r : Except Fault Datum} (he : e.module.entry? f = some entry)
    (h : Costs e.limits.steps s (e.runBlocks callee f e.limits.steps none entry
      (Std.TreeMap.ofList ((e.module.params f).zip data))) n r) :
    Costs e.limits.steps s (e.execute callee f data) n r := by
  unfold execute
  rwa [he]

theorem costs_call {r : Except Fault Datum} (hr : e.module.isRemoved f = false)
    (hd : e.module.isDeclaration f = false) (hdepth : s.depth < e.limits.callDepth)
    (h : Costs e.limits.steps { s with depth := s.depth + 1 }
      (e.execute (e.call levels) f data) n r) :
    Costs e.limits.steps s (e.call (levels + 1) f data) n r := by
  intro hs
  rw [call_defined hr hd hdepth]
  exact costs_nested h hs

theorem costs_overrun (hr : e.module.isRemoved f = false) (hd : e.module.isDeclaration f = false)
    (hdepth : e.limits.callDepth ≤ s.depth) :
    Costs e.limits.steps s (e.call levels f data) 0
      (.error (.callDepth e.limits.callDepth (e.module.functionName f))) := by
  intro hs
  refine ⟨s, ?_, fun _ _ ha => nomatch ha⟩
  simp [call_run, hr, hd, hdepth, hs]

theorem runNamed_of_costs {name : String} {args : List Box} {r : Except Fault Datum}
    (hname : e.module.functionNames.find? name = some f) (hdata : e.admitted f args = .ok data)
    (h : Costs e.limits.steps e.start (e.call e.limits.callDepth f data) n r) :
    e.runNamed name args =
      if n ≤ e.limits.steps then r >>= box else .error (.stepLimit e.limits.steps) := by
  obtain ⟨t, ht, -⟩ := h (Nat.zero_le _)
  have hstart : e.start.steps + n = n := Nat.zero_add n
  rw [hstart] at ht
  unfold runNamed
  simp only [hname, runFunction_admitted, hdata]
  change (((e.call e.limits.callDepth f data).run.run e.start).1 >>= box) = _
  rw [ht]
  split
  · rfl
  · rfl

end Setting
end SsaKit
