import Mathlib.Data.Nat.Fib.Basic
import SsaKit.Demo
import SsaKit.Proofs.Spending

/-! What the looping and the recursive sample program compute, for every argument: the results as
numbers of their width, and where they run into a limit. -/
namespace SsaKit

/-! ### Integers that stand for numbers -/

namespace Word

variable {bits : Nat} {x y z : Int} {word : UInt64}

theorem eq_mask_ofInt (hle : bits ≤ 64) (hlt : word.toNat < 2 ^ bits)
    (hz : (word.toNat : Int) ≡ z [ZMOD 2 ^ bits]) : word = mask bits (ofInt z) := by
  have hmod : (word.toNat : Int) ≡ (mask bits (ofInt z)).toNat [ZMOD 2 ^ bits] :=
    hz.trans ((mask_modEq hle).trans (ofInt_modEq hle z)).symm
  have hmod : word.toNat % 2 ^ bits = (mask bits (ofInt z)).toNat % 2 ^ bits := by
    exact_mod_cast hmod
  rwa [Nat.mod_eq_of_lt hlt, Nat.mod_eq_of_lt (toNat_mask_lt hle), UInt64.toNat_inj] at hmod

theorem mask_ofInt_congr (hle : bits ≤ 64) (h : x ≡ y [ZMOD 2 ^ bits]) :
    mask bits (ofInt x) = mask bits (ofInt y) :=
  eq_mask_ofInt hle (toNat_mask_lt hle) (((mask_modEq hle).trans (ofInt_modEq hle x)).trans h)

end Word

theorem Box.ofInt_bmod {bits : Nat} (hle : bits ≤ 64) (z : Int) :
    ofInt bits (z.bmod (2 ^ bits)) = ofInt bits z := by
  have hmod : z.bmod (2 ^ bits) ≡ z [ZMOD 2 ^ bits] := by
    have := Int.bmod_emod (x := z) (m := 2 ^ bits)
    exact_mod_cast this
  exact congrArg (int bits) (Word.mask_ofInt_congr hle hmod)

namespace Datum

/-- The integer of a width that is congruent to a number. -/
def number (bits : Nat) (z : Int) : Datum := .int bits (Word.mask bits (Word.ofInt z))

variable {host : Host} {bits : Nat} {x y z : Int}

theorem low_modEq (hle : bits ≤ 64) (z : Int) :
    ((Word.low bits (Word.mask bits (Word.ofInt z))).toNat : Int) ≡ z [ZMOD 2 ^ bits] := by
  rw [← Word.toNat_mask_low hle, Word.mask_mask]
  exact (Word.mask_modEq hle).trans (Word.ofInt_modEq hle z)

/-- An operator that yields a number yields the integer for it. -/
theorem binary_eq_number {op : BinaryOp} {a b : UInt64} (hpos : 0 < bits) (hle : bits ≤ 64)
    (hop : op.isFloat = false) (hdiv : op.isDivision = false)
    (hz : op.meaning (Word.low bits a) (Word.low bits b) ≡ z [ZMOD 2 ^ bits]) :
    binary host op (.int bits a) (.int bits b) = .ok (number bits z) := by
  obtain ⟨word, hword, hlt, hmod⟩ :=
    BinaryOp.onWords_yields (a := a) (b := b) hop hpos hle (by simp [hdiv])
  obtain rfl := Word.eq_mask_ofInt hle hlt (hmod.trans hz)
  simp [binary, lanewise, binaryScalar, BinaryOp.not_overshifts hle, hword, number, Except.mapError]

theorem add_number (hpos : 0 < bits) (hle : bits ≤ 64) :
    binary host .add (number bits x) (number bits y) = .ok (number bits (x + y)) :=
  binary_eq_number hpos hle rfl rfl ((low_modEq hle x).add (low_modEq hle y))

theorem sub_number (hpos : 0 < bits) (hle : bits ≤ 64) :
    binary host .sub (number bits x) (number bits y) = .ok (number bits (x - y)) :=
  binary_eq_number hpos hle rfl rfl ((low_modEq hle x).sub (low_modEq hle y))

theorem mul_number (hpos : 0 < bits) (hle : bits ≤ 64) :
    binary host .mul (number bits x) (number bits y) = .ok (number bits (x * y)) :=
  binary_eq_number hpos hle rfl rfl ((low_modEq hle x).mul (low_modEq hle y))

/-- The number is one of a width, read with its sign. -/
def Fits (bits : Nat) (z : Int) : Prop := Int.bmod z (2 ^ min bits 64) = z

/-- What lies between zero and a number of a width is one too. -/
theorem Fits.of_le {k : Nat} (hz : Fits bits z) (hk : (k : Int) ≤ max z 0) : Fits bits k := by
  have hpow : 0 < 2 ^ min bits 64 := Nat.two_pow_pos _
  have hlt := Int.bmod_lt (x := z) hpow
  unfold Fits at *
  rw [hz] at hlt
  refine Int.bmod_eq_of_le ?_ ?_
  · omega
  · omega

theorem icmp_number {pred : IntPredicate} (hpos : 0 < bits) (hx : Fits bits x) (hy : Fits bits y)
    (hpred : pred.isSigned) :
    icmp pred (number bits x) (number bits y) = .ok (ofBool (pred.holds 0 0 x y)) := by
  have hholds (a b : UInt64) : pred.holds a b x y = pred.holds 0 0 x y := by
    cases pred <;> first | rfl | exact Bool.noConfusion hpred
  simp only [icmp, number, lanewise, icmpScalar, IntPredicate.onWords, Word.mask_mask,
    Word.signed_mask_ofInt hpos]
  rw [hx, hy, hholds]

end Datum

/-! ### Functions of one integer -/

/-- The instructions of a module, each at its handle. -/
def Module.HoldsCode (m : Module) : List (ValueId × Instruction) → Prop
  | [] => True
  | (v, i) :: code => m.instruction? v = some i ∧ m.HoldsCode code

instance Module.decidableHoldsCode (m : Module) : DecidablePred m.HoldsCode
  | [] => inferInstanceAs (Decidable True)
  | (v, i) :: code =>
    have := m.decidableHoldsCode code
    inferInstanceAs (Decidable (m.instruction? v = some i ∧ m.HoldsCode code))

/-- The code of a block, instruction by instruction. -/
def Module.Lists (m : Module) (b : BlockId) (code : List (ValueId × Instruction)) : Prop :=
  m.instructions b = code.map Prod.fst ∧ m.HoldsCode code

instance (m : Module) (b : BlockId) (code : List (ValueId × Instruction)) :
    Decidable (m.Lists b code) :=
  inferInstanceAs (Decidable (_ ∧ _))

/-- A module whose first function takes an integer of a width and comes to one. -/
structure Module.Unary (m : Module) (name : String) (bits : Nat) : Prop where
  found : m.functionNames.find? name = some ⟨0⟩
  named : m.functionName ⟨0⟩ = name
  removed : m.isRemoved ⟨0⟩ = false
  declared : m.isDeclaration ⟨0⟩ = false
  type : m.types.entry (m.function ⟨0⟩).type = .function ⟨0⟩ [⟨0⟩] false
  integer : m.types.entry ⟨0⟩ = .int bits
  params : m.params ⟨0⟩ = [⟨0⟩]
  argument : m.isConstant ⟨0⟩ = false
  entry : m.entry? ⟨0⟩ = some ⟨0⟩

open Setting Run Datum

section

variable {e : Setting} {name : String} {bits n : Nat} {z : Int} {r : Except Fault Datum}

theorem Setting.operand_number {v : ValueId} {word : UInt64} (hk : e.module.kindOf v = .int word)
    (ht : e.module.types.entry (e.module.typeOf v) = .int bits)
    (hz : Word.mask bits (Word.ofInt z) = word) (frame : Frame) :
    e.operand frame v = pure (number bits z) := by
  rw [operand_of_word hk ht, number, hz]

variable (h : e.module.Unary name bits)
include h

theorem Module.Unary.admitted (z : Int) : e.admitted ⟨0⟩ [.ofInt bits z] = .ok [number bits z] := by
  have hdata : unboxAs e.module.types ⟨0⟩ (.ofInt bits z) = some (number bits z) := by
    simp [unboxAs, h.integer, Box.ofInt, Box.ofWord, number, Word.mask_mask]
  have hargs : e.arguments ⟨0⟩ [⟨0⟩] [.ofInt bits z] = .ok [number bits z] := by
    simp [arguments, hdata]
  unfold Setting.admitted
  simp only [h.removed, h.type, Ty.params, Ty.isVariadic]
  exact hargs

theorem Module.Unary.argument_read (z : Int) :
    (Std.TreeMap.ofList ((e.module.params ⟨0⟩).zip [number bits z]) : Frame)[(⟨0⟩ : ValueId)]? =
      some (number bits z) := by
  simp [h.params]

/-- A run ends as the call does, if that does not count too many steps. -/
theorem Module.Unary.runNamed
    (hcall : Costs e.limits.steps e.start (e.call e.limits.callDepth ⟨0⟩ [number bits z]) n r) :
    e.runNamed name [.ofInt bits z] =
      if n ≤ e.limits.steps then r >>= box else .error (.stepLimit e.limits.steps) :=
  runNamed_of_costs h.found (h.admitted z) hcall

end

/-! ### The loop -/

/-- The code of the looping sample. -/
structure Module.LoopsFib (m : Module) : Prop extends m.Unary "fib" 32 where
  zero : m.kindOf ⟨1⟩ = .int 0
  zeroType : m.typeOf ⟨1⟩ = ⟨0⟩
  one : m.kindOf ⟨2⟩ = .int 1
  oneType : m.typeOf ⟨2⟩ = ⟨0⟩
  start : m.Lists ⟨0⟩ [(⟨3⟩, .branch ⟨1⟩)]
  loop : m.Lists ⟨1⟩ [(⟨4⟩, .phi [(⟨0⟩, ⟨1⟩), (⟨2⟩, ⟨10⟩)]), (⟨5⟩, .phi [(⟨0⟩, ⟨1⟩), (⟨2⟩, ⟨6⟩)]),
    (⟨6⟩, .phi [(⟨0⟩, ⟨2⟩), (⟨2⟩, ⟨9⟩)]), (⟨7⟩, .icmp .sge ⟨4⟩ ⟨0⟩),
    (⟨8⟩, .condBranch ⟨7⟩ ⟨3⟩ ⟨2⟩)]
  body : m.Lists ⟨2⟩ [(⟨9⟩, .binary .add ⟨5⟩ ⟨6⟩), (⟨10⟩, .binary .add ⟨4⟩ ⟨2⟩), (⟨11⟩, .branch ⟨1⟩)]
  exit : m.Lists ⟨3⟩ [(⟨12⟩, .ret (some ⟨5⟩))]

/-- The argument and the three phis, in the round with a number. -/
structure Frame.Round (frame : Frame) (z : Int) (k : Nat) : Prop where
  argument : frame[(⟨0⟩ : ValueId)]? = some (number 32 z)
  counter : frame[(⟨4⟩ : ValueId)]? = some (number 32 k)
  current : frame[(⟨5⟩ : ValueId)]? = some (number 32 (Nat.fib k))
  next : frame[(⟨6⟩ : ValueId)]? = some (number 32 (Nat.fib (k + 1)))

/-- What the phis set for a round. -/
def fibPhis (k : Nat) : List (ValueId × Datum) :=
  [(⟨4⟩, number 32 k), (⟨5⟩, number 32 (Nat.fib k)), (⟨6⟩, number 32 (Nat.fib (k + 1)))]

/-- The phis take the numbers of a round on an edge into the loop. -/
def Setting.EntersRound (e : Setting) (previous : Option BlockId) (frame : Frame) (k : Nat) : Prop :=
  e.readPhis ⟨0⟩ ⟨1⟩ previous frame (e.module.instructions ⟨1⟩) =
    pure (fibPhis k, [⟨7⟩, ⟨8⟩])

theorem Frame.round_merged {frame : Frame} {z : Int} (k : Nat)
    (hf : frame[(⟨0⟩ : ValueId)]? = some (number 32 z)) :
    Frame.Round (frame.insertMany (fibPhis k)) z k := by
  unfold fibPhis
  simp only [Std.TreeMap.insertMany_cons, Std.TreeMap.insertMany_nil]
  constructor <;> simp only [getElem?_insert]
  · exact hf
  all_goals rfl

theorem Frame.Round.insert {frame : Frame} {z : Int} {k : Nat} {v : ValueId} (h : frame.Round z k)
    (hv : v ∉ [⟨0⟩, ⟨4⟩, ⟨5⟩, ⟨6⟩]) (d : Datum) : Frame.Round (frame.insert v d) z k := by
  simp only [List.mem_cons, List.not_mem_nil, or_false, not_or] at hv
  obtain ⟨h0, h4, h5, h6⟩ := hv
  constructor
  · simp [getElem?_insert, h0, h.argument]
  · simp [getElem?_insert, h4, h.counter]
  · simp [getElem?_insert, h5, h.current]
  · simp [getElem?_insert, h6, h.next]

namespace Module.LoopsFib

variable {e : Setting} {callee : FunctionId → List Datum → Run Datum} {frame : Frame} {s : Machine}
  {z : Int} {k : Nat} {previous : Option BlockId} (h : e.module.LoopsFib)
include h

theorem read_argument (hf : frame[(⟨0⟩ : ValueId)]? = some (number 32 z)) :
    e.operand frame ⟨0⟩ = pure (number 32 z) :=
  operand_of_frame h.argument hf

theorem read_zero : e.operand frame ⟨1⟩ = pure (number 32 0) :=
  operand_number h.zero (h.zeroType ▸ h.integer) (by decide) frame

theorem read_one : e.operand frame ⟨2⟩ = pure (number 32 1) :=
  operand_number h.one (h.oneType ▸ h.integer) (by decide) frame

theorem enters_first : e.EntersRound (some ⟨0⟩) frame 0 := by
  obtain ⟨hcode, h4, h5, h6, h7, h8, -⟩ := h.loop
  unfold EntersRound
  rw [hcode]
  refine readPhis_taken h4 rfl h.read_zero ?_
  refine readPhis_taken h5 rfl h.read_zero ?_
  refine readPhis_taken h6 rfl h.read_one ?_
  exact readPhis_stop e (by simp [h7, Instruction.isPhi])

/-- What the body computed is taken when the loop is entered again. -/
theorem enters_again (hstep : frame[(⟨10⟩ : ValueId)]? = some (number 32 (k + 1 : Nat)))
    (hnext : frame[(⟨6⟩ : ValueId)]? = some (number 32 (Nat.fib (k + 1))))
    (hfollowing : frame[(⟨9⟩ : ValueId)]? = some (number 32 (Nat.fib (k + 2)))) :
    e.EntersRound (some ⟨2⟩) frame (k + 1) := by
  obtain ⟨hcode, h4, h5, h6, h7, h8, -⟩ := h.loop
  obtain ⟨-, h9, h10, -⟩ := h.body
  unfold EntersRound
  rw [hcode]
  refine readPhis_taken h4 rfl (operand_of_result h10 hstep) ?_
  refine readPhis_taken h5 rfl (operand_of_result h6 hnext) ?_
  refine readPhis_taken h6 rfl (operand_of_result h9 hfollowing) ?_
  exact readPhis_stop e (by simp [h7, Instruction.isPhi])

theorem costs_header (callee : FunctionId → List Datum → Run Datum) (s : Machine)
    (he : e.EntersRound previous frame k) (hf : frame[(⟨0⟩ : ValueId)]? = some (number 32 z))
    (hz : Fits 32 z) (hk : Fits 32 k) :
    ∃ frame' : Frame, frame'.Round z k ∧
      Costs e.limits.steps s (e.runBlock callee ⟨0⟩ previous ⟨1⟩ frame) 2
        (.ok (.jump (if z ≤ k then ⟨3⟩ else ⟨2⟩) frame')) := by
  obtain ⟨-, h4, h5, h6, h7, h8, -⟩ := h.loop
  have hround := Frame.round_merged k hf
  have hdone : icmp .sge (number 32 k) (number 32 z) = .ok (ofBool (decide (z ≤ k))) :=
    icmp_number (by decide) hk hz rfl
  have hsge (type : TypeId) : e.evaluate callee (frame.insertMany (fibPhis k)) type
      (.icmp .sge ⟨4⟩ ⟨0⟩) = pure (ofBool (decide (z ≤ k))) :=
    evaluate_icmp (operand_of_result h4 hround.counter) (h.read_argument hround.argument) hdone
  refine ⟨_, hround.insert (v := ⟨7⟩) (by decide) (ofBool (decide (z ≤ k))), costs_block he ?_⟩
  refine costs_computed (n := 1) h7 rfl rfl (hsge _) ?_
  exact costs_condBranch h8 (operand_of_insert h7)

theorem costs_body (callee : FunctionId → List Datum → Run Datum) (s : Machine)
    (previous : Option BlockId) (hr : frame.Round z k) :
    ∃ frame' : Frame, frame'[(⟨0⟩ : ValueId)]? = some (number 32 z) ∧
      e.EntersRound (some ⟨2⟩) frame' (k + 1) ∧
      Costs e.limits.steps s (e.runBlock callee ⟨0⟩ previous ⟨2⟩ frame) 3
        (.ok (.jump ⟨1⟩ frame')) := by
  obtain ⟨-, h4, h5, h6, -⟩ := h.loop
  obtain ⟨hcode, h9, h10, h11, -⟩ := h.body
  have hfollowing : Datum.binary e.host .add (number 32 (Nat.fib k)) (number 32 (Nat.fib (k + 1))) =
      .ok (number 32 (Nat.fib (k + 2))) := by
    rw [Nat.fib_add_two, Nat.cast_add]
    exact add_number (by decide) (by decide)
  have hcount : Datum.binary e.host .add (number 32 k) (number 32 1) = .ok (number 32 (k + 1 : Nat)) :=
    add_number (by decide) (by decide)
  have hr9 := hr.insert (v := ⟨9⟩) (by decide) (number 32 (Nat.fib (k + 2)))
  have hr10 := hr9.insert (v := ⟨10⟩) (by decide) (number 32 (k + 1 : Nat))
  have h9read : ((frame.insert ⟨9⟩ (number 32 (Nat.fib (k + 2)))).insert ⟨10⟩
      (number 32 (k + 1 : Nat)))[(⟨9⟩ : ValueId)]? = some (number 32 (Nat.fib (k + 2))) := by
    rw [getElem?_insert, if_neg (by decide)]
    exact Std.TreeMap.getElem?_insert_self
  refine ⟨_, hr10.argument,
    h.enters_again Std.TreeMap.getElem?_insert_self hr10.next h9read,
    costs_block_plain hcode h9 rfl ?_⟩
  refine costs_computed (n := 2) h9 rfl rfl (evaluate_binary (operand_of_result h5 hr.current)
    (operand_of_result h6 hr.next) hfollowing) ?_
  refine costs_computed (n := 1) h10 rfl rfl (evaluate_binary (operand_of_result h4 hr9.counter)
    h.read_one hcount) ?_
  exact costs_branch h11

theorem costs_exit (hr : frame.Round z k) :
    Costs e.limits.steps s (e.runBlock callee ⟨0⟩ previous ⟨3⟩ frame) 1
      (.ok (.done (number 32 (Nat.fib k)))) := by
  obtain ⟨-, -, h5, -⟩ := h.loop
  obtain ⟨hcode, h12, -⟩ := h.exit
  exact costs_block_plain hcode h12 rfl (costs_ret h12 (operand_of_result h5 hr.current))

/-- With `j` rounds to go, the loop counts five steps for each of them and three to leave. -/
theorem costs_loop {j fuel : Nat} (hz : Fits 32 z) (he : e.EntersRound previous frame k)
    (hf : frame[(⟨0⟩ : ValueId)]? = some (number 32 z)) (hj : (k + j : Int) = max z 0)
    (hfuel : e.limits.steps ≤ s.steps + fuel) :
    Costs e.limits.steps s (e.runBlocks callee ⟨0⟩ fuel previous ⟨1⟩ frame) (5 * j + 3)
      (.ok (number 32 (Nat.fib z.toNat))) := by
  -- A round changes the frame, the edge taken, the steps counted and the fuel left; the argument stays.
  induction j generalizing k s fuel frame previous with
  | zero =>
    obtain ⟨frame', hr, hheader⟩ := h.costs_header callee s he hf hz (hz.of_le (by omega))
    obtain rfl : z.toNat = k := by omega
    rw [if_pos (by omega)] at hheader
    exact costs_jump (m := 1) (n := 1) hheader hfuel fun _ _ => costs_done (h.costs_exit hr)
  | succ j ih =>
    obtain ⟨frame', hr, hheader⟩ := h.costs_header callee s he hf hz (hz.of_le (by omega))
    rw [if_neg (by omega)] at hheader
    obtain ⟨next, hnext, hagain, hbody⟩ := h.costs_body callee (s.after 2) (some ⟨1⟩) hr
    have hj : ((k + 1 : Nat) + j : Int) = max z 0 := by
      push_cast at hj ⊢
      omega
    have hsteps : 5 * (j + 1) + 3 = 1 + 1 + (2 + 1 + (5 * j + 3)) := by omega
    rw [hsteps]
    refine costs_jump hheader hfuel fun _ hfuel => ?_
    exact costs_jump hbody hfuel fun _ hfuel => ih hagain hnext hj hfuel

theorem costs_fib (hz : Fits 32 z) {levels : Nat} (hdepth : s.depth < e.limits.callDepth) :
    Costs e.limits.steps s (e.call (levels + 1) ⟨0⟩ [number 32 z]) (5 * z.toNat + 4)
      (.ok (number 32 (Nat.fib z.toNat))) := by
  obtain ⟨hcode, h3, -⟩ := h.start
  have hargument := h.toUnary.argument_read z
  have hsteps : 5 * z.toNat + 4 = 0 + 1 + (5 * z.toNat + 3) := by omega
  rw [hsteps]
  refine costs_call h.removed h.declared hdepth (costs_execute h.entry ?_)
  refine costs_jump (costs_block_plain hcode h3 rfl (costs_branch h3)) (Nat.le_add_left _ _)
    fun fuel hfuel => ?_
  exact h.costs_loop hz h.enters_first hargument (by simp) hfuel

end Module.LoopsFib

/-! ### The recursion -/

/-- The code of the recursive sample. -/
structure Module.CallsFactorial (m : Module) : Prop extends m.Unary "factorial" 64 where
  one : m.kindOf ⟨1⟩ = .int 1
  oneType : m.typeOf ⟨1⟩ = ⟨0⟩
  start : m.Lists ⟨0⟩ [(⟨2⟩, .icmp .sle ⟨0⟩ ⟨1⟩), (⟨3⟩, .condBranch ⟨2⟩ ⟨1⟩ ⟨2⟩)]
  base : m.Lists ⟨1⟩ [(⟨4⟩, .ret (some ⟨1⟩))]
  recurse : m.Lists ⟨2⟩ [(⟨5⟩, .binary .sub ⟨0⟩ ⟨1⟩), (⟨6⟩, .call ⟨0⟩ [⟨5⟩]),
    (⟨7⟩, .binary .mul ⟨0⟩ ⟨6⟩), (⟨8⟩, .ret (some ⟨7⟩))]

namespace Module.CallsFactorial

variable {e : Setting} {callee : FunctionId → List Datum → Run Datum} {frame : Frame} {s : Machine}
  {z p : Int} {n : Nat} {previous : Option BlockId} {fault : Fault} (h : e.module.CallsFactorial)
include h

theorem read_one : e.operand frame ⟨1⟩ = pure (number 64 1) :=
  operand_number h.one (h.oneType ▸ h.integer) (by decide) frame

/-- The entry goes to the base case for what is at most 1. -/
theorem costs_start (callee : FunctionId → List Datum → Run Datum) (s : Machine)
    (previous : Option BlockId) (hf : frame[(⟨0⟩ : ValueId)]? = some (number 64 z))
    (hz : Fits 64 z) :
    ∃ frame' : Frame, frame'[(⟨0⟩ : ValueId)]? = some (number 64 z) ∧
      Costs e.limits.steps s (e.runBlock callee ⟨0⟩ previous ⟨0⟩ frame) 2
        (.ok (.jump (if z ≤ 1 then ⟨1⟩ else ⟨2⟩) frame')) := by
  obtain ⟨hcode, h2, h3, -⟩ := h.start
  have hsmall : icmp .sle (number 64 z) (number 64 1) = .ok (ofBool (decide (z ≤ 1))) :=
    icmp_number (by decide) hz rfl rfl
  have hsle (type : TypeId) : e.evaluate callee frame type (.icmp .sle ⟨0⟩ ⟨1⟩) =
      pure (ofBool (decide (z ≤ 1))) :=
    evaluate_icmp (operand_of_frame h.argument hf) h.read_one hsmall
  refine ⟨frame.insert ⟨2⟩ (ofBool (decide (z ≤ 1))), ?_, ?_⟩
  · rw [getElem?_insert, if_neg (by decide)]
    exact hf
  · refine costs_block_plain hcode h2 rfl (costs_computed (n := 1) h2 rfl rfl (hsle _) ?_)
    exact costs_condBranch h3 (operand_of_insert h2)

theorem costs_base : Costs e.limits.steps s (e.runBlock callee ⟨0⟩ previous ⟨1⟩ frame) 1
    (.ok (.done (number 64 1))) := by
  obtain ⟨hcode, h4, -⟩ := h.base
  exact costs_block_plain hcode h4 rfl (costs_ret h4 h.read_one)

/-- The recursive case begins with the call for the predecessor. -/
theorem costs_predecessor {r : Except Fault Datum}
    (hcall : Costs e.limits.steps (s.after 2) (callee ⟨0⟩ [number 64 (z - 1)]) n r) (type : TypeId) :
    Costs e.limits.steps ((s.after 1).after 1)
      (e.evaluate callee (frame.insert ⟨5⟩ (number 64 (z - 1))) type (.call ⟨0⟩ [⟨5⟩])) n r := by
  obtain ⟨-, h5, -⟩ := h.recurse
  rw [evaluate_call (operand_of_insert h5)]
  simpa using hcall

/-- The recursive case multiplies what the call for the predecessor comes to. -/
theorem costs_recurse (hf : frame[(⟨0⟩ : ValueId)]? = some (number 64 z))
    (hcall : Costs e.limits.steps (s.after 2) (callee ⟨0⟩ [number 64 (z - 1)]) n
      (.ok (number 64 p))) :
    Costs e.limits.steps s (e.runBlock callee ⟨0⟩ previous ⟨2⟩ frame) (n + 4)
      (.ok (.done (number 64 (z * p)))) := by
  obtain ⟨hcode, h5, h6, h7, h8, -⟩ := h.recurse
  have hargument : ((frame.insert ⟨5⟩ (number 64 (z - 1))).insert ⟨6⟩
      (number 64 p))[(⟨0⟩ : ValueId)]? = some (number 64 z) := by
    rw [getElem?_insert, if_neg (by decide), getElem?_insert,
      if_neg (by decide)]
    exact hf
  have hsteps : n + 4 = 1 + (1 + n + (1 + 1)) := by omega
  rw [hsteps]
  refine costs_block_plain hcode h5 rfl ?_
  refine costs_computed h5 rfl rfl (evaluate_binary (operand_of_frame h.argument hf) h.read_one
    (sub_number (by decide) (by decide))) ?_
  refine costs_instruction h6 rfl rfl (h.costs_predecessor hcall _) ?_
  refine costs_computed h7 rfl rfl (evaluate_binary (operand_of_frame h.argument hargument)
    (operand_of_insert h6)
    (mul_number (by decide) (by decide))) ?_
  exact costs_ret h8 (operand_of_insert h7)

/-- The recursive case fails as the call for the predecessor does. -/
theorem costs_recurse_error (hf : frame[(⟨0⟩ : ValueId)]? = some (number 64 z))
    (hcall : Costs e.limits.steps (s.after 2) (callee ⟨0⟩ [number 64 (z - 1)]) n
      (.error fault)) :
    Costs e.limits.steps s (e.runBlock callee ⟨0⟩ previous ⟨2⟩ frame) (n + 2) (.error fault) := by
  obtain ⟨hcode, h5, h6, -⟩ := h.recurse
  have hsteps : n + 2 = 1 + (1 + n) := by omega
  rw [hsteps]
  refine costs_block_plain hcode h5 rfl ?_
  refine costs_computed h5 rfl rfl (evaluate_binary (operand_of_frame h.argument hf) h.read_one
    (sub_number (by decide) (by decide))) ?_
  exact costs_failing h6 rfl rfl (h.costs_predecessor hcall _)

theorem costs_small {levels : Nat} (hz : Fits 64 z) (hdepth : s.depth < e.limits.callDepth)
    (hle : z ≤ 1) :
    Costs e.limits.steps s (e.call (levels + 1) ⟨0⟩ [number 64 z]) 3 (.ok (number 64 1)) := by
  obtain ⟨_, -, hstart⟩ := h.costs_start (e.call levels) { s with depth := s.depth + 1 } none
    (h.toUnary.argument_read z) hz
  rw [if_pos hle] at hstart
  refine costs_call h.removed h.declared hdepth (costs_execute h.entry ?_)
  exact costs_jump (m := 1) (n := 1) hstart (Nat.le_add_left _ _) fun _ _ =>
    costs_done h.costs_base

theorem costs_large {levels : Nat} {r : Except Fault Datum} (hz : Fits 64 z)
    (hdepth : s.depth < e.limits.callDepth) (hlt : 1 < z)
    (hrest : ∀ (frame : Frame) fuel, frame[(⟨0⟩ : ValueId)]? = some (number 64 z) →
      Costs e.limits.steps (Machine.after { s with depth := s.depth + 1 } 2)
        (e.runBlocks (e.call levels) ⟨0⟩ fuel (some ⟨0⟩) ⟨2⟩ frame) n r) :
    Costs e.limits.steps s (e.call (levels + 1) ⟨0⟩ [number 64 z]) (2 + n) r := by
  obtain ⟨frame, hf, hstart⟩ := h.costs_start (e.call levels) { s with depth := s.depth + 1 } none
    (h.toUnary.argument_read z) hz
  rw [if_neg (not_le.mpr hlt)] at hstart
  refine costs_call h.removed h.declared hdepth (costs_execute h.entry ?_)
  exact costs_jump (m := 1) hstart (Nat.le_add_left _ _) fun fuel _ => hrest frame fuel hf

/-- With levels left for all of its calls, the recursion comes to the product. -/
theorem costs_factorial {k levels : Nat} (hz : Fits 64 z) (hk : (z - 1).toNat = k)
    (hlevels : k < levels) (hdepth : s.depth + levels ≤ e.limits.callDepth) :
    Costs e.limits.steps s (e.call levels ⟨0⟩ [number 64 z]) (6 * k + 3)
      (.ok (number 64 (Nat.factorial (k + 1)))) := by
  induction k generalizing z s levels with
  | zero =>
    obtain ⟨levels, rfl⟩ : ∃ l, levels = l + 1 := ⟨levels - 1, by omega⟩
    exact h.costs_small hz (by omega) (by omega)
  | succ k ih =>
    obtain ⟨levels, rfl⟩ : ∃ l, levels = l + 1 := ⟨levels - 1, by omega⟩
    obtain rfl : z = (k + 2 : Nat) := by omega
    have hpred : (((k + 2 : Nat) : Int) - 1) = (k + 1 : Nat) := by omega
    have hsteps : 6 * (k + 1) + 3 = 2 + (6 * k + 3 + 4) := by omega
    rw [hsteps, Nat.factorial_succ, Nat.cast_mul]
    refine h.costs_large hz (by omega) (by omega) fun frame fuel hf => ?_
    refine costs_done (h.costs_recurse hf ?_)
    rw [hpred]
    refine ih (hz.of_le (by omega)) (by omega) (by omega) ?_
    simp only [Machine.after_depth]
    omega

/-- With fewer levels, the recursion runs into their limit. -/
theorem costs_too_deep {levels : Nat} (hz : Fits 64 z) (hlevels : levels < z)
    (hdepth : s.depth + levels = e.limits.callDepth) :
    Costs e.limits.steps s (e.call levels ⟨0⟩ [number 64 z]) (4 * levels)
      (.error (.callDepth e.limits.callDepth "factorial")) := by
  induction levels generalizing z s with
  | zero =>
    have hover : Costs e.limits.steps s (e.call 0 ⟨0⟩ [number 64 z]) 0
        (.error (.callDepth e.limits.callDepth (e.module.functionName ⟨0⟩))) :=
      costs_overrun h.removed h.declared (by omega)
    rwa [h.named] at hover
  | succ levels ih =>
    -- The predecessor of what is beyond every level is at least 1, so it does not wrap.
    have hpred : Fits 64 (z - 1) := by
      obtain ⟨k, hk⟩ := Int.eq_ofNat_of_zero_le (a := z - 1) (by omega)
      exact hk ▸ hz.of_le (by omega)
    have hsteps : 4 * (levels + 1) = 2 + (4 * levels + 2) := by omega
    rw [hsteps]
    refine h.costs_large hz (by omega) (by omega) fun frame fuel hf => ?_
    refine costs_left (h.costs_recurse_error hf (ih hpred (by omega) ?_))
    simp only [Machine.after_depth]
    omega

end Module.CallsFactorial

/-! ### From the builder to the result -/

section

variable {e : Setting} {z : Int}

theorem Module.LoopsFib.runNamed (h : e.module.LoopsFib) (hz : Fits 32 z)
    (hdepth : 0 < e.limits.callDepth) :
    e.runNamed "fib" [.ofInt 32 z] = if 5 * z.toNat + 4 ≤ e.limits.steps
      then .ok (.ofInt 32 (Nat.fib z.toNat)) else .error (.stepLimit e.limits.steps) := by
  have hcall : Costs e.limits.steps e.start (e.call (e.limits.callDepth - 1 + 1) ⟨0⟩ [number 32 z])
      (5 * z.toNat + 4) (.ok (number 32 (Nat.fib z.toNat))) := h.costs_fib hz hdepth
  rw [Nat.sub_add_cancel hdepth] at hcall
  exact h.toUnary.runNamed hcall

namespace Module.CallsFactorial

variable (h : e.module.CallsFactorial) (hz : Fits 64 z)
include h hz

theorem runNamed_within (hk : (z - 1).toNat < e.limits.callDepth)
    (hsteps : 6 * (z - 1).toNat + 3 ≤ e.limits.steps) :
    e.runNamed "factorial" [.ofInt 64 z] =
      .ok (.ofInt 64 (Nat.factorial ((z - 1).toNat + 1))) := by
  have hcall := h.costs_factorial (s := e.start) hz rfl hk (Nat.zero_add _).le
  rw [h.toUnary.runNamed hcall, if_pos hsteps]
  rfl

theorem runNamed_beyond (hk : e.limits.callDepth < z)
    (hsteps : 4 * e.limits.callDepth ≤ e.limits.steps) :
    e.runNamed "factorial" [.ofInt 64 z] =
      .error (.callDepth e.limits.callDepth "factorial") := by
  have hcall := h.costs_too_deep (s := e.start) hz hk (Nat.zero_add _)
  rw [h.toUnary.runNamed hcall, if_pos hsteps]
  rfl

end Module.CallsFactorial

end

section

variable {m : Module}

theorem Module.LoopsFib.runNamed_default (h : m.LoopsFib) (host : Host) (n : Int32) :
    (⟨m, host, {}⟩ : Setting).runNamed "fib" [.ofInt 32 n.toInt] =
      if n.toInt ≤ 1999999 then .ok (.ofInt 32 (Int32.ofInt (Nat.fib (max n.toInt 0).toNat)).toInt)
      else .error (.stepLimit 10000000) := by
  have hrun := Module.LoopsFib.runNamed (e := ⟨m, host, {}⟩) h (n.toInt_bmod : Fits 32 n.toInt)
    (by simp)
  have hlimit : 5 * n.toInt.toNat + 4 ≤ 10000000 ↔ n.toInt ≤ 1999999 := by omega
  have hmax : (max n.toInt 0).toNat = n.toInt.toNat := by omega
  have hbox : Box.ofInt 32 (Int32.ofInt (Nat.fib n.toInt.toNat)).toInt =
      .ofInt 32 (Nat.fib n.toInt.toNat) := by
    rw [Int32.toInt_ofInt]
    exact Box.ofInt_bmod (by decide) _
  rw [hmax, hbox]
  simpa only [hlimit] using hrun

theorem Module.CallsFactorial.runNamed_default (h : m.CallsFactorial) (host : Host) (n : Int64) :
    (⟨m, host, {}⟩ : Setting).runNamed "factorial" [.ofInt 64 n.toInt] =
      if n.toInt ≤ 1 then .ok (.ofInt 64 1)
      else if n.toInt ≤ 512 then .ok (.ofInt 64 (Int64.ofInt (Nat.factorial n.toInt.toNat)).toInt)
      else .error (.callDepth 512 "factorial") := by
  have hz : Fits 64 n.toInt := n.toInt_bmod
  have hbox : Box.ofInt 64 (Int64.ofInt (Nat.factorial n.toInt.toNat)).toInt =
      .ofInt 64 (Nat.factorial n.toInt.toNat) := by
    rw [Int64.toInt_ofInt]
    exact Box.ofInt_bmod (by decide) _
  rw [hbox]
  split_ifs with hsmall hlarge
  · have hk : (n.toInt - 1).toNat = 0 := by omega
    have hrun := Module.CallsFactorial.runNamed_within (e := ⟨m, host, {}⟩) h hz (by simp [hk])
      (by simp [hk])
    rwa [hk] at hrun
  · have hk : (n.toInt - 1).toNat + 1 = n.toInt.toNat := by omega
    have hrun := Module.CallsFactorial.runNamed_within (e := ⟨m, host, {}⟩) h hz
      (by change (n.toInt - 1).toNat < 512; omega) (by change _ ≤ 10000000; omega)
    rwa [hk] at hrun
  · exact Module.CallsFactorial.runNamed_beyond (e := ⟨m, host, {}⟩) h hz
      (by change ((512 : Nat) : Int) < n.toInt; omega) (by simp)

end

namespace Demo

/-- The builder after the program of a sample. -/
def built (d : Demo) : Builder := (Attempt.outcome d.program { module := { name := d.name } }).2

theorem module_of_built {d : Demo}
    (hemit : (Attempt.outcome d.program { module := { name := d.name } }).1 = .ok ())
    (hverify : d.built.module.verify = .ok ()) : d.module = .ok d.built.module := by
  unfold built at *
  simp only [module, hemit, hverify]
  rfl

theorem loopsFib_built :
    (built ⟨"fib", "iterative fibonacci loop over back-edge phis", fib⟩).module.LoopsFib where
  toUnary := by constructor <;> decide +kernel
  zero := by decide +kernel
  zeroType := by decide +kernel
  one := by decide +kernel
  oneType := by decide +kernel
  start := by decide +kernel
  loop := by decide +kernel
  body := by decide +kernel
  exit := by decide +kernel

theorem callsFactorial_built :
    (built ⟨"factorial", "recursive i64 factorial", factorial⟩).module.CallsFactorial where
  toUnary := by constructor <;> decide +kernel
  one := by decide +kernel
  oneType := by decide +kernel
  start := by decide +kernel
  base := by decide +kernel
  recurse := by decide +kernel

end Demo

/-- The loop comes to the Fibonacci number of its argument and the recursion to the factorial, each
as an integer of its width, up to where the default limits stop them. -/
theorem loop_and_recursion_compute :
    (∃ m, (Demo.find "fib" >>= Demo.module) = .ok m ∧ ∀ host (n : Int32),
      (⟨m, host, {}⟩ : Setting).runNamed "fib" [.ofInt 32 n.toInt] =
        if n.toInt ≤ 1999999 then
          .ok (.ofInt 32 (Int32.ofInt (Nat.fib (max n.toInt 0).toNat)).toInt)
        else .error (.stepLimit 10000000)) ∧
    (∃ m, (Demo.find "factorial" >>= Demo.module) = .ok m ∧ ∀ host (n : Int64),
      (⟨m, host, {}⟩ : Setting).runNamed "factorial" [.ofInt 64 n.toInt] =
        if n.toInt ≤ 1 then .ok (.ofInt 64 1)
        else if n.toInt ≤ 512 then
          .ok (.ofInt 64 (Int64.ofInt (Nat.factorial n.toInt.toNat)).toInt)
        else .error (.callDepth 512 "factorial")) := by
  constructor
  · have hmodule := Demo.module_of_built
      (d := ⟨"fib", "iterative fibonacci loop over back-edge phis", Demo.fib⟩)
      (by decide +kernel) (by decide +kernel)
    exact ⟨_, hmodule, Demo.loopsFib_built.runNamed_default⟩
  · have hmodule := Demo.module_of_built
      (d := ⟨"factorial", "recursive i64 factorial", Demo.factorial⟩)
      (by decide +kernel) (by decide +kernel)
    exact ⟨_, hmodule, Demo.callsFactorial_built.runNamed_default⟩

end SsaKit
