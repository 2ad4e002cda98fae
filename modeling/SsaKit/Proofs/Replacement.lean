import Mathlib.Algebra.GroupWithZero.Nat
import SsaKit.Proofs.Legality

/-! The replacement of a value by another one of its type: every place of an instruction that held the
one holds the other, and nothing else in the module is touched. -/
namespace SsaKit

open Attempt Setting

namespace Instruction

variable {i : Instruction}

/-- The predicate of a comparison. -/
def predicate? : Instruction → Option (IntPredicate ⊕ FloatPredicate)
  | icmp pred _ _ => some (.inl pred)
  | fcmp pred _ _ => some (.inr pred)
  | _ => none

/-- What a stack slot is made for. -/
def allocated? : Instruction → Option TypeId
  | alloca allocated _ => some allocated
  | _ => none

/-- The blocks that a phi tells apart. -/
def predecessors : Instruction → List BlockId
  | phi incoming => incoming.map (·.1)
  | _ => []

def callee? : Instruction → Option FunctionId
  | call callee _ => some callee
  | _ => none

/-- The member that is taken out of an aggregate or put into it. -/
def field? : Instruction → Option Nat
  | extractValue _ index | insertValue _ _ index => some index
  | _ => none

/-- Two instructions that differ in the values that they read, if in anything. -/
structure SameForm (i j : Instruction) : Prop where
  opcode : j.opcode = i.opcode
  predicate : j.predicate? = i.predicate?
  allocated : j.allocated? = i.allocated?
  successors : j.successors = i.successors
  predecessors : j.predecessors = i.predecessors
  callee : j.callee? = i.callee?
  field : j.field? = i.field?

theorem sameForm_mapOperands (g : ValueId → ValueId) (i : Instruction) :
    i.SameForm (i.mapOperands g) where
  opcode := by cases i <;> rfl
  predicate := by cases i <;> rfl
  allocated := by cases i <;> rfl
  successors := successors_mapOperands g i
  predecessors := by cases i <;> simp [mapOperands, predecessors]
  callee := by cases i <;> rfl
  field := by cases i <;> rfl

end Instruction

namespace Module

variable {m : Module} {old new v : ValueId} {b : BlockId} {f : FunctionId}

/-! ### Places -/

/-- Everything in the arena of values, linked or not. -/
def valueIds (m : Module) : List ValueId := (List.range m.values.size).map Handle.mk

/-- How many places of instructions hold a value. -/
def slots (m : Module) (v : ValueId) : Nat := (m.valueIds.map fun user => (readOf m user).count v).sum

theorem map_valueIds {α : Type} (g : Value → α) :
    (m.valueIds.map fun v => g (m.value v)) = m.values.toList.map fun node => g node.content := by
  apply List.ext_getElem
  · simp [valueIds]
  · intro n hn _
    have hsize : n < m.values.size := by simpa [valueIds] using hn
    simp [valueIds, value, hsize]

theorem useCount_eq : useCount m v = m.slots v := by
  have hslots : m.slots v = (m.values.toList.map fun node =>
      ((node.content.kind.instruction?.map Instruction.operands).getD []).count v).sum :=
    congrArg List.sum (map_valueIds fun value =>
      ((value.kind.instruction?.map Instruction.operands).getD []).count v)
  unfold useCount
  rw [hslots, List.count_flatMap]
  refine congrArg List.sum (List.map_congr_left fun node _ => ?_)
  cases h : node.content.kind <;> simp [h, ValueKind.instruction?]

/-! ### Everything but the places -/

/-- Instructions hold one value where they held another one. What they are apart from that, and
everything that is no instruction, is as it was. -/
structure Rewrites (m m' : Module) (old new : ValueId) : Prop where
  rest : m' = { m with values := m'.values }
  size : m'.values.size = m.values.size
  links : Arena.SameLinks m.values m'.values
  typeOf : ∀ v, m'.typeOf v = m.typeOf v
  name : ∀ v, (m'.value v).name = (m.value v).name
  other : ∀ v, m.instruction? v = none → m'.kindOf v = m.kindOf v
  code : ∀ v i, m.instruction? v = some i → ∃ j, m'.instruction? v = some j ∧ i.SameForm j ∧
    j.operands = i.operands.map fun w => if w = old then new else w

theorem rewrites_replaced (m : Module) (old new : ValueId) :
    m.Rewrites (m.replaced old new) old new where
  rest := rfl
  size := by simp [replaced]
  links := Arena.sameLinks_map _
  typeOf _ := typeOf_replaced
  name v := by
    rw [value_replaced, replaceIn]
    split <;> rfl
  other v hv := by
    rw [kindOf, value_replaced, replaceIn]
    split
    · rename_i i hk
      simp [instruction?, kindOf, hk, ValueKind.instruction?] at hv
    · rfl
  code v i hi := by
    refine ⟨i.mapOperands (standIn old new), ?_, i.sameForm_mapOperands _,
      i.operands_mapOperands _⟩
    rw [instruction?_replaced, hi]
    rfl

/-! ### Users -/

/-- The code of all live functions, in program order. -/
def liveCode (m : Module) : List ValueId := m.liveFunctions.flatMap m.instructionsOf

theorem instructions_replaced : (m.replaced old new).instructions b = m.instructions b := by
  have hnext : (m.replaced old new).values.next? = m.values.next? :=
    funext fun v => (rewrites_replaced m old new).links.next v
  have hsize : (m.replaced old new).values.size = m.values.size := (rewrites_replaced m old new).size
  unfold instructions Chain.toList
  rw [hnext, hsize]
  rfl

theorem liveCode_replaced : (m.replaced old new).liveCode = m.liveCode := by
  have hcode : (m.replaced old new).instructionsOf = m.instructionsOf := by
    funext f
    change (m.blocksOf f).flatMap (m.replaced old new).instructions = _
    rw [show (m.replaced old new).instructions = m.instructions from
      funext fun _ => instructions_replaced]
    rfl
  unfold liveCode
  rw [hcode]
  rfl

/-- Who reads the new value afterwards has read one of the two before. -/
theorem reads_new_replaced (user : ValueId) :
    (m.replaced old new).reads new user = (m.reads old user || m.reads new user) := by
  unfold reads
  rw [instruction?_replaced]
  cases m.instruction? user with
  | none => rfl
  | some i =>
    rw [Bool.eq_iff_iff]
    simp only [Option.map_some, Option.any_some, Instruction.operands_mapOperands,
      List.contains_eq_mem, Bool.or_eq_true, decide_eq_true_eq, List.mem_map]
    constructor
    · rintro ⟨w, hw, he⟩
      unfold standIn at he
      split at he
      · rename_i hold
        exact .inl (hold ▸ hw)
      · exact .inr (he ▸ hw)
    · rintro (hold | hnew)
      · exact ⟨old, hold, if_pos rfl⟩
      · refine ⟨new, hnew, ?_⟩
        unfold standIn
        split <;> rfl

theorem users_new_replaced : (m.replaced old new).users new =
    m.liveCode.filter fun user => user ∈ m.users old ∨ user ∈ m.users new := by
  change (m.replaced old new).liveCode.filter _ = _
  rw [liveCode_replaced]
  refine List.filter_congr fun user huser => ?_
  have hmem (v : ValueId) : user ∈ m.users v ↔ m.reads v user :=
    ⟨fun h => (List.mem_filter.mp h).2, fun h => List.mem_filter.mpr ⟨huser, h⟩⟩
  rw [reads_new_replaced, Bool.eq_iff_iff]
  simp [hmem]

theorem users_old_replaced (hne : old ≠ new) : (m.replaced old new).users old = [] := by
  unfold users
  rw [List.filter_eq_nil_iff]
  intro user _
  simp [reads_replaced hne user]

/-- A value is replaced by another one of its type everywhere where an instruction reads it, and by
nothing where the types differ. -/
theorem replaceAllUses_rewrites (m : Module) (old new : ValueId) :
    if m.typeOf old = m.typeOf new then
      ∃ m', (replaceAllUses old new).outcome m = (.ok (m.slots old), m') ∧ m.Rewrites m' old new ∧
        m'.users new = m.liveCode.filter (fun user => user ∈ m.users old ∨ user ∈ m.users new) ∧
        (old ≠ new → m'.users old = [])
    else (replaceAllUses old new).outcome m =
      (.error (mismatch m (m.typeOf old) (m.typeOf new)), m) := by
  split
  · rename_i ht
    refine ⟨m.replaced old new, ?_, rewrites_replaced m old new, users_new_replaced,
      users_old_replaced⟩
    have hrun : Ends (replaceAllUses old new) m
        (fun n m' => n = m.slots old ∧ m' = m.replaced old new) fun _ => False := by
      rw [replaceAllUses_eq]
      simp only [ends_bind, ends_get, ht, if_true]
      exact ⟨useCount_eq, rfl⟩
    obtain ⟨n, m', ho, rfl, rfl⟩ := hrun.exists_ok
    exact ho
  · rename_i ht
    rw [replaceAllUses_eq, outcome_bind]
    change Attempt.outcome (if m.typeOf old = m.typeOf new then _ else _) m = _
    rw [if_neg ht]
    rfl

end Module
end SsaKit
