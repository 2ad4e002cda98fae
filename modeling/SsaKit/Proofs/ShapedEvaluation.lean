import SsaKit.Proofs.Operation
import SsaKit.Proofs.Run
import SsaKit.Proofs.Symbol

/-! Evaluation keeps shapes: in a frame of well-shaped values every instruction but a load, a call
and a conversion of the bits of a vector has a result of its type. -/
namespace SsaKit

open Run SsaKit.Module
open TypeTable (memberwise_shape)

/-- Every value of a frame has the shape of its type. -/
def Module.Shapes (m : Module) (frame : Frame) : Prop :=
  ∀ v d, frame[v]? = some d → m.types.Shape (m.typeOf v) d

theorem Module.Shapes.insert {m : Module} {frame : Frame} {v : ValueId} {d : Datum}
    (h : m.Shapes frame) (hd : m.types.Shape (m.typeOf v) d) : m.Shapes (frame.insert v d) :=
  Frame.forall_insert (P := fun v => m.types.Shape (m.typeOf v)) h hd

theorem Module.Shapes.insertMany {m : Module} {frame : Frame} {l : List (ValueId × Datum)}
    (h : m.Shapes frame) (hl : ∀ p ∈ l, m.types.Shape (m.typeOf p.1) p.2) :
    m.Shapes (frame.insertMany l) :=
  Frame.forall_insertMany (P := fun v => m.types.Shape (m.typeOf v)) h hl

/-- An instruction whose result depends on neither the content of memory nor the bits of a
vector. -/
def Module.isPlain (m : Module) (v : ValueId) : Instruction → Bool
  | .load _ => false
  | .cast .bitcast w =>
    m.types.kind (m.typeOf w) != .vector && m.types.kind (m.typeOf v) != .vector
  | _ => true

/-- The accesses to a member that the instruction names. -/
def Instruction.takesMember : Instruction → Bool
  | .extractValue _ _ | .insertValue _ _ _ => true
  | _ => false

namespace Setting

variable {e : Setting} {v : ValueId} {frame : Frame}

theorem tame_sober {α : Type} {step : Run α} {ok : α → Prop} (h : Tamely step) (hok : ∀ a, ok a) :
    Ends step ok Fault.Sober :=
  h.mono (fun a _ => hok a) fun _ he => he.2.1

theorem tame_shapely {α : Type} {step : Run α} {ok : α → Prop} (h : Tamely step) (hok : ∀ a, ok a) :
    Ends step ok Fault.Shapely :=
  (tame_sober h hok).mono (fun _ h => h) fun _ he => he.1

/-! ### Operands -/

theorem shape_byte {byte : TypeId} (he : e.module.types.entry byte = .int 8) (b : UInt8) :
    e.module.types.Shape byte (byteDatum b) := by
  refine ⟨he, fun _ => ?_⟩
  simpa using b.toNat_lt

section

variable (hs : e.module.Sound) (hv : e.module.values.Has v)
include hs hv

theorem wordDatum_shaped {word : UInt64} (hk : e.module.kindOf v = .int word) :
    e.module.types.Shape (e.module.typeOf v) (e.wordDatum (e.module.typeOf v) word) := by
  have hfits := (hs.values v hv).2
  rw [hk] at hfits
  obtain ⟨bits, -, he, hmask⟩ := hfits
  have hwidth : e.module.types.intWidth (e.module.typeOf v) = some bits := by
    simp [TypeTable.intWidth, he, Ty.intWidth]
  rw [wordDatum, hwidth]
  exact TypeTable.shape_word he hmask

theorem floatDatum_shaped {number : Double} (hk : e.module.kindOf v = .float number) :
    e.module.types.Shape (e.module.typeOf v) (e.floatDatum (e.module.typeOf v) number) := by
  have hfits := (hs.values v hv).2
  rw [hk] at hfits
  have hkind : e.module.types.kind (e.module.typeOf v) = .float := hfits
  rw [floatDatum]
  cases he : e.module.types.entry (e.module.typeOf v) with
  | float | double => exact he
  | _ => simp [TypeTable.kind, he, Ty.kind] at hkind

theorem bytes_shaped {data : List UInt8} (hk : e.module.kindOf v = .bytes data) :
    e.module.types.Shape (e.module.typeOf v) (.aggregate (data.map byteDatum)) := by
  have hfits := (hs.values v hv).2
  rw [hk] at hfits
  obtain ⟨byte, he, hbyte⟩ := hfits
  refine (TypeTable.shape_lanes (n := data.length) (e := byte) ?_).mpr ⟨by simp, ?_⟩
  · simp [he, Ty.members]
  · intro d hd
    obtain ⟨b, -, rfl⟩ := List.mem_map.mp hd
    exact shape_byte hbyte b

end

theorem constant_shaped (hs : e.module.Sound) (fuel : Nat) (hv : e.module.values.Has v) :
    Ends (e.constant fuel v) (e.module.types.Shape (e.module.typeOf v)) Fault.Sober := by
  induction fuel generalizing v with
  | zero => exact ends_throw ⟨rfl, rfl⟩
  | succ fuel ih =>
    have hfits := (hs.values v hv).2
    unfold constant
    dsimp only
    cases hk : (e.module.value v).kind with
    | int word => exact ends_pure (wordDatum_shaped hs hv hk)
    | float number => exact ends_pure (floatDatum_shaped hs hv hk)
    | null =>
      have hk : e.module.kindOf v = .null := hk
      rw [hk] at hfits
      exact ends_pure hfits
    | undef =>
      have hk : e.module.kindOf v = .undef := hk
      rw [hk] at hfits
      refine ends_bind (ends_get fun _ => trivial) fun s _ => ?_
      have hzero := s.memory.zero_ends e.host e.module.types (e.module.value v).type
      refine ends_ofExcept (hzero.mono (fun d hd => ?_) fun _ he => he.1.2.1)
      exact hd ▸ hs.types.shape_zero hfits
    | aggregate elements =>
      have hk : e.module.kindOf v = .aggregate elements := hk
      rw [hk] at hfits
      obtain ⟨helements, hmembers⟩ := hfits
      refine ends_bind (ends_mapM fun w hw => ih (helements w hw).1) fun ds hds => ends_pure ?_
      refine TypeTable.shape_aggregate.mpr ⟨_, hmembers, ?_⟩
      rw [List.forall₂_map_left_iff]
      exact hds
    | bytes data => exact ends_pure (bytes_shaped hs hv hk)
    | global g =>
      have hk : e.module.kindOf v = .global g := hk
      rw [hk] at hfits
      obtain ⟨he, -, hinit⟩ := hfits
      refine ends_bind (e.storage_ends (fun _ he => he.1.2.1) (fun _ => ⟨rfl, rfl⟩) fun init hi => ?_)
        fun p _ => ?_
      · exact (ih (hinit init hi).1).mono (fun _ _ => trivial) fun _ he => he
      · exact ends_pure (by simp [TypeTable.Shape, TypeTable.kind, he, Ty.kind])
    | argument f n => exact ends_throw ⟨rfl, rfl⟩
    | instruction i => exact ends_throw ⟨rfl, rfl⟩

theorem operand_sober (hs : e.module.Sound) (hf : e.module.Shapes frame)
    (hv : e.module.values.Has v) :
    Ends (e.operand frame v) (e.module.types.Shape (e.module.typeOf v)) Fault.Sober := by
  have found : Ends (framed frame v) (e.module.types.Shape (e.module.typeOf v)) Fault.Sober := by
    unfold framed
    cases hd : frame[v]? with
    | some d => exact ends_pure (hf v d hd)
    | none => exact ends_throw ⟨rfl, rfl⟩
  unfold operand
  split
  · exact found
  · exact found
  · exact constant_shaped hs e.constantDepth hv

theorem operand_shaped (hs : e.module.Sound) (hf : e.module.Shapes frame)
    (hv : e.module.values.Has v) :
    Ends (e.operand frame v) (e.module.types.Shape (e.module.typeOf v)) Fault.Shapely :=
  (operand_sober hs hf hv).mono (fun _ h => h) fun _ he => he.1

section

variable (hs : e.module.Sound) (hf : e.module.Shapes frame) (hv : e.module.values.Has v)
include hs hf hv

theorem wordOperand_shaped (hk : e.module.types.kind (e.module.typeOf v) = .integer) :
    Ends (e.wordOperand frame v) (fun _ => True) Fault.Shapely := by
  unfold wordOperand
  exact ends_bind (operand_shaped hs hf hv) fun d hd => ends_ofExcept (Datum.ends_asWord hd hk)

theorem signedOperand_shaped (hk : e.module.types.kind (e.module.typeOf v) = .integer) :
    Ends (e.signedOperand frame v) (fun _ => True) Fault.Shapely := by
  unfold signedOperand
  exact ends_bind (operand_shaped hs hf hv) fun d hd => ends_ofExcept (Datum.ends_asSigned hd hk)

theorem members_shaped {ids : List TypeId}
    (hm : (e.module.types.entry (e.module.typeOf v)).members = some ids) :
    Ends (e.members frame v) (List.Forall₂ e.module.types.Shape ids) Fault.Shapely := by
  unfold members
  exact ends_bind (operand_shaped hs hf hv) fun d hd =>
    ends_ofExcept (Datum.ends_asMembers memberwise_shape hd hm)

theorem lanes_shaped {element : TypeId} {n : Nat}
    (hm : (e.module.types.entry (e.module.typeOf v)).members = some (List.replicate n element)) :
    Ends (e.members frame v) (fun ds => ds.length = n ∧ ∀ d ∈ ds, e.module.types.Shape element d)
      Fault.Shapely :=
  (members_shaped hs hf hv hm).mono (fun _ h => TypeTable.forall₂_replicate.mp h) fun _ he => he

theorem derive_shaped {indices : List ValueId}
    (hk : e.module.types.kind (e.module.typeOf v) = .pointer)
    (hindices : ∀ w ∈ indices, e.module.values.Has w ∧
      e.module.types.kind (e.module.typeOf w) = .integer) :
    Ends (e.derive frame v indices) (fun d => ∃ p, d = .pointer p) Fault.Shapely := by
  have index {i : Int} : Fault.Ends (elementIndex i) (fun _ => True) Fault.Shapely := by
    unfold elementIndex
    split
    · exact rfl
    · trivial
  have hover (_ : e.host.isChecked) : Fault.Shapely (.crash .overflow) := rfl
  have summed (a b : Int) : Fault.Ends (e.host.sum a b) (fun _ => True) Fault.Shapely :=
    (e.host.ends_sum a b hover).mono (fun _ _ => trivial) fun _ he => he
  have advanced (p : Pointer) (i : Int) :
      Fault.Ends (advance e.host p i) (fun _ => True) Fault.Shapely := by
    unfold advance
    split
    · rw [Fault.ends_bind]
      refine (summed _ _).mono (fun _ _ => ?_) fun _ he => he
      rw [Fault.ends_bind]
      exact index.mono (fun _ _ => trivial) fun _ he => he
    · rw [Fault.ends_bind]
      exact (summed _ _).mono (fun _ _ => trivial) fun _ he => he
  have entered (p : Pointer) (i : Int) : Fault.Ends (enter p i) (fun _ => True) Fault.Shapely := by
    unfold enter
    rw [Fault.ends_bind]
    exact index.mono (fun _ _ => trivial) fun _ he => he
  unfold derive
  refine ends_bind (operand_shaped hs hf hv) fun d hd => ?_
  refine ends_bind (ends_ofExcept (Datum.ends_asPointer hd hk)) fun target _ => ?_
  split
  · exact ends_throw rfl
  · split
    · exact ends_pure ⟨_, rfl⟩
    · rename_i first rest
      obtain ⟨hfirst, hrest⟩ := List.forall_mem_cons.mp hindices
      refine ends_bind (signedOperand_shaped hs hf hfirst.1 hfirst.2) fun offset _ => ?_
      refine ends_bind (ends_ofExcept (advanced _ offset)) fun p _ => ?_
      refine ends_bind_any (ends_foldlM trivial fun p _ w hw => ?_) fun _ => ends_pure ⟨_, rfl⟩
      obtain ⟨hw, hwk⟩ := hrest w hw
      refine ends_bind (signedOperand_shaped hs hf hw hwk) fun i _ => ?_
      exact ends_ofExcept (entered p i)

end

/-! ### Instructions -/

theorem slotCount_shaped {count : Option ValueId} (hs : e.module.Sound)
    (hf : e.module.Shapes frame) (hcount : ∀ n ∈ count, e.module.values.Has n ∧
      e.module.types.kind (e.module.typeOf n) = .integer) :
    Ends (e.slotCount frame count) (fun _ => True) Fault.Shapely := by
  unfold slotCount
  split
  · exact ends_pure trivial
  · rename_i n
    obtain ⟨hn, hk⟩ := hcount n rfl
    refine ends_bind (signedOperand_shaped hs hf hn hk) fun i _ => ?_
    split
    · exact ends_bind_any (ends_throw rfl) fun _ => ends_pure trivial
    · exact ends_pure trivial

theorem shape_pointer {id : TypeId} (hk : e.module.types.kind id = .pointer) (p : Option Pointer) :
    e.module.types.Shape id (.pointer p) := hk

/-- A plain instruction that is no call has a result of its type. -/
theorem evaluate_shaped {i : Instruction} {callee : FunctionId → List Datum → Run Datum}
    (hs : e.module.Sound) (hf : e.module.Shapes frame) (hi : e.module.instruction? v = some i)
    (hplain : e.module.isPlain v i) (hcall : ∀ f args, i ≠ .call f args) :
    Ends (e.evaluate callee frame (e.module.typeOf v) i)
      (e.module.types.Shape (e.module.typeOf v)) Fault.Shapely := by
  have hfits := hs.instructionFits hi
  have hhas := hs.operands_has hi
  have operand {w : ValueId} (hw : w ∈ i.operands) :=
    operand_shaped (e := e) hs hf (hhas w hw)
  unfold evaluate
  cases i with
  | call f args => exact (hcall f args rfl).elim
  | load ptr => cases hplain
  | branch _ | condBranch _ _ _ | switch _ _ _ | ret _ | unreachable | phi _ =>
    exact ends_throw rfl
  | binary op lhs rhs =>
    obtain ⟨htl, htr, hlanes⟩ := hfits
    have hl : lhs ∈ (Instruction.binary op lhs rhs).operands := by simp [Instruction.operands]
    have hr : rhs ∈ (Instruction.binary op lhs rhs).operands := by simp [Instruction.operands]
    refine ends_bind (operand hl) fun a ha => ends_bind (operand hr) fun b hb => ?_
    exact ends_ofExcept (Datum.binary_ends e.host hlanes (htl ▸ ha) (htr ▸ hb))
  | icmp pred lhs rhs =>
    obtain ⟨htypes, hlanes, htruths⟩ := hfits
    have hl : lhs ∈ (Instruction.icmp pred lhs rhs).operands := by simp [Instruction.operands]
    have hr : rhs ∈ (Instruction.icmp pred lhs rhs).operands := by simp [Instruction.operands]
    refine ends_bind (operand hl) fun a ha => ends_bind (operand hr) fun b hb => ?_
    exact ends_ofExcept (Datum.icmp_ends pred hlanes htruths ha (htypes ▸ hb))
  | fcmp pred lhs rhs =>
    obtain ⟨htypes, hlanes, htruths⟩ := hfits
    have hl : lhs ∈ (Instruction.fcmp pred lhs rhs).operands := by simp [Instruction.operands]
    have hr : rhs ∈ (Instruction.fcmp pred lhs rhs).operands := by simp [Instruction.operands]
    refine ends_bind (operand hl) fun a ha => ends_bind (operand hr) fun b hb => ?_
    exact ends_ofExcept (Datum.fcmp_ends pred hlanes htruths ha (htypes ▸ hb))
  | alloca allocated count =>
    obtain ⟨-, he, hcount⟩ := hfits
    have hhere : ∀ n ∈ count, n ∈ (Instruction.alloca allocated count).operands := fun n hn => by
      simpa [Instruction.operands] using hn
    refine ends_bind (slotCount_shaped hs hf fun n hn => ⟨hhas n (hhere n hn), hcount n hn⟩)
      fun n _ => ?_
    refine ends_bind (tame_shapely (allocate_physically _ _ _ _ _).tamely fun _ => trivial) fun p _ => ?_
    exact ends_pure (shape_pointer (by simp [TypeTable.kind, he, Ty.kind]) _)
  | store value ptr =>
    obtain ⟨he, hvoid⟩ := hfits
    have hvalue : value ∈ (Instruction.store value ptr).operands := by simp [Instruction.operands]
    have hptr : ptr ∈ (Instruction.store value ptr).operands := by simp [Instruction.operands]
    refine ends_bind (operand hvalue) fun d _ => ends_bind (operand hptr) fun target ht => ?_
    have hk : e.module.types.kind (e.module.typeOf ptr) = .pointer := by
      simp [TypeTable.kind, he, Ty.kind]
    refine ends_bind (ends_ofExcept (Datum.ends_asPointer ht hk)) fun p _ => ?_
    exact ends_bind (tame_shapely (store_physically p d).tamely fun _ => trivial) fun _ _ =>
      ends_pure hvoid
  | elementPtr base indices =>
    obtain ⟨hbase, -, hindices, hk⟩ := hfits
    refine (derive_shaped hs hf (hhas base (by simp [Instruction.operands])) hbase fun w hw =>
      ⟨hhas w (by simp [Instruction.operands, hw]), hindices w hw⟩).mono (fun d hd => ?_)
        fun _ he => he
    obtain ⟨p, rfl⟩ := hd
    exact shape_pointer hk p
  | cast op value =>
    have hvalue : value ∈ (Instruction.cast op value).operands := by simp [Instruction.operands]
    refine ends_bind (operand hvalue) fun d hd => ends_ofExcept ?_
    refine Datum.cast_ends hfits (fun hop => ?_) hd
    subst hop
    simpa [isPlain] using hplain
  | extractValue aggregate index =>
    obtain ⟨ids, hm, hid⟩ := TypeTable.members_of_member? hfits
    refine ends_bind (members_shaped hs hf (hhas aggregate (by simp [Instruction.operands])) hm)
      fun ds hds => ?_
    exact ends_ofExcept ((Datum.pick_member hds hid).mono (fun _ hd => hd) fun _ he => he.elim)
  | insertValue aggregate element index =>
    obtain ⟨htype, hmember⟩ := hfits
    obtain ⟨ids, hm, hid⟩ := TypeTable.members_of_member? hmember
    have helement : element ∈ (Instruction.insertValue aggregate element index).operands := by
      simp [Instruction.operands]
    refine ends_bind (members_shaped hs hf (hhas aggregate (by simp [Instruction.operands]))
      (htype ▸ hm)) fun ds hds => ends_bind (operand helement) fun d hd => ?_
    exact ends_ofExcept ((Datum.put_member memberwise_shape hm hds hid hd).mono (fun _ hd => hd)
      fun _ he => he.elim)
  | extractElement vector index =>
    obtain ⟨hk, n, he⟩ := hfits
    have hm : (e.module.types.entry (e.module.typeOf vector)).members =
        some (List.replicate n (e.module.typeOf v)) := by simp [he, Ty.members]
    refine ends_bind (lanes_shaped hs hf (hhas vector (by simp [Instruction.operands])) hm)
      fun ds hds => ?_
    refine ends_bind (wordOperand_shaped hs hf (hhas index (by simp [Instruction.operands])) hk)
      fun w _ => ?_
    exact ends_ofExcept (Datum.pick_lane hds.2 _)
  | insertElement vector element index =>
    obtain ⟨hk, htype, n, he⟩ := hfits
    have hm : (e.module.types.entry (e.module.typeOf v)).members =
        some (List.replicate n (e.module.typeOf element)) := by simp [he, Ty.members]
    have helement : element ∈ (Instruction.insertElement vector element index).operands := by
      simp [Instruction.operands]
    refine ends_bind (lanes_shaped hs hf (hhas vector (by simp [Instruction.operands]))
      (htype ▸ hm)) fun ds hds => ends_bind (operand helement) fun d hd => ?_
    refine ends_bind (wordOperand_shaped hs hf (hhas index (by simp [Instruction.operands])) hk)
      fun w _ => ?_
    exact ends_ofExcept (Datum.put_lane memberwise_shape hm hds.1 hds.2 hd _)
  | shuffle lhs rhs mask =>
    obtain ⟨htypes, element, bit, n, k, hlhs, hmask, hbit, hresult⟩ := hfits
    have hm : (e.module.types.entry (e.module.typeOf lhs)).members =
        some (List.replicate n element) := by simp [hlhs, Ty.members]
    refine ends_bind (lanes_shaped hs hf (hhas lhs (by simp [Instruction.operands])) hm)
      fun left hleft => ?_
    refine ends_bind (lanes_shaped hs hf (hhas rhs (by simp [Instruction.operands]))
      (htypes ▸ hm)) fun right hright => ?_
    have hbits : (e.module.types.entry (e.module.typeOf mask)).members =
        some (List.replicate k bit) := by simp [hmask, Ty.members]
    refine ends_bind (lanes_shaped hs hf (hhas mask (by simp [Instruction.operands])) hbits)
      fun picks hpicks => ?_
    obtain ⟨hlength, hpicks⟩ := hpicks
    refine ends_ofExcept (Datum.shuffle_ends memberwise_shape hleft.2 hright.2 ?_ hpicks ?_)
    · simp [TypeTable.kind, hbit, Ty.kind]
    · simp [hresult, Ty.members, hlength]
  | select cond thenValue elseValue =>
    obtain ⟨hthen, helse, hcond⟩ := hfits
    have hc : cond ∈ (Instruction.select cond thenValue elseValue).operands := by
      simp [Instruction.operands]
    have ha : thenValue ∈ (Instruction.select cond thenValue elseValue).operands := by
      simp [Instruction.operands]
    have hb : elseValue ∈ (Instruction.select cond thenValue elseValue).operands := by
      simp [Instruction.operands]
    refine ends_bind (operand hc) fun c hc => ends_bind (operand ha) fun a ha => ?_
    refine ends_bind (operand hb) fun b hb => ?_
    exact ends_ofExcept (Datum.select_ends memberwise_shape hcond hc (hthen ▸ ha) (helse ▸ hb))

/-- The members that a plain access asks for are there. -/
theorem evaluate_member {i : Instruction} {callee : FunctionId → List Datum → Run Datum}
    (hs : e.module.Sound) (hf : e.module.Shapes frame) (hi : e.module.instruction? v = some i)
    (hmember : i.takesMember) : Ends (e.evaluate callee frame (e.module.typeOf v) i)
      (fun _ => True) fun fault => fault.isMember = false := by
  have hfits := hs.instructionFits hi
  have hhas := hs.operands_has hi
  have operand {w : ValueId} (hw : w ∈ i.operands) :
      Ends (e.operand frame w) (e.module.types.Shape (e.module.typeOf w))
        fun fault => fault.isMember = false :=
    (operand_sober hs hf (hhas w hw)).mono (fun _ h => h) fun _ he => he.2
  unfold evaluate
  cases i with
  | extractValue aggregate index =>
    obtain ⟨ids, hm, hid⟩ := TypeTable.members_of_member? hfits
    have haggregate : aggregate ∈ (Instruction.extractValue aggregate index).operands := by
      simp [Instruction.operands]
    refine ends_bind (ends_bind (operand haggregate) fun d hd => ends_ofExcept
      (Datum.ends_asMembers memberwise_shape hd hm)) fun ds hds => ?_
    exact ends_ofExcept ((Datum.pick_member hds hid).mono (fun _ _ => trivial)
      fun _ he => he.elim)
  | insertValue aggregate element index =>
    obtain ⟨htype, hmember⟩ := hfits
    obtain ⟨ids, hm, hid⟩ := TypeTable.members_of_member? hmember
    have haggregate : aggregate ∈ (Instruction.insertValue aggregate element index).operands := by
      simp [Instruction.operands]
    have helement : element ∈ (Instruction.insertValue aggregate element index).operands := by
      simp [Instruction.operands]
    refine ends_bind (ends_bind (operand haggregate) fun d hd => ends_ofExcept
      (Datum.ends_asMembers memberwise_shape hd (htype ▸ hm))) fun ds hds => ?_
    refine ends_bind (operand helement) fun d hd => ?_
    exact ends_ofExcept ((Datum.put_member memberwise_shape hm hds hid hd).mono
      (fun _ _ => trivial) fun _ he => he.elim)
  | _ => cases hmember

end Setting
end SsaKit
