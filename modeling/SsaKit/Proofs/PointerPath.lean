import SsaKit.Proofs.Change
import SsaKit.Proofs.Run

/-! Where pointer arithmetic leads: the place a pointer holds, one step beside it, and then one step
inside for each index. -/
namespace SsaKit

/-- What a step from a pointer is added to. -/
def Pointer.offset (p : Pointer) : Int :=
  match p.path.getLast? with
  | some last => last
  | none => p.index

/-- The offset is one of 64 bits. -/
def Pointer.Addressable (p : Pointer) : Prop := -2 ^ 63 ≤ p.offset ∧ p.offset < 2 ^ 63

namespace Setting

open Run

variable (e : Setting) {frame : Frame} {base v w : ValueId} {d : Datum} {p q : Pointer}
  {first rest indices : List ValueId}

/-! ### Stages of a derivation -/

/-- The place that a pointer holds. -/
def locate (frame : Frame) (base : ValueId) : Run Pointer := do
  match ← Run.ofExcept (← e.operand frame base).asPointer with
  | none => throw .pointerNull
  | some p => return p

/-- Go inside, one index after the other. -/
def descend (frame : Frame) (p : Pointer) (indices : List ValueId) : Run Pointer :=
  indices.foldlM (fun p index => do Run.ofExcept (enter p (← e.signedOperand frame index))) p

/-- The place that pointer arithmetic ends at. -/
def reach (frame : Frame) (base : ValueId) : List ValueId → Run Pointer
  | [] => e.locate frame base
  | first :: rest => do
    let p ← e.locate frame base
    let p ← Run.ofExcept (advance e.host p (← e.signedOperand frame first))
    e.descend frame p rest

theorem derive_reach (frame : Frame) (base : ValueId) (indices : List ValueId) :
    e.derive frame base indices = (do return .pointer (some (← e.reach frame base indices))) := by
  unfold derive
  cases indices with
  | nil =>
    simp only [reach, locate, bind_assoc]
    refine bind_congr fun d => bind_congr fun p => ?_
    cases p <;> rfl
  | cons first rest =>
    simp only [reach, locate, descend, bind_assoc]
    refine bind_congr fun d => bind_congr fun p => ?_
    cases p with
    | none => rfl
    | some p => simp only [pure_bind]

@[simp] theorem descend_nil (frame : Frame) (p : Pointer) : e.descend frame p [] = pure p := rfl

theorem descend_cons (frame : Frame) (p : Pointer) (index : ValueId) (indices : List ValueId) :
    e.descend frame p (index :: indices) = (do
      let q ← Run.ofExcept (enter p (← e.signedOperand frame index))
      e.descend frame q indices) := by
  rw [descend, List.foldlM_cons, bind_assoc]
  rfl

theorem descend_append (frame : Frame) (p : Pointer) (first rest : List ValueId) :
    e.descend frame p (first ++ rest) = e.descend frame p first >>= (e.descend frame · rest) := by
  rw [descend, List.foldlM_append]
  rfl

theorem reach_append (frame : Frame) (base : ValueId) (hne : first ≠ []) (rest : List ValueId) :
    e.reach frame base (first ++ rest) =
      e.reach frame base first >>= (e.descend frame · rest) := by
  cases first with
  | nil => exact absurd rfl hne
  | cons head tail => simp only [List.cons_append, reach, descend_append, bind_assoc]

/-! ### Single steps -/

theorem advance_addressable (host : Host) (p : Pointer) (offset : Int) :
    Fault.Ends (advance host p offset) Pointer.Addressable fun _ => True := by
  unfold advance
  split
  · rw [Fault.ends_bind]
    refine (host.ends_sum _ _ fun _ => trivial).mono (fun n hn => ?_) fun _ he => he
    unfold elementIndex
    split
    · trivial
    · change Pointer.Addressable _
      simp only [Pointer.Addressable, Pointer.offset, List.getLast?_concat]
      omega
  · rename_i hpath
    rw [Fault.ends_bind]
    refine (host.ends_sum _ _ fun _ => trivial).mono (fun n hn => ?_) fun _ he => he
    change Pointer.Addressable _
    simpa only [Pointer.Addressable, Pointer.offset, hpath] using hn

theorem enter_addressable (p : Pointer) {index : Int} (h : index < 2 ^ 63) :
    Fault.Ends (enter p index) Pointer.Addressable fun _ => True := by
  unfold enter elementIndex
  split
  · trivial
  · change Pointer.Addressable _
    simp only [Pointer.Addressable, Pointer.offset, List.getLast?_concat]
    omega

theorem advance_zero (host : Host) (h : p.Addressable) : advance host p 0 = .ok p := by
  obtain ⟨n, i, path⟩ := p
  have hstay : host.sum (Pointer.offset ⟨n, i, path⟩) 0 = .ok (Pointer.offset ⟨n, i, path⟩) := by
    unfold Host.sum
    rw [Int.add_zero]
    exact if_pos h
  unfold advance
  unfold Pointer.offset at hstay
  obtain rfl | ⟨front, last, rfl⟩ := path.eq_nil_or_concat'
  · simp only [List.getLast?_nil] at hstay ⊢
    rw [hstay]
    rfl
  · have hlast : ¬ (last : Int) < 0 := by omega
    simp only [List.getLast?_concat] at hstay ⊢
    rw [hstay]
    simp [elementIndex, hlast, bind, Except.bind, pure, Except.pure]

theorem enter_natCast (p : Pointer) (k : Nat) : enter p k = .ok { p with path := p.path ++ [k] } := by
  have hk : ¬ (k : Int) < 0 := by omega
  simp [enter, elementIndex, hk, bind, Except.bind, pure, Except.pure]

theorem enter_of_neg {i : Int} (h : i < 0) (p : Pointer) : enter p i = .error (.negativeIndex i) := by
  simp [enter, elementIndex, h, bind, Except.bind]

/-- A constant reads as itself whatever the frame and the machine. -/
theorem signedOperand_of_constWord? {e : Setting} {bits : Nat} {word : UInt64}
    (hw : e.module.constWord? v = some word)
    (ht : e.module.types.entry (e.module.typeOf v) = .int bits) (frame : Frame) :
    e.signedOperand frame v = pure (Word.signed bits word) := by
  rw [signedOperand, operand_of_word (Module.kindOf_of_constWord? hw) ht, pure_bind]
  rfl

theorem descend_addressable (h : p.Addressable) (frame : Frame) (indices : List ValueId) :
    Ends (e.descend frame p indices) Pointer.Addressable fun _ => True :=
  ends_foldlM h fun p _ index _ =>
    ends_bind (e.signedOperand_bounds frame index) fun _ hn =>
      ends_ofExcept (enter_addressable p hn.2)

/-- Pointer arithmetic ends at an offset of 64 bits, wherever it starts. -/
theorem reach_addressable (hne : indices ≠ []) (frame : Frame) (base : ValueId) :
    Ends (e.reach frame base indices) Pointer.Addressable fun _ => True := by
  cases indices with
  | nil => exact absurd rfl hne
  | cons first rest =>
    refine ends_bind (ends_somehow _) fun p _ => ?_
    refine ends_bind (e.signedOperand_bounds frame first) fun n _ => ?_
    refine ends_bind (ends_ofExcept (advance_addressable e.host p n)) fun p hp => ?_
    exact e.descend_addressable hp frame rest

variable {e : Setting}

/-! ### Pointers in a frame -/

theorem operand_insert_self {i : Instruction} (hv : e.module.kindOf v = .instruction i) :
    e.operand (frame.insert v d) v = pure d := by
  simp [operand, hv]

theorem operand_insert_of_ne (hne : w ≠ v) : e.operand (frame.insert v d) w = e.operand frame w := by
  have hget : (frame.insert v d)[w]? = frame[w]? := by
    rw [getElem?_insert, if_neg (Ne.symm hne)]
  unfold operand
  rw [hget]

theorem descend_insert (hne : ∀ w ∈ indices, w ≠ v) :
    e.descend (frame.insert v d) p indices = e.descend frame p indices := by
  induction indices generalizing p with
  | nil => rfl
  | cons index indices ih =>
    have hrest : ∀ w ∈ indices, w ≠ v := fun w hw => hne w (List.mem_cons_of_mem _ hw)
    simp only [descend_cons, signedOperand, operand_insert_of_ne (hne index List.mem_cons_self),
      ih hrest]

/-- Pointer arithmetic goes on from a pointer in the frame with a step of zero. -/
theorem derive_append {z : ValueId} {i : Instruction} (hne : first ≠ [])
    (hv : e.module.kindOf v = .instruction i) (hrest : ∀ w ∈ rest, w ≠ v)
    (hz : ∀ frame, e.signedOperand frame z = pure 0) :
    e.derive frame base (first ++ rest) = (do
      let d ← e.derive frame base first
      e.derive (frame.insert v d) v (z :: rest)) := by
  have goes (q : Pointer) (hq : q.Addressable) :
      e.derive (frame.insert v (.pointer (some q))) v (z :: rest) = (do
        return .pointer (some (← e.descend frame q rest))) := by
    have hread : Run.ofExcept (Datum.pointer (some q)).asPointer = pure (some q) := rfl
    have hstay : Run.ofExcept (advance e.host q 0) = pure q := by
      rw [advance_zero e.host hq]
      rfl
    simp only [derive_reach, reach, locate, operand_insert_self hv, hz, pure_bind, hread, hstay,
      descend_insert hrest]
  rw [derive_reach, derive_reach, reach_append e frame base hne]
  simp only [bind_assoc, pure_bind]
  exact bind_congr_of_ends (e.reach_addressable hne frame base) fun q hq => (goes q hq).symm

end Setting
end SsaKit
