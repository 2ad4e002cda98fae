import SsaKit.Proofs.Order
import SsaKit.Verify

/-! What a module that passes verification promises about every block of its live functions. -/
namespace SsaKit.Module

variable {m : Module} {f : FunctionId} {b : BlockId} {last v : ValueId} {afterPhis : Bool}
  {l : List ValueId} {i : Instruction}

/-- An instruction in its place: the last one of its block is the only one to leave it, a phi stands
among the first and lists the predecessors, and a call is to a function that is still there. -/
structure InPlace (m : Module) (f : FunctionId) (b : BlockId) (last : ValueId) (afterPhis : Bool)
    (v : ValueId) (i : Instruction) : Prop where
  instruction : m.instruction? v = some i
  terminator : i.isTerminator ↔ v = last
  phi : ∀ incoming, i = .phi incoming → afterPhis ∧ m.mergesAll f b incoming
  callee : ∀ callee args, i = .call callee args → m.isRemoved callee = false

/-- Code of which every instruction is in its place. -/
inductive Placed (m : Module) (f : FunctionId) (b : BlockId) (last : ValueId) :
    Bool → List ValueId → Prop
  | nil (afterPhis : Bool) : Placed m f b last afterPhis []
  | cons {afterPhis : Bool} {v : ValueId} {i : Instruction} {l : List ValueId} :
    m.InPlace f b last afterPhis v i → Placed m f b last (afterPhis && i.isPhi) l →
    Placed m f b last afterPhis (v :: l)

theorem inPlace_of_check (h : m.checkInstruction f b last afterPhis v = .ok ()) :
    ∃ i, m.InPlace f b last afterPhis v i := by
  unfold checkInstruction at h
  simp only [bind, Except.bind, throw, throwThe, MonadExceptOf.throw] at h
  cases hi : m.instruction? v with
  | none => simp [hi] at h
  | some i =>
    simp only [hi] at h
    refine ⟨i, hi, ⟨fun ht => ?_, fun hv => ?_⟩, fun incoming hp => ?_, fun callee args hc => ?_⟩
    · by_contra hv
      simp [ht, hv] at h
    · by_contra ht
      have ht : i.isTerminator = false := by simpa using ht
      simp [ht, hv] at h
    · subst hp
      by_cases hv : v = last
      · simp [Instruction.isTerminator, hv] at h
      · cases afterPhis with
        | false => simp [Instruction.isTerminator, hv] at h
        | true =>
          refine ⟨rfl, ?_⟩
          by_contra hm
          simp [Instruction.isTerminator, hv, hm] at h
    · subst hc
      by_contra hr
      have hr : m.isRemoved callee = true := by simpa using hr
      by_cases hv : v = last <;> simp [Instruction.isTerminator, hv, hr] at h

theorem placed_of_check (h : m.checkInstructions f b last afterPhis l = .ok ()) :
    m.Placed f b last afterPhis l := by
  induction l generalizing afterPhis with
  | nil => exact .nil afterPhis
  | cons v l ih =>
    rw [checkInstructions] at h
    simp only [bind, Except.bind] at h
    split at h
    · cases h
    · rename_i hv
      obtain ⟨i, hi⟩ := inPlace_of_check hv
      rw [hi.instruction, Option.any_some] at h
      exact .cons hi (ih h)

/-- Phis and what comes behind them are checked alike but for the phis. -/
theorem Placed.afterOther (h : m.Placed f b last afterPhis (v :: l)) (hv : m.instruction? v = some i)
    (hp : i.isPhi = false) : m.Placed f b last false (v :: l) := by
  cases h with
  | cons hi hl =>
    obtain rfl := Option.some_inj.mp (hv.symm.trans hi.instruction)
    refine .cons ⟨hv, hi.terminator, fun incoming he => ?_, hi.callee⟩ ?_
    · simp [he, Instruction.isPhi] at hp
    · simpa [hp] using hl

/-- Behind the first other instruction there is no phi. -/
theorem Placed.isPhi_eq_false (h : m.Placed f b last false l) :
    ∀ v ∈ l, ∀ i ∈ m.instruction? v, i.isPhi = false := by
  induction l with
  | nil => simp
  | cons w l ih =>
    cases h with
    | cons hi hl =>
      refine List.forall_mem_cons.mpr ⟨fun j hj => ?_, ih hl⟩
      obtain rfl := Option.some_inj.mp (hi.instruction.symm.trans hj)
      rename_i i
      cases i with
      | phi incoming => exact absurd (hi.phi incoming rfl).1 (by simp)
      | _ => rfl

/-- The phis of a block are all at its head. -/
theorem Placed.phis (h : m.Placed f b last true l) : ∃ phis rest, l = phis ++ rest ∧
    (∀ v ∈ phis, ∃ incoming, m.instruction? v = some (.phi incoming)) ∧
    ∀ v ∈ rest, ∀ i ∈ m.instruction? v, i.isPhi = false := by
  induction l with
  | nil => exact ⟨[], [], rfl, by simp, by simp⟩
  | cons w l ih =>
    cases h with
    | @cons _ _ i _ hi hl =>
      by_cases hphi : i.isPhi = false
      · exact ⟨[], w :: l, rfl, by simp,
          ((Placed.cons hi hl).afterOther hi.instruction hphi).isPhi_eq_false⟩
      · obtain ⟨phis, rest, rfl, hphis, hrest⟩ := ih (by simpa [hphi] using hl)
        refine ⟨w :: phis, rest, rfl, List.forall_mem_cons.mpr ⟨?_, hphis⟩, hrest⟩
        cases i with
        | phi incoming => exact ⟨incoming, hi.instruction⟩
        | _ => exact (hphi rfl).elim

/-- Code behind an instruction that does not end the block ends with the last one too. -/
theorem getLast?_of_inPlace (hi : m.InPlace f b last afterPhis v i) (ht : i.isTerminator = false)
    (hl : (v :: l).getLast? = some last) : l.getLast? = some last := by
  have hv : v ≠ last := fun he => by
    rw [hi.terminator.mpr he] at ht
    cases ht
  cases l with
  | nil => simp [hv] at hl
  | cons w l => simpa using hl

/-- A function whose blocks have all their instructions in place and lead to each other only. -/
structure Verified (m : Module) (f : FunctionId) : Prop where
  inside : ∀ b ∈ m.blocksOf f, ∀ s ∈ m.successors b, m.functionOf? s = some f
  placed : ∀ b ∈ m.blocksOf f, ∃ last, (m.block b).chain.last = some last ∧
    m.Placed f b last true (m.instructions b)

theorem Placed.inPlace_of_mem (h : m.Placed f b last afterPhis l) (hv : v ∈ l) :
    ∃ afterPhis i, m.InPlace f b last afterPhis v i := by
  induction h with
  | nil => cases hv
  | cons hi _ ih =>
    rcases List.mem_cons.mp hv with rfl | hv
    · exact ⟨_, _, hi⟩
    · exact ih hv

/-- Every instruction of a verified function is in its place. -/
theorem Verified.inPlace (h : m.Verified f) (hb : b ∈ m.blocksOf f) (hv : v ∈ m.instructions b) :
    ∃ last afterPhis i, m.InPlace f b last afterPhis v i := by
  obtain ⟨last, -, hplaced⟩ := h.placed b hb
  exact ⟨last, hplaced.inPlace_of_mem hv⟩

/-- A verified function only calls what is still there. -/
theorem Verified.callee {g : FunctionId} {args : List ValueId} (h : m.Verified f)
    (hv : v ∈ m.instructionsOf f) (hi : m.instruction? v = some (.call g args)) :
    m.isRemoved g = false := by
  obtain ⟨b, hb, hin⟩ := List.mem_flatMap.mp hv
  obtain ⟨_, _, i, hplace⟩ := h.inPlace hb hin
  exact hplace.callee g args (Option.some_inj.mp (hplace.instruction.symm.trans hi))

theorem mem_of_mergesAll {incoming : List (BlockId × ValueId)} (h : m.mergesAll f b incoming)
    {e : BlockId × ValueId} (he : e ∈ incoming) : e.1 ∈ m.predecessors f b := by
  simp only [mergesAll, Bool.and_eq_true, List.all_eq_true, List.contains_iff_mem] at h
  exact h.1.1 e.1 (List.mem_map_of_mem he)

theorem forM_ok {α ε : Type} {check : α → Except ε Unit} {xs : List α}
    (h : xs.forM check = .ok ()) : ∀ x ∈ xs, check x = .ok () := by
  induction xs with
  | nil => simp
  | cons x xs ih =>
    change (check x >>= fun _ => xs.forM check) = .ok () at h
    cases hx : check x with
    | error e => simp [hx, bind, Except.bind] at h
    | ok u =>
      simp only [hx, bind, Except.bind] at h
      intro y hy
      rcases List.mem_cons.mp hy with rfl | hy
      · exact hx
      · exact ih h y hy

theorem verified_of_check (h : m.checkFunction f = .ok ()) : m.Verified f := by
  unfold checkFunction at h
  simp only [bind, Except.bind] at h
  split at h
  · cases h
  · rename_i hs
    refine ⟨fun b hb s hmem => ?_, fun b hb => ?_⟩
    · have hc := forM_ok hs b hb
      unfold checkSuccessors at hc
      split at hc
      · cases hc
      · rename_i hn
        simpa using List.find?_eq_none.mp hn s hmem
    · have hc := forM_ok h b hb
      unfold checkBlock at hc
      split at hc
      · cases hc
      · rename_i last hlast
        exact ⟨last, hlast, placed_of_check hc⟩

theorem mem_liveFunctions : f ∈ m.liveFunctions ↔ f.index < m.functions.size ∧
    m.isRemoved f = false := by
  obtain ⟨n⟩ := f
  simp [liveFunctions]

/-- Every live function of a module that passes verification is verified. -/
theorem verified_of_verify (h : m.verify = .ok ()) (hf : f ∈ m.liveFunctions) : m.Verified f := by
  have hv := forM_ok h f hf
  unfold verifyFunction at hv
  cases hc : m.checkFunction f with
  | ok u => exact verified_of_check hc
  | error e => simp [hc, Except.mapError] at hv

end SsaKit.Module
