import SsaKit.Proofs.TypedMemory

/-! Evaluation keeps machines typed: derived pointers lead where the builder says, and every
instruction has a typed result. -/
namespace SsaKit

namespace Setting

open Run SsaKit.Module

variable {e : Setting} {made : Nat → TypeId → Prop} {rows : List TypeId} {s : Machine}
  {frame : Frame} {v : ValueId}

/-! ### Reading -/

theorem constant_typed (hs : e.module.Sound) (fuel : Nat) (hv : e.module.values.Has v)
    (h : e.module.Stores made rows s) : Yields e.module made rows s (e.constant fuel v)
      fun rows d => e.module.types.Typed rows (e.module.typeOf v) d ∧
        ∀ p, d = .pointer (some p) → p.path = [] := by
  induction fuel generalizing v rows s with
  | zero => exact yields_throw _
  | succ fuel ih =>
    have hfits := (hs.values v hv).2
    have hshape := constant_shaped hs (fuel + 1) hv
    -- constants without places are typed because they are well-shaped
    have plain {step : Run Datum} (hshape : Ends step
        (e.module.types.Shape (e.module.typeOf v)) Fault.Sober)
        (hstep : Yields e.module made rows s step fun _ d =>
          d.Mirrors ([] : List Nat) d) : Yields e.module made rows s step fun rows d =>
        e.module.types.Typed rows (e.module.typeOf v) d ∧
          ∀ p, d = .pointer (some p) → p.path = [] := by
      refine (hstep.and hshape).mono fun rows' d _ hd => ⟨.of_shape hd.2 hd.1, ?_⟩
      rintro p rfl
      cases hd.1 with
      | pointer hp => simpa using hp.allocation
    unfold constant at hshape ⊢
    dsimp only at hshape ⊢
    cases hk : (e.module.value v).kind with
    | int word =>
      rw [hk] at hshape
      exact plain hshape (yields_pure h (.refl rfl))
    | float number =>
      rw [hk] at hshape
      refine plain hshape (yields_pure h (.refl ?_))
      unfold floatDatum
      split <;> rfl
    | null =>
      rw [hk] at hshape
      exact plain hshape (yields_pure h .null)
    | undef =>
      rw [hk] at hshape
      have hzero := s.memory.zero_ends e.host e.module.types (e.module.value v).type
      refine plain hshape (yields_get (yields_ofExcept h (hzero.mono (fun d hd => ?_) fun _ he => he)))
      exact hd ▸ Datum.mirrors_zero _ _
    | bytes data =>
      rw [hk] at hshape
      refine plain hshape (yields_pure h (.refl ?_))
      refine Datum.anyPointer_eq_false.mpr fun d hd => ?_
      obtain ⟨b, -, rfl⟩ := List.mem_map.mp hd
      rfl
    | aggregate elements =>
      have hk : e.module.kindOf v = .aggregate elements := hk
      rw [hk] at hfits
      obtain ⟨helements, hmembers⟩ := hfits
      refine yields_bind (yields_mapM h (P := fun rows w d =>
        e.module.types.Typed rows (e.module.typeOf w) d) (fun _ _ _ _ hr hd => hd.mono hr)
        fun rows' t _ ht w hw => (ih (helements w hw).1 ht).mono fun _ _ _ hd => hd.1)
        fun rows' ds t _ ht hds _ => yields_pure ht ⟨?_, by simp⟩
      refine TypeTable.typed_aggregate.mpr ⟨_, hmembers, ?_⟩
      rw [List.forall₂_map_left_iff]
      exact hds
    | global g =>
      have hk : e.module.kindOf v = .global g := hk
      rw [hk] at hfits
      obtain ⟨he, hg, hinit⟩ := hfits
      refine yields_bind (storage_typed hs h hk hg fun init hi rows t ht => ?_)
        fun rows' p t _ ht hp _ => yields_pure ht ⟨⟨_, he, ?_⟩, ?_⟩
      · obtain ⟨hhas, -, htype⟩ := hinit init hi
        exact (ih hhas ht).mono fun rows d _ hd => htype ▸ hd.1
      · rintro q ⟨⟩
        exact TypeTable.aims_whole hp.2 hp.1
      · rintro q hq
        cases hq
        exact hp.1
    | argument f n => exact yields_throw _
    | instruction i => exact yields_throw _

/-- A first index that steps from a field of a struct to another field, which has another type than
the base points to. -/
def Strays (e : Setting) (allots : Nat → TypeId → Prop) (frame : Frame) (s : Machine)
    (base first : ValueId) : Prop :=
  ∃ (p : Pointer) (front : List Nat) (last : Nat) (root struct field : TypeId)
    (name : Option String) (fields : List TypeId) (isPacked : Bool) (offset : Int),
    frame[base]? = some (.pointer (some p)) ∧ p.path = front ++ [last] ∧
    allots p.allocation root ∧ e.module.types.resolve root front = some struct ∧
    e.module.types.entry struct = .struct name (some fields) isPacked ∧
    ((e.signedOperand frame first).run.run s).1 = .ok offset ∧ offset ≠ 0 ∧ 0 ≤ last + offset ∧
    fields[(last + offset).toNat]? = some field ∧
    e.module.types.entry (e.module.typeOf base) ≠ .pointer field

/-- The constant zero steps nowhere. -/
theorem not_strays_of_zero {allots : Nat → TypeId → Prop} {base : ValueId} (hs : e.module.Sound)
    (hw : e.module.constWord? v = some 0) : ¬ e.Strays allots frame s base v := by
  rintro ⟨-, -, -, -, -, -, -, -, -, offset, -, -, -, -, -, hoffset, hne, -⟩
  have hk := kindOf_of_constWord? hw
  have hfits := (hs.values v (has_of_kindOf (by simp [hk]))).2
  rw [hk] at hfits
  obtain ⟨bits, -, he, -⟩ := hfits
  unfold signedOperand at hoffset
  rw [operand_of_word hk he] at hoffset
  have hzero : Word.signed bits 0 = offset := Except.ok.inj hoffset
  refine hne (hzero ▸ ?_)
  unfold Word.signed
  split
  · rfl
  · simp

section

variable (hs : e.module.Sound) (h : e.module.Stores made rows s) (hf : e.module.Holds rows frame)
  (hv : e.module.values.Has v)
include hs h hf hv

theorem operand_typed : Yields e.module made rows s (e.operand frame v)
    fun rows d => e.module.types.Typed rows (e.module.typeOf v) d := by
  have found : Yields e.module made rows s (framed frame v)
      fun rows d => e.module.types.Typed rows (e.module.typeOf v) d := by
    unfold framed
    cases hd : frame[v]? with
    | some d => exact yields_pure h (hf v d hd)
    | none => exact yields_throw _
  unfold operand
  split
  · exact found
  · exact found
  · exact (constant_typed hs e.constantDepth hv h).mono fun _ _ _ hd => hd.1

omit hf in
/-- A place inside a whole comes from the frame. -/
theorem framed_of_inside {p : Pointer} {t : Machine}
    (hr : (e.operand frame v).run.run s = (.ok (.pointer (some p)), t)) (hp : p.path ≠ []) :
    frame[v]? = some (.pointer (some p)) ∧ t = s := by
  have found (hr : (framed frame v).run.run s = (.ok (.pointer (some p)), t)) :
      frame[v]? = some (.pointer (some p)) ∧ t = s := by
    unfold framed at hr
    cases hd : frame[v]? with
    | none =>
      rw [hd] at hr
      cases hr
    | some d =>
      rw [hd] at hr
      cases hr
      exact ⟨rfl, rfl⟩
  unfold operand at hr
  split at hr
  · exact found hr
  · exact found hr
  · obtain ⟨-, -, -, -, hpath⟩ := constant_typed hs e.constantDepth hv h _ t hr
    exact (hp (hpath p rfl)).elim

theorem pointerOperand_typed {pointee : TypeId}
    (he : e.module.types.entry (e.module.typeOf v) = .pointer pointee) :
    Yields e.module made rows s (e.operand frame v) fun rows d =>
      ∃ target, d = .pointer target ∧ ∀ p ∈ target, e.module.types.Aims rows pointee p := by
  refine (operand_typed hs h hf hv).mono fun rows' d _ hd => ?_
  obtain ⟨target, rfl⟩ := hd.shape.pointer (by simp [TypeTable.kind, he, Ty.kind])
  obtain ⟨pointee', he', hp⟩ := hd
  obtain rfl : pointee = pointee' := by simpa [he] using he'
  exact ⟨target, rfl, hp⟩

theorem members_typed {ids : List TypeId}
    (hm : (e.module.types.entry (e.module.typeOf v)).members = some ids) :
    Yields e.module made rows s (e.members frame v)
      fun rows => List.Forall₂ (e.module.types.Typed rows) ids := by
  unfold members
  refine yields_bind (operand_typed hs h hf hv) fun rows' d t _ ht hd _ => ?_
  have hmembers : Fault.Ends d.asMembers (List.Forall₂ (e.module.types.Typed rows') ids)
      Fault.Shapely := Datum.ends_asMembers TypeTable.memberwise_typed hd hm
  exact yields_ofExcept ht hmembers

theorem wordOperand_typed : Yields e.module made rows s (e.wordOperand frame v)
    fun _ _ => True := by
  unfold wordOperand
  exact yields_bind (operand_typed hs h hf hv) fun rows' d t _ ht _ _ =>
    yields_ofExcept ht d.asWord_plainly

/-- An index that is no negative number reads as its word where it is constant. -/
theorem signedOperand_typed : Yields e.module made rows s (e.signedOperand frame v)
    fun _ i => ∀ word, e.module.constWord? v = some word → 0 ≤ i → i.toNat = word.toNat := by
  have any : Yields e.module made rows s (e.signedOperand frame v) fun _ _ => True := by
    unfold signedOperand
    exact yields_bind (operand_typed hs h hf hv) fun rows' d t _ ht _ _ =>
      yields_ofExcept ht d.asSigned_plainly
  cases hw : e.module.constWord? v with
  | none => exact any.mono fun _ _ _ _ word hword => by cases hword
  | some word =>
    have hk := kindOf_of_constWord? hw
    have hfits := (hs.values v hv).2
    rw [hk] at hfits
    obtain ⟨bits, -, he, hmask⟩ := hfits
    have hword : Ends (e.signedOperand frame v)
        (fun i => ∀ w, some word = some w → 0 ≤ i → i.toNat = w.toNat) Fault.Shapely := by
      unfold signedOperand
      rw [operand_of_word hk he]
      rintro t w ⟨⟩ hi
      exact Word.toNat_signed hmask hi
    exact (any.and hword).mono fun _ _ _ hi => hi.2

theorem slotCount_typed : Yields e.module made rows s (e.slotCount frame (some v))
    fun _ _ => True := by
  unfold slotCount
  refine yields_bind (signedOperand_typed hs h hf hv) fun rows' n t _ ht _ _ => ?_
  split
  · exact yields_throw_bind _ _
  · exact yields_pure ht trivial

end

/-! ### Derived pointers -/

theorem elementIndex_ends (i : Int) :
    Fault.Ends (elementIndex i) (fun k => 0 ≤ i ∧ i.toNat = k) fun _ => True := by
  unfold elementIndex
  split
  · trivial
  · exact ⟨by omega, rfl⟩

theorem advance_aims {host : Host} {t : TypeTable} {pointee : TypeId} {p : Pointer} {offset : Int}
    (h : t.Aims rows pointee p) (ho : -2 ^ 63 ≤ offset ∧ offset < 2 ^ 63)
    (hk : ∀ (front : List Nat) (last : Nat), p.path = front ++ [last] → offset ≠ 0 →
      0 ≤ last + offset → ∀ root struct name fields isPacked field,
      rows[p.allocation]? = some root → t.resolve root front = some struct →
      t.entry struct = .struct name (some fields) isPacked →
      fields[(last + offset).toNat]? = some field → field = pointee) :
    Fault.Ends (advance host p offset) (t.Aims rows pointee) fun _ => True := by
  unfold advance
  cases hlast : p.path.getLast? with
  | none =>
    dsimp only
    rw [Fault.ends_bind]
    exact (host.ends_sum _ _ fun _ => trivial).mono (fun _ _ => h) fun _ he => he
  | some last =>
    obtain ⟨front, hpath⟩ := List.getLast?_eq_some_iff.mp hlast
    have hlast : last < 2 ^ 63 := by
      obtain ⟨-, -, -, hsteps⟩ := h
      exact hsteps last (by simp [hpath])
    dsimp only
    cases hsum : host.sum last offset with
    | error fault => trivial
    | ok sum =>
      have hbounds : -2 ^ 63 ≤ sum ∧ sum < 2 ^ 63 := by
        have h := @Host.ends_sum host last offset (fun _ => True) fun _ => trivial
        rwa [hsum] at h
      change Fault.Ends (elementIndex sum >>= _) _ _
      rw [Fault.ends_bind]
      refine (elementIndex_ends _).mono (fun k hi => ?_) fun _ he => he
      obtain ⟨hi, rfl⟩ := hi
      obtain rfl := Host.eq_add_of_sum hsum hi ⟨by omega, by omega⟩ ho
      have hfront : p.path.dropLast = front := by simp [hpath]
      rw [Fault.ends_pure, hfront]
      exact h.sibling hpath (by have := hbounds.2; omega) fun hne => hk front last hpath (by omega) hi

/-- The type of a member, as the builder finds it. -/
theorem within_of_stepInto {m : Module} {type target member : TypeId} {index : ValueId} {k : Nat}
    (h : Builder.stepInto m type index = .ok target)
    (hk : ∀ word, m.constWord? index = some word → k = word.toNat)
    (hm : m.types.within type k = some member) : member = target := by
  unfold Builder.stepInto at h
  unfold TypeTable.within at hm
  split at h
  · rename_i name fields isPacked he
    rw [he] at hm
    cases hw : m.constWord? index with
    | none =>
      rw [hw] at h
      cases h
    | some word =>
      rw [hw] at h
      dsimp only at h hm
      rw [hk word hw] at hm
      rw [hm] at h
      exact Except.ok.inj h
  · rename_i element n he
    rw [he] at hm
    cases h
    exact (Option.some_inj.mp hm).symm
  · rename_i element n he
    rw [he] at hm
    cases h
    exact (Option.some_inj.mp hm).symm
  · cases h

/-- The indices behind the first one lead inside, in memory as in the types. -/
theorem enters_typed {pointee target : TypeId} {indices : List ValueId} {p : Pointer}
    (hs : e.module.Sound) (h : e.module.Stores made rows s) (hf : e.module.Holds rows frame)
    (hv : ∀ w ∈ indices, e.module.values.Has w)
    (hi : indices.foldlM (Builder.stepInto e.module) pointee = .ok target)
    (hp : e.module.types.Aims rows pointee p) :
    Yields e.module made rows s (indices.foldlM (fun p index => do
      Run.ofExcept (enter p (← e.signedOperand frame index))) p)
      fun rows q => e.module.types.Aims rows target q := by
  induction indices generalizing pointee p rows s with
  | nil =>
    cases hi
    exact yields_pure h hp
  | cons index indices ih =>
    obtain ⟨hindex, hv⟩ := List.forall_mem_cons.mp hv
    rw [List.foldlM_cons] at hi ⊢
    cases hstep : Builder.stepInto e.module pointee index with
    | error fault =>
      rw [hstep] at hi
      cases hi
    | ok next =>
      rw [hstep] at hi
      have henter : Yields e.module made rows s (do
          Run.ofExcept (enter p (← e.signedOperand frame index)))
          fun rows q => e.module.types.Aims rows next q := by
        refine yields_bind (signedOperand_typed hs h hf hindex) fun rows' i t hx ht hk hrun => ?_
        have hinside : Fault.Ends (enter p i) (e.module.types.Aims rows' next)
            fun _ => True := by
          unfold enter
          rw [Fault.ends_bind]
          have hbounds := e.signedOperand_bounds frame index s
          rw [hrun] at hbounds
          refine (elementIndex_ends i).mono (fun k hi => ?_) fun _ he => he
          obtain ⟨hi, rfl⟩ := hi
          exact (hp.mono hx).enter (by have := hbounds.2; omega) fun member hm =>
            within_of_stepInto hstep (fun word hw => hk word hw hi) hm
        exact yields_ofExcept ht hinside
      refine yields_bind henter fun rows' q t hx ht hq _ => ?_
      exact ih ht (hf.mono hx) hv hi hq

theorem derive_typed {base : ValueId} {indices : List ValueId} {type : TypeId}
    (hs : e.module.Sound) (h : e.module.Stores made rows s) (hf : e.module.Holds rows frame)
    (hbase : e.module.values.Has base) (hv : ∀ w ∈ indices, e.module.values.Has w)
    (hd : e.module.Derives base indices type)
    (hstray : ∀ first ∈ indices.head?, ¬ e.Strays (e.module.Allots made s) frame s base first) :
    Yields e.module made rows s (e.derive frame base indices)
      fun rows d => e.module.types.Typed rows type d := by
  obtain ⟨pointee, target, he, hsteps, htype⟩ := hd
  unfold derive
  refine yields_bind (pointerOperand_typed hs h hf hbase he) fun rows₁ d t hx₁ ht hp hrun => ?_
  obtain ⟨place, rfl, hp⟩ := hp
  have hplace : Run.ofExcept (Datum.pointer place).asPointer = pure place := rfl
  rw [hplace, pure_bind]
  cases place with
  | none => exact yields_throw _
  | some p =>
    have haims := hp p rfl
    cases indices with
    | nil =>
      cases hsteps
      exact yields_pure ht ⟨_, htype, fun q hq => Option.mem_some_iff.mp hq ▸ haims⟩
    | cons first rest =>
      obtain ⟨hfirst, hv⟩ := List.forall_mem_cons.mp hv
      refine yields_bind (signedOperand_typed hs ht (hf.mono hx₁) hfirst)
        fun rows₂ offset u hx₂ hu _ hoffset => ?_
      have hadvance : Fault.Ends (advance e.host p offset) (e.module.types.Aims rows₂ pointee)
          fun _ => True := by
        have hbounds := e.signedOperand_bounds frame first t
        rw [hoffset] at hbounds
        refine advance_aims (haims.mono hx₂) hbounds fun front last hpath hne hi root struct name fields
          isPacked field hroot hstruct hentry hfield => ?_
        obtain ⟨hframe, rfl⟩ := framed_of_inside hs h hbase hrun (by simp [hpath])
        by_contra hother
        refine hstray first rfl ⟨p, front, last, root, struct, field, name, fields, isPacked,
          offset, hframe, hpath, ?_, hstruct, hentry, by rw [hoffset], hne, hi, hfield, ?_⟩
        · obtain ⟨root₁, hroot₁, -⟩ := haims
          obtain rfl : root₁ = root :=
            Option.some_inj.mp ((getElem?_extended hx₂ hroot₁).symm.trans hroot)
          exact ht.origin _ _ hroot₁
        · rw [he]
          simpa using fun h => hother h.symm
      refine yields_bind_ofExcept hadvance fun q hq => ?_
      refine yields_bind (enters_typed hs hu ((hf.mono hx₁).mono hx₂) hv hsteps hq)
        fun rows₃ r w _ hw hr _ => ?_
      exact yields_pure hw ⟨target, htype, fun p hp => Option.mem_some_iff.mp hp ▸ hr⟩

/-! ### Instructions -/

theorem alloca_typed {type allocated : TypeId} {count : Option ValueId}
    {callee : FunctionId → List Datum → Run Datum} (hs : e.module.Sound)
    (h : e.module.Stores made rows s) (hf : e.module.Holds rows frame)
    (hcount : ∀ n ∈ count, e.module.values.Has n) (hsized : e.module.types.isSized allocated)
    (he : e.module.types.entry type = .pointer allocated)
    (hmade : ∀ p t, (e.evaluate callee frame type (.alloca allocated count)).run.run s =
      (.ok (.pointer (some p)), t) → made p.allocation allocated) :
    Yields e.module made rows s (e.evaluate callee frame type (.alloca allocated count))
      fun rows d => e.module.types.Typed rows type d := by
  have hslots : Yields e.module made rows s (e.slotCount frame count) fun _ _ => True := by
    cases count with
    | none => exact yields_pure h trivial
    | some n => exact slotCount_typed hs h hf (hcount n rfl)
  intro d u hr
  have hrun := hr
  change (e.slotCount frame count >>= fun n => do
    let p ← Run.allocate e.host e.module.types allocated n true
    return Datum.pointer (some p)).run.run s = _ at hr
  rw [run_bind] at hr
  rcases hn : (e.slotCount frame count).run.run s with ⟨fault | n, t⟩
  · rw [hn] at hr
    cases hr
  · obtain ⟨rows', hx, ht, -⟩ := hslots n t hn
    rw [hn] at hr
    dsimp only at hr
    rw [run_bind, allocate_run] at hr
    cases hrow : t.memory.newRow e.host e.module.types allocated n true with
    | error fault =>
      rw [hrow] at hr
      cases hr
    | ok row =>
      rw [hrow] at hr
      cases hr
      have hplace := hmade _ _ hrun
      rw [show (t.memory.push row).1.allocation = rows'.length from ht.length.symm] at hplace
      refine ⟨rows' ++ [allocated], hx.trans (List.prefix_append _ _),
        ht.push (newRow_typed hs.types hsized hrow) (fun _ _ h => h) (fun _ _ h => .inl h)
          (.inl hplace), allocated, he, ?_⟩
      rintro p ⟨⟩
      refine TypeTable.aims_whole ?_ rfl
      rw [show (t.memory.push row).1.allocation = rows'.length from ht.length.symm]
      simp

/-- An instruction that is no call has a result of its type, whose pointers lead to what it
promises. -/
theorem evaluate_typed {i : Instruction} {callee : FunctionId → List Datum → Run Datum}
    (hs : e.module.Sound) (hd : e.module.Derived) (h : e.module.Stores made rows s)
    (hf : e.module.Holds rows frame) (hi : e.module.instruction? v = some i)
    (hcall : ∀ f args, i ≠ .call f args)
    (hcast : ∀ w, i = .cast .bitcast w →
      ¬(e.module.types.Lanes (·.kind = .pointer) (e.module.typeOf w) ∧
        e.module.types.Lanes (·.kind = .pointer) (e.module.typeOf v)))
    (hmade : ∀ type count, i = .alloca type count → ∀ p t,
      (e.evaluate callee frame (e.module.typeOf v) i).run.run s = (.ok (.pointer (some p)), t) →
        made p.allocation type)
    (hstray : ∀ base first rest, i = .elementPtr base (first :: rest) →
      ¬ e.Strays (e.module.Allots made s) frame s base first) :
    Yields e.module made rows s (e.evaluate callee frame (e.module.typeOf v) i)
      fun rows d => e.module.types.Typed rows (e.module.typeOf v) d := by
  have hfits := hs.instructionFits hi
  have hhas := hs.operands_has hi
  unfold evaluate
  cases i with
  | call f args => exact (hcall f args rfl).elim
  | branch _ | condBranch _ _ _ | switch _ _ _ | ret _ | unreachable | phi _ =>
    exact yields_throw _
  | alloca allocated count =>
    obtain ⟨hsized, he, -⟩ := hfits
    refine alloca_typed hs h hf (fun n hn => hhas n ?_) hsized he (hmade allocated count rfl)
    simpa [Instruction.operands] using hn
  | load ptr =>
    have hptr := hhas ptr (by simp [Instruction.operands])
    refine yields_bind (pointerOperand_typed hs h hf hptr hfits.1) fun rows' d t _ ht hp _ => ?_
    obtain ⟨target, rfl, hp⟩ := hp
    exact yields_load ht hp
  | store value ptr =>
    obtain ⟨he, hvoid⟩ := hfits
    have hvalue := hhas value (by simp [Instruction.operands])
    have hptr := hhas ptr (by simp [Instruction.operands])
    refine yields_bind (operand_typed hs h hf hvalue) fun rows₁ d t hx₁ ht hd _ => ?_
    refine yields_bind (pointerOperand_typed hs ht (hf.mono hx₁) hptr he)
      fun rows₂ _ u hx₂ hu hp _ => ?_
    obtain ⟨target, rfl, hp⟩ := hp
    change Yields _ _ _ _ (Run.store target d >>= fun _ => pure Datum.void) _
    exact yields_bind (yields_store hu hp (hd.mono hx₂)) fun _ _ _ _ hw _ _ =>
      yields_pure hw hvoid
  | elementPtr base indices =>
    refine derive_typed hs h hf (hhas base (by simp [Instruction.operands])) (fun w hw => hhas w ?_)
      (hd v base indices hi) fun first hfirst => ?_
    · simp [Instruction.operands, hw]
    · obtain ⟨rest, rfl⟩ := List.head?_eq_some_iff.mp hfirst
      exact hstray base first rest rfl
  | binary op lhs rhs =>
    obtain ⟨htl, htr, hlanes⟩ := hfits
    have hl := hhas lhs (by simp [Instruction.operands])
    have hr := hhas rhs (by simp [Instruction.operands])
    refine yields_bind (operand_typed hs h hf hl) fun rows₁ a t hx ht ha _ => ?_
    refine yields_bind (operand_typed hs ht (hf.mono hx) hr) fun rows₂ b u _ hu hb _ => ?_
    have hplain : e.module.types.Lanes (fun ty => ty.kind = .integer ∨ ty.kind = .float)
        (e.module.typeOf v) := hlanes.mono fun ty hk => by
      rw [hk]
      cases op.isFloat <;> simp
    exact yields_ofExcept hu ((Datum.binary_ends e.host hlanes (htl ▸ ha.shape) (htr ▸ hb.shape)).mono
      (fun _ hd => .of_lanes hd hplain) fun _ he => he)
  | icmp pred lhs rhs =>
    obtain ⟨htypes, hlanes, htruths⟩ := hfits
    have hl := hhas lhs (by simp [Instruction.operands])
    have hr := hhas rhs (by simp [Instruction.operands])
    refine yields_bind (operand_typed hs h hf hl) fun rows₁ a t hx ht ha _ => ?_
    refine yields_bind (operand_typed hs ht (hf.mono hx) hr) fun rows₂ b u _ hu hb _ => ?_
    exact yields_ofExcept hu ((Datum.icmp_ends pred hlanes htruths ha.shape
      (htypes ▸ hb.shape)).mono (fun _ hd => .of_lanes hd htruths.lanes) fun _ he => he)
  | fcmp pred lhs rhs =>
    obtain ⟨htypes, hlanes, htruths⟩ := hfits
    have hl := hhas lhs (by simp [Instruction.operands])
    have hr := hhas rhs (by simp [Instruction.operands])
    refine yields_bind (operand_typed hs h hf hl) fun rows₁ a t hx ht ha _ => ?_
    refine yields_bind (operand_typed hs ht (hf.mono hx) hr) fun rows₂ b u _ hu hb _ => ?_
    exact yields_ofExcept hu ((Datum.fcmp_ends pred hlanes htruths ha.shape
      (htypes ▸ hb.shape)).mono (fun _ hd => .of_lanes hd htruths.lanes) fun _ he => he)
  | cast op value =>
    have hvalue := hhas value (by simp [Instruction.operands])
    refine yields_bind (operand_typed hs h hf hvalue) fun rows' d t _ ht hd _ => ?_
    exact yields_ofExcept ht (Datum.cast_typed hs.types hfits
      (fun hop => hcast value (by rw [hop])) hd.shape)
  | extractValue aggregate index =>
    obtain ⟨ids, hm, hid⟩ := TypeTable.members_of_member? hfits
    have haggregate := hhas aggregate (by simp [Instruction.operands])
    refine yields_bind (members_typed hs h hf haggregate hm) fun rows' ds t _ ht hds _ => ?_
    exact yields_ofExcept ht (Datum.pick_member hds hid)
  | insertValue aggregate element index =>
    obtain ⟨htype, hmember⟩ := hfits
    obtain ⟨ids, hm, hid⟩ := TypeTable.members_of_member? hmember
    have haggregate := hhas aggregate (by simp [Instruction.operands])
    have helement := hhas element (by simp [Instruction.operands])
    refine yields_bind (members_typed hs h hf haggregate (htype ▸ hm))
      fun rows₁ ds t hx₁ ht hds _ => ?_
    refine yields_bind (operand_typed hs ht (hf.mono hx₁) helement) fun rows₂ d u hx₂ hu hd _ => ?_
    exact yields_ofExcept hu (Datum.put_member TypeTable.memberwise_typed hm
      (hds.imp fun _ _ hd => hd.mono hx₂) hid hd)
  | extractElement vector index =>
    obtain ⟨hk, n, he⟩ := hfits
    have hm : (e.module.types.entry (e.module.typeOf vector)).members =
        some (List.replicate n (e.module.typeOf v)) := by simp [he, Ty.members]
    have hvector := hhas vector (by simp [Instruction.operands])
    have hindex := hhas index (by simp [Instruction.operands])
    refine yields_bind (members_typed hs h hf hvector hm) fun rows₁ ds t hx₁ ht hds _ => ?_
    refine yields_bind (wordOperand_typed hs ht (hf.mono hx₁) hindex) fun rows₂ w u hx₂ hu _ _ => ?_
    have hlanes := (TypeTable.forall₂_replicate.mp (hds.imp fun _ _ hd => hd.mono hx₂)).2
    exact yields_ofExcept hu (Datum.pick_lane hlanes _)
  | insertElement vector element index =>
    obtain ⟨hk, htype, n, he⟩ := hfits
    have hm : (e.module.types.entry (e.module.typeOf v)).members =
        some (List.replicate n (e.module.typeOf element)) := by simp [he, Ty.members]
    have hvector := hhas vector (by simp [Instruction.operands])
    have helement := hhas element (by simp [Instruction.operands])
    have hindex := hhas index (by simp [Instruction.operands])
    refine yields_bind (members_typed hs h hf hvector (htype ▸ hm))
      fun rows₁ ds t hx₁ ht hds _ => ?_
    refine yields_bind (operand_typed hs ht (hf.mono hx₁) helement) fun rows₂ d u hx₂ hu hd _ => ?_
    refine yields_bind (wordOperand_typed hs hu ((hf.mono hx₁).mono hx₂) hindex)
      fun rows₃ w u' hx₃ hu' _ _ => ?_
    obtain ⟨hn, hlanes⟩ := TypeTable.forall₂_replicate.mp
      (hds.imp fun _ _ hd => (hd.mono hx₂).mono hx₃)
    exact yields_ofExcept hu' (Datum.put_lane TypeTable.memberwise_typed hm hn hlanes
      (hd.mono hx₃) _)
  | shuffle lhs rhs mask =>
    obtain ⟨htypes, element, bit, n, k, hlhs, hmask, hbit, hresult⟩ := hfits
    have hm : (e.module.types.entry (e.module.typeOf lhs)).members =
        some (List.replicate n element) := by simp [hlhs, Ty.members]
    have hbits : (e.module.types.entry (e.module.typeOf mask)).members =
        some (List.replicate k bit) := by simp [hmask, Ty.members]
    have hl := hhas lhs (by simp [Instruction.operands])
    have hr := hhas rhs (by simp [Instruction.operands])
    have hpicks := hhas mask (by simp [Instruction.operands])
    refine yields_bind (members_typed hs h hf hl hm) fun rows₁ left t hx₁ ht hleft _ => ?_
    refine yields_bind (members_typed hs ht (hf.mono hx₁) hr (htypes ▸ hm))
      fun rows₂ right u hx₂ hu hright _ => ?_
    refine yields_bind (members_typed hs hu ((hf.mono hx₁).mono hx₂) hpicks hbits)
      fun rows₃ picks u' hx₃ hu' hpicks _ => ?_
    have hleft := (TypeTable.forall₂_replicate.mp
      (hleft.imp fun _ _ hd => (hd.mono hx₂).mono hx₃)).2
    have hright := (TypeTable.forall₂_replicate.mp (hright.imp fun _ _ hd => hd.mono hx₃)).2
    obtain ⟨hlength, hpicks⟩ := TypeTable.forall₂_replicate.mp hpicks
    refine yields_ofExcept hu' (Datum.shuffle_ends TypeTable.memberwise_typed hleft hright ?_
      (fun d hd => (hpicks d hd).shape) ?_)
    · simp [TypeTable.kind, hbit, Ty.kind]
    · simp [hresult, Ty.members, hlength]
  | select cond thenValue elseValue =>
    obtain ⟨hthen, helse, hcond⟩ := hfits
    have hc := hhas cond (by simp [Instruction.operands])
    have ha := hhas thenValue (by simp [Instruction.operands])
    have hb := hhas elseValue (by simp [Instruction.operands])
    refine yields_bind (operand_typed hs h hf hc) fun rows₁ c t hx₁ ht hc _ => ?_
    refine yields_bind (operand_typed hs ht (hf.mono hx₁) ha) fun rows₂ a u hx₂ hu ha _ => ?_
    refine yields_bind (operand_typed hs hu ((hf.mono hx₁).mono hx₂) hb)
      fun rows₃ b u' hx₃ hu' hb _ => ?_
    exact yields_ofExcept hu' (Datum.select_ends TypeTable.memberwise_typed hcond hc.shape
      (hthen ▸ ha.mono hx₃) (helse ▸ hb))

end Setting

end SsaKit
