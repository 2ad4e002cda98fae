import SsaKit.Proofs.Emission

/-! Every emission of a sound module makes an instruction that fits its type. -/
namespace SsaKit.Builder

open Attempt SsaKit.Module

variable {s : Builder} {v lhs rhs : ValueId} {type : TypeId}

theorem entry_of_vector {t : TypeTable} (h : t.kind type = .vector) :
    ∃ element length, t.entry type = .vector element length := by
  unfold TypeTable.kind at h
  cases he : t.entry type <;> simp_all [Ty.kind]

theorem entry_of_pointer {t : TypeTable} (h : t.kind type = .pointer) :
    ∃ pointee, t.entry type = .pointer pointee := by
  unfold TypeTable.kind at h
  cases he : t.entry type <;> simp_all [Ty.kind]

theorem entry_of_intWidth {t : TypeTable} {bits : Nat} (h : t.intWidth type = some bits) :
    t.entry type = .int bits := by
  unfold TypeTable.intWidth at h
  cases he : t.entry type <;> simp_all [Ty.intWidth]

theorem lanes_of_scalarOf {m : Module} {P : Ty → Prop}
    (h : P (m.types.entry (scalarOf m type))) : m.types.Lanes P type := by
  unfold scalarOf at h
  cases he : m.types.entry type with
  | vector element length =>
    rw [he] at h
    exact .inr ⟨element, length, he, h⟩
  | _ =>
    rw [he] at h
    exact .inl h

theorem scalarOf_vector {m : Module} {element : TypeId} {length : Nat}
    (h : m.types.entry type = .vector element length) : scalarOf m type = element := by
  rw [scalarOf, h]

theorem scalarOf_of_kind_ne {m : Module} (h : m.types.kind type ≠ .vector) :
    scalarOf m type = type := by
  unfold scalarOf
  cases he : m.types.entry type with
  | vector element length => exact absurd (by simp [TypeTable.kind, he, Ty.kind]) h
  | _ => rfl

/-- The element of a vector type is a type of the table. -/
theorem contains_element (h : s.module.Sound) {element : TypeId} {length : Nat}
    (he : s.module.types.entry type = .vector element length) :
    s.module.types.contains element := by
  have hc : s.module.types.contains type := by
    by_contra hn
    simp [TypeTable.entry_of_not_contains hn] at he
  have hf := h.types.fits type hc
  rw [he] at hf
  exact TypeTable.contains_of_isSized hf.2.2

theorem contains_typeOf (h : s.module.Sound) (hv : s.module.values.Has v) :
    s.module.types.contains (s.module.typeOf v) :=
  (h.values v hv).1

/-! ### Arithmetic, comparisons and conversions -/

theorem binary_emits {op : BinaryOp} (h : s.module.Sound) (hl : s.module.values.Has lhs)
    (hr : s.module.values.Has rhs) : Emits s (binary op lhs rhs) := by
  unfold Emits binary
  rw [ends_bind]
  refine ends_sameType (fun he => ?_) (.refl s)
  simp only [ends_bind, ends_readModule]
  by_cases hk : s.module.types.kind (scalarOf s.module (s.module.typeOf lhs)) =
      if op.isFloat then .float else .integer
  · rw [if_pos hk]
    have hfits : s.module.KindFits (s.module.typeOf lhs) (.instruction (.binary op lhs rhs)) :=
      ⟨by simp [Instruction.operands, hl, hr], by simp [Instruction.blocks, Instruction.successors],
        rfl, he.symm, lanes_of_scalarOf hk⟩
    exact insert_emits_of (contains_typeOf h hl) hfits (by simp)
  · rw [if_neg hk]
    exact .refl s

theorem neg_emits (h : s.module.Sound) (hv : s.module.values.Has v) : Emits s (neg v) := by
  unfold Emits neg
  rw [ends_bind]
  refine ends_expectInteger (fun _ => ?_) (.refl s)
  rw [ends_bind, ends_onModule]
  refine ends_constWord (fun zero m hp hz _ => ?_) (.refl s)
  exact Emits.of_prepared (s := s) ⟨rfl, hp⟩ (binary_emits (Changed.sound (Prepared.quieted hp).changed h) hz
    ((Prepared.extends hp).has hv))

theorem not_emits (h : s.module.Sound) (hv : s.module.values.Has v) : Emits s (not v) := by
  unfold Emits Builder.not
  rw [ends_bind]
  refine ends_expectInteger (fun _ => ?_) (.refl s)
  rw [ends_bind, ends_onModule]
  refine ends_constWord (fun ones m hp ho _ => ?_) (.refl s)
  exact Emits.of_prepared (s := s) ⟨rfl, hp⟩ (binary_emits (Changed.sound (Prepared.quieted hp).changed h)
    ((Prepared.extends hp).has hv) ho)

theorem fneg_emits (h : s.module.Sound) (hv : s.module.values.Has v) : Emits s (fneg v) := by
  unfold Emits fneg
  rw [ends_bind]
  refine ends_expectKind (fun _ => ?_) (.refl s)
  rw [ends_bind, ends_onModule]
  refine ends_constFloat (fun zero m hp hz _ => ?_) (.refl s)
  exact Emits.of_prepared (s := s) ⟨rfl, hp⟩ (binary_emits (Changed.sound (Prepared.quieted hp).changed h) hz
    ((Prepared.extends hp).has hv))

theorem icmp_emits {pred : IntPredicate} (h : s.module.Sound)
    (hl : s.module.values.Has lhs) (hr : s.module.values.Has rhs) : Emits s (icmp pred lhs rhs) := by
  unfold Emits icmp
  rw [ends_bind]
  refine ends_sameType (fun he => ?_) (.refl s)
  simp only [ends_bind, ends_readModule]
  split
  · rename_i hk
    rw [ends_bind]
    refine ends_boolLike h.types.indexed (fun id t hg hid htr => ?_) fun s' hp => hp
    have hlanes : t.Lanes (fun ty => ty.kind = .integer ∨ ty.kind = .pointer)
        (s.module.typeOf lhs) :=
      (TypeTable.extends_of_grown hg).lanes (by rintro ty (ht | ht) <;> simp [ht])
        (by rintro ty (ht | ht) <;> simp [ht]) (lanes_of_scalarOf hk)
    have hfits : (s.withTypes t).module.KindFits id (.instruction (.icmp pred lhs rhs)) :=
      ⟨by simpa [Instruction.operands] using ⟨hl, hr⟩,
        by simp [Instruction.blocks, Instruction.successors], he, hlanes, htr⟩
    exact Emits.of_prepared (prepared_withTypes hg) (insert_emits_of hid hfits (by simp))
  · exact .refl s

theorem fcmp_emits {pred : FloatPredicate} (h : s.module.Sound)
    (hl : s.module.values.Has lhs) (hr : s.module.values.Has rhs) : Emits s (fcmp pred lhs rhs) := by
  unfold Emits fcmp
  rw [ends_bind]
  refine ends_sameType (fun he => ?_) (.refl s)
  simp only [ends_bind, ends_readModule]
  split
  · rename_i hk
    rw [ends_bind]
    refine ends_boolLike h.types.indexed (fun id t hg hid htr => ?_) fun s' hp => hp
    have hlanes : t.Lanes (·.kind = .float) (s.module.typeOf lhs) :=
      (TypeTable.extends_of_grown hg).lanes (fun ty ht => by simp [ht])
        (fun ty ht => by simp [ht]) (lanes_of_scalarOf hk)
    have hfits : (s.withTypes t).module.KindFits id (.instruction (.fcmp pred lhs rhs)) :=
      ⟨by simpa [Instruction.operands] using ⟨hl, hr⟩,
        by simp [Instruction.blocks, Instruction.successors], he, hlanes, htr⟩
    exact Emits.of_prepared (prepared_withTypes hg) (insert_emits_of hid hfits (by simp))
  · exact .refl s

theorem cast_emits {op : CastOp} (hv : s.module.values.Has v) (ht : s.module.types.contains type) :
    Emits s (cast op v type) := by
  unfold Emits cast
  simp only [ends_bind, ends_readModule]
  split
  · rename_i hl
    have hfits : s.module.KindFits type (.instruction (.cast op v)) :=
      ⟨by simpa [Instruction.operands] using hv,
        by simp [Instruction.blocks, Instruction.successors], hl⟩
    exact insert_emits_of ht hfits (by simp)
  · exact .refl s

/-- An emission that may find nothing to do and hand back a value that it was given. -/
def EmitsOrKeeps (s : Builder) (kept : Option ValueId) (step : Emit ValueId) : Prop :=
  Ends step s (fun v s' => (s' = s ∧ kept = some v) ∨ Emitted s v s') (Prepared s)

theorem Emits.orKeeps {kept : Option ValueId} {step : Emit ValueId} (h : Emits s step) :
    EmitsOrKeeps s kept step :=
  h.mono (fun _ _ he => .inr he) fun _ hp => hp

theorem intCast_emits {isSigned : Bool} (hv : s.module.values.Has v)
    (ht : s.module.types.contains type) : EmitsOrKeeps s (some v) (intCast v type isSigned) := by
  unfold EmitsOrKeeps intCast
  rw [ends_bind]
  refine ends_expectInteger (fun _ => ?_) (.refl s)
  simp only [ends_bind, ends_readModule]
  split
  · split
    · exact .inl ⟨rfl, rfl⟩
    · split
      · exact (cast_emits hv ht).orKeeps
      · exact (cast_emits hv ht).orKeeps
  · exact .refl s

theorem fpCast_emits (hv : s.module.values.Has v) (ht : s.module.types.contains type) :
    EmitsOrKeeps s (some v) (fpCast v type) := by
  unfold EmitsOrKeeps fpCast
  rw [ends_bind]
  refine ends_expectKind (fun _ => ?_) (.refl s)
  simp only [ends_bind, ends_readModule]
  split
  · split
    · exact .inl ⟨rfl, rfl⟩
    · exact (cast_emits hv ht).orKeeps
  · exact .refl s

/-! ### Memory -/

theorem allocate_emits {count : Option ValueId} (h : s.module.Sound)
    (hc : ∀ n ∈ count, s.module.values.Has n ∧
      s.module.types.kind (s.module.typeOf n) = .integer) : Emits s (allocate type count) := by
  unfold Emits allocate
  simp only [ends_bind, ends_readModule]
  split
  · rename_i hs
    rw [ends_bind, ends_onTypes]
    refine TypeTable.ends_pointer h.types.indexed (TypeTable.contains_of_isSized hs)
      fun id t hg hid he => ?_
    have hx := TypeTable.extends_of_grown hg
    have hfits : (s.withTypes t).module.KindFits id (.instruction (.alloca type count)) := by
      refine ⟨fun v hv => (hc v (by simpa [Instruction.operands] using hv)).1,
        by simp [Instruction.blocks, Instruction.successors], hx.isSized_of hs, he, fun n hn => ?_⟩
      have hk := (hc n hn).2
      exact (hx.kind_eq (TypeTable.contains_of_kind hk (by simp))).trans hk
    exact Emits.of_prepared (prepared_withTypes hg) (insert_emits_of hid hfits (by simp))
  · exact .refl s

theorem arrayAlloca_emits {count : ValueId} (h : s.module.Sound)
    (hc : s.module.values.Has count) : Emits s (arrayAlloca type count) := by
  unfold Emits arrayAlloca
  rw [ends_bind]
  refine ends_expectInteger (fun hk => ?_) (.refl s)
  exact allocate_emits h (by simpa using ⟨hc, hk⟩)

theorem load_emits {ptr : ValueId} (hp : s.module.values.Has ptr) : Emits s (load ptr) := by
  unfold Emits load
  rw [ends_bind]
  refine ends_expectKind (fun hk => ?_) (.refl s)
  simp only [ends_bind, ends_readModule]
  obtain ⟨pointee, he⟩ := entry_of_pointer hk
  have hpointee : Builder.pointee s.module (s.module.typeOf ptr) = pointee := by
    simp [Builder.pointee, he, Ty.element]
  rw [hpointee]
  split
  · rename_i hs
    have hfits : s.module.KindFits pointee (.instruction (.load ptr)) :=
      ⟨by simpa [Instruction.operands] using hp,
        by simp [Instruction.blocks, Instruction.successors], he, hs⟩
    exact insert_emits_of (TypeTable.contains_of_isSized hs) hfits (by simp)
  · exact .refl s

/-- An instruction without result: the type that stands for none is looked up first. -/
theorem void_emits {i : Instruction} (h : s.module.Sound)
    (ho : ∀ v ∈ i.operands, s.module.values.Has v)
    (hb : ∀ b ∈ i.blocks, s.module.blocks.Has b) (hi : i.isOrdinary)
    (hf : ∀ t id, s.module.types.Grown t → t.entry id = .void →
      (s.withTypes t).module.InstructionFits id i) :
    Emits s (void >>= fun type => insert type i) := by
  unfold Emits
  rw [ends_bind]
  refine ends_void h.types.indexed fun id t hg hid he => ?_
  exact Emits.of_prepared (prepared_withTypes hg)
    (insert_emits_of hid ⟨ho, hb, hf t id hg he⟩ hi)

theorem store_emits {ptr : ValueId} (h : s.module.Sound) (hv : s.module.values.Has v)
    (hp : s.module.values.Has ptr) : Emits s (store v ptr) := by
  unfold Emits store
  rw [ends_bind]
  refine ends_expectKind (fun hk => ?_) (.refl s)
  simp only [ends_bind, ends_readModule]
  obtain ⟨pointee, he⟩ := entry_of_pointer hk
  have hpointee : Builder.pointee s.module (s.module.typeOf ptr) = pointee := by
    simp [Builder.pointee, he, Ty.element]
  rw [hpointee]
  split
  · rename_i ht
    refine void_emits h (by simpa [Instruction.operands] using ⟨hv, hp⟩)
      (by simp [Instruction.blocks, Instruction.successors]) (by simp) fun t id hg hvoid => ⟨?_, hvoid⟩
    exact (TypeTable.extends_of_grown hg).entry_of (ht ▸ he) (by simp) rfl
  · exact .refl s

theorem stepInto_contains (h : s.module.Sound) {index : ValueId} {target : TypeId}
    (ht : stepInto s.module type index = .ok target) : s.module.types.contains target := by
  have hc : s.module.types.contains type := by
    by_contra hn
    simp [stepInto, TypeTable.entry_of_not_contains hn] at ht
  have hf := h.types.fits type hc
  have parts := fun p (hp : p ∈ (s.module.types.entry type).parts) =>
    TypeTable.contains_of_isSized (TypeTable.isSized_of_mem_parts hf hp)
  unfold stepInto at ht
  cases he : s.module.types.entry type with
  | struct name fields p =>
    rw [he] at ht
    dsimp only at ht
    split at ht
    · cases ht
    · split at ht
      · rename_i field hfield
        cases ht
        exact parts target (by simpa [he, Ty.parts] using List.mem_of_getElem? hfield)
      · cases ht
  | array element n =>
    rw [he] at ht
    cases ht
    exact parts target (by simp [he, Ty.parts])
  | vector element n =>
    rw [he] at ht
    cases ht
    exact parts target (by simp [he, Ty.parts])
  | _ => simp [he] at ht

theorem foldlM_stepInto_contains (h : s.module.Sound) {indices : List ValueId} {target : TypeId}
    (hc : s.module.types.contains type)
    (ht : indices.foldlM (stepInto s.module) type = .ok target) :
    s.module.types.contains target := by
  induction indices generalizing type with
  | nil =>
    cases ht
    exact hc
  | cons index indices ih =>
    rw [List.foldlM_cons] at ht
    cases hs : stepInto s.module type index with
    | error e =>
      rw [hs] at ht
      cases ht
    | ok next =>
      rw [hs] at ht
      exact ih (stepInto_contains h hs) ht

theorem constWord?_extends {m m' : Module} (hx : m.Extends m') {v : ValueId} {word : UInt64}
    (hw : m.constWord? v = some word) : m'.constWord? v = some word := by
  have hk := kindOf_of_constWord? hw
  obtain ⟨-, -, hkind⟩ := hx.values v (has_of_kindOf (by simp [hk]))
  rw [hk] at hkind
  obtain he | ⟨_, _, he, -⟩ | ⟨_, _, he, -⟩ := hkind
  · simp [constWord?, he]
  · cases he
  · cases he

/-- A larger module finds the same types inside a type. -/
theorem stepInto_extends {m m' : Module} (hx : m.Extends m') {index : ValueId} {target : TypeId}
    (ht : stepInto m type index = .ok target) : stepInto m' type index = .ok target := by
  have keep (hv : m.types.entry type ≠ .void) (ho : (m.types.entry type).isOpaque = false) :
      m'.types.entry type = m.types.entry type := hx.types.entry_of rfl hv ho
  unfold stepInto at ht ⊢
  cases he : m.types.entry type with
  | array element n | vector element n =>
    rw [he] at ht keep
    rw [keep (by simp) rfl]
    exact ht
  | struct name fields isPacked =>
    cases hw : m.constWord? index with
    | none => simp [he, hw] at ht
    | some word =>
      have hw' := constWord?_extends hx hw
      cases fields with
      | none => simp [he, hw] at ht
      | some fields =>
        rw [he] at ht keep
        rw [keep (by simp) rfl, hw']
        simp only [hw, Option.getD_some] at ht ⊢
        split at ht
        · rename_i hfield
          cases ht
          simp
        · cases ht
  | _ => simp [he] at ht

/-- Walking down a list of indices takes its first step, then the others. -/
theorem foldlM_stepInto_cons {m : Module} {index : ValueId} {indices : List ValueId}
    {target : TypeId} : (index :: indices).foldlM (stepInto m) type = .ok target ↔
      ∃ next, stepInto m type index = .ok next ∧
        indices.foldlM (stepInto m) next = .ok target := by
  rw [List.foldlM_cons]
  cases stepInto m type index <;> simp [bind, Except.bind]

theorem foldlM_stepInto_extends {m m' : Module} (hx : m.Extends m') {indices : List ValueId}
    {target : TypeId} (ht : indices.foldlM (stepInto m) type = .ok target) :
    indices.foldlM (stepInto m') type = .ok target := by
  induction indices generalizing type with
  | nil =>
    rw [List.foldlM_nil] at ht ⊢
    exact ht
  | cons index indices ih =>
    obtain ⟨next, hs, hrest⟩ := foldlM_stepInto_cons.mp ht
    exact foldlM_stepInto_cons.mpr ⟨next, stepInto_extends hx hs, ih hrest⟩

theorem derives_extends {m m' : Module} (hx : m.Extends m') {base : ValueId}
    {indices : List ValueId} (hb : m.values.Has base) (h : m.Derives base indices type) :
    m'.Derives base indices type := by
  obtain ⟨pointee, target, hbase, hsteps, htype⟩ := h
  refine ⟨pointee, target, ?_, foldlM_stepInto_extends hx hsteps, ?_⟩
  · rw [hx.typeOf_eq hb]
    exact hx.types.entry_of hbase (by simp) rfl
  · exact hx.types.entry_of htype (by simp) rfl

theorem elementPtr_emits {base : ValueId} {indices : List ValueId} (h : s.module.Sound)
    (hb : s.module.values.Has base) (hi : ∀ v ∈ indices, s.module.values.Has v) :
    Emits s (elementPtr base indices) := by
  unfold Emits elementPtr
  rw [ends_bind]
  refine ends_expectKind (fun hk => ?_) (.refl s)
  dsimp only
  split
  · exact .refl s
  · rename_i hne
    rw [ends_bind]
    refine ends_forM_check (P := fun n => s.module.types.kind (s.module.typeOf n) = .integer)
      (fun n _ => ?_) (fun hin => ?_) (.refl s)
    · rw [ends_discard]
      exact ends_expectInteger (fun hk => ⟨rfl, hk⟩) rfl
    · simp only [ends_bind, ends_readModule, ends_ofExcept]
      split
      · rename_i target ht
        obtain ⟨pointee, hbase⟩ := entry_of_pointer hk
        have hpointee : Builder.pointee s.module (s.module.typeOf base) = pointee := by
          simp [Builder.pointee, hbase, Ty.element]
        have hptr := h.types.fits _ (contains_typeOf h hb)
        rw [hbase] at hptr
        have htarget := foldlM_stepInto_contains h (hpointee ▸ hptr) ht
        rw [ends_onTypes]
        refine TypeTable.ends_pointer h.types.indexed htarget fun id t hg hid he => ?_
        have hx := TypeTable.extends_of_grown hg
        have keep : ∀ {id : TypeId} {k : Ty.Kind}, s.module.types.kind id = k → k ≠ .void →
            t.kind id = k := fun hk hv =>
          (hx.kind_eq (TypeTable.contains_of_kind hk hv)).trans hk
        have hfits : (s.withTypes t).module.KindFits id
            (.instruction (.elementPtr base indices)) := by
          refine ⟨by simpa [Instruction.operands] using ⟨hb, hi⟩,
            by simp [Instruction.blocks, Instruction.successors], keep hk (by simp),
            by simpa using hne, fun n hn => keep (hin n hn) (by simp), ?_⟩
          change t.kind id = .pointer
          rw [TypeTable.kind, he]
          rfl
        refine Emits.of_prepared (prepared_withTypes hg) (insert_emits hid hfits (by simp) ?_)
        rintro _ _ ⟨⟩
        have hsteps := foldlM_stepInto_extends (prepared_types hg).extends (hpointee ▸ ht)
        exact ⟨pointee, target, hx.entry_of hbase (by simp) rfl, hsteps, he⟩
      · exact .refl s

theorem structPtr_emits {base : ValueId} {field : Nat} (h : s.module.Sound)
    (hb : s.module.values.Has base) : Emits s (structPtr base field) := by
  unfold Emits structPtr
  rw [ends_bind, ends_onTypes]
  refine TypeTable.ends_intern h.types.indexed rfl rfl ⟨by decide, by decide⟩
    fun type t hg _ _ => ?_
  have hp : Prepared s (s.withTypes t) := prepared_withTypes hg
  rw [ends_bind, ends_onModule]
  refine ends_constWord (fun zero m1 hp1 hz _ => ?_) hp
  rw [ends_bind, ends_onModule]
  refine ends_constWord (fun index m2 hp2 hn _ => ?_) ⟨rfl, hp.2.trans hp1⟩
  have hall : Module.Prepared s.module m2 := (hp.2.trans hp1).trans hp2
  refine Emits.of_prepared (s := s) ⟨rfl, hall⟩
    (elementPtr_emits (Changed.sound (Prepared.quieted hall).changed h)
      ((Prepared.extends hall).has hb) ?_)
  simpa using ⟨(Prepared.extends hp2).has hz, hn⟩

/-! ### Control -/

theorem br_emits {dest : BlockId} (h : s.module.Sound) (hb : s.module.blocks.Has dest) :
    Emits s (br dest) :=
  void_emits h (by simp [Instruction.operands])
    (by simpa [Instruction.blocks, Instruction.successors] using hb) (by simp) fun _ _ _ he => he

theorem unreachable_emits (h : s.module.Sound) : Emits s unreachable :=
  void_emits h (by simp [Instruction.operands])
    (by simp [Instruction.blocks, Instruction.successors]) (by simp) fun _ _ _ he => he

theorem condBr_emits {cond : ValueId} {thenDest elseDest : BlockId} (h : s.module.Sound)
    (hc : s.module.values.Has cond) (ht : s.module.blocks.Has thenDest)
    (he : s.module.blocks.Has elseDest) : Emits s (condBr cond thenDest elseDest) := by
  unfold Emits condBr
  simp only [ends_bind, ends_readModule]
  split
  · rename_i hw
    refine void_emits h (by simpa [Instruction.operands] using hc)
      (by simpa [Instruction.blocks, Instruction.successors] using ⟨ht, he⟩) (by simp)
      fun t id hg hvoid => ⟨?_, hvoid⟩
    exact (TypeTable.extends_of_grown hg).entry_of (entry_of_intWidth hw) (by simp) rfl
  · rw [ends_bind, ends_onTypes]
    refine TypeTable.ends_intern h.types.indexed rfl rfl ⟨by decide, by decide⟩ fun _ t hg _ _ => ?_
    exact prepared_withTypes hg

theorem typeOf_of_checkKeys {m : Module} {seen : List UInt64} {keys : List ValueId}
    (h : checkKeys m type seen keys = .ok ()) : ∀ k ∈ keys, m.typeOf k = type := by
  induction keys generalizing seen with
  | nil => simp
  | cons key keys ih =>
    unfold checkKeys at h
    split at h
    · cases h
    · rename_i ht
      split at h
      · cases h
      · split at h
        · cases h
        · exact List.forall_mem_cons.mpr ⟨by simpa using ht, ih h⟩

theorem switch_emits {default : BlockId} {cases : List (ValueId × BlockId)}
    (h : s.module.Sound) (hv : s.module.values.Has v) (hd : s.module.blocks.Has default)
    (hc : ∀ c ∈ cases, s.module.values.Has c.1 ∧ s.module.blocks.Has c.2) :
    Emits s (switch v default cases) := by
  unfold Emits switch
  rw [ends_bind]
  refine ends_expectInteger (fun hk => ?_) (.refl s)
  rw [ends_bind, ends_readModule, ends_bind, ends_ofExcept]
  split
  · rename_i hkeys
    have hkeys := typeOf_of_checkKeys hkeys
    refine void_emits h (fun w hw => ?_) (fun b hb => ?_) (by simp) fun t id hg hvoid => ⟨?_, ?_, hvoid⟩
    · obtain rfl | hw := List.mem_cons.mp hw
      · exact hv
      · obtain ⟨c, hc', rfl⟩ := List.mem_map.mp hw
        exact (hc c hc').1
    · obtain rfl | hb := List.mem_cons.mp hb
      · exact hd
      · obtain ⟨c, hc', rfl⟩ := List.mem_map.mp hb
        exact (hc c hc').2
    · exact ((TypeTable.extends_of_grown hg).kind_eq
        (TypeTable.contains_of_kind hk (by simp))).trans hk
    · exact fun c hc' => hkeys c.1 (List.mem_map_of_mem hc')
  · exact .refl s

theorem typeOf_of_checkIncoming {m : Module} {seen : List BlockId}
    {incoming : List (BlockId × ValueId)} (h : checkIncoming m type seen incoming = .ok ()) :
    ∀ e ∈ incoming, m.typeOf e.2 = type := by
  induction incoming generalizing seen with
  | nil => simp
  | cons e incoming ih =>
    obtain ⟨b, v⟩ := e
    unfold checkIncoming at h
    split at h
    · cases h
    · rename_i ht
      split at h
      · cases h
      · exact List.forall_mem_cons.mpr ⟨by simpa using ht, ih h⟩

theorem phi_emits {incoming : List (BlockId × ValueId)} (ht : s.module.types.contains type)
    (hi : ∀ e ∈ incoming, s.module.blocks.Has e.1 ∧ s.module.values.Has e.2) :
    Emits s (phi type incoming) := by
  unfold Emits phi
  rw [ends_bind, ends_readModule, ends_bind, ends_ofExcept]
  split
  · rename_i hc
    refine insert_emits_of ht ⟨fun v hv => ?_, fun b hb => ?_, typeOf_of_checkIncoming hc⟩ (by simp)
    · obtain ⟨e, he, rfl⟩ := List.mem_map.mp hv
      exact (hi e he).2
    · obtain ⟨e, he, rfl⟩ := List.mem_map.mp hb
      exact (hi e he).1
  · exact .refl s

theorem contains_resultType {m : Module} {f : FunctionId} (h : m.Sound) (hf : m.HasFunction f) :
    m.types.contains (m.resultType f) := by
  obtain ⟨result, params, isVariadic, he, -⟩ := h.functions f hf
  have hc : m.types.contains (m.function f).type := by
    by_contra hn
    simp [TypeTable.entry_of_not_contains hn] at he
  have hfits := h.types.fits _ hc
  rw [he] at hfits
  simpa [resultType, he, Ty.result] using hfits.1

theorem call_emits {callee : FunctionId} {args : List ValueId} (h : s.module.Sound)
    (hf : s.module.HasFunction callee) (ha : ∀ v ∈ args, s.module.values.Has v) :
    Emits s (call callee args) := by
  unfold Emits call
  simp only [ends_bind, ends_readModule]
  obtain ⟨result, params, isVariadic, he, -⟩ := h.functions callee hf
  split
  · exact .refl s
  · split
    · rename_i htakes
      split
      · exact .refl s
      · rename_i hfind
        have hparams : (s.module.types.entry (s.module.function callee).type).params =
            some params := by simp [he, Ty.params]
        have hfits : s.module.KindFits (s.module.resultType callee)
            (.instruction (.call callee args)) := by
          refine ⟨ha, by simp [Instruction.blocks, Instruction.successors], hf, rfl, params,
            hparams, ?_, fun p hp => ?_⟩
          · simp only [hparams, Option.getD_some, takes, Bool.or_eq_true, decide_eq_true_eq,
              Bool.and_eq_true] at htakes
            omega
          · simp only [hparams, Option.getD_some] at hfind
            have hnone := Option.eq_none_iff_forall_not_mem.mpr fun (q : TypeId × ValueId) hq => hfind q.1 q.2 hq
            simpa using List.find?_eq_none.mp hnone p hp
        exact insert_emits_of (contains_resultType h hf) hfits (by simp)
    · exact .refl s

theorem ends_currentFunction {opcode : String} {ok : FunctionId → Builder → Prop}
    {failed : Builder → Prop}
    (h : ∀ f p, s.cursor = some p → s.module.functionOf? p.block = some f → ok f s)
    (hfailed : failed s) : Ends (currentFunction opcode) s ok failed := by
  unfold currentFunction
  simp only [ends_bind, ends_get]
  split
  · rename_i f hf
    obtain ⟨p, hp, hf⟩ := Option.bind_eq_some_iff.mp hf
    exact h f p hp hf
  · exact hfailed

theorem resultType_withTypes {f : FunctionId} {t : TypeTable} (h : s.module.Sound)
    (hf : s.module.HasFunction f) (hg : s.module.types.Grown t) :
    (s.withTypes t).module.resultType f = s.module.resultType f := by
  obtain ⟨result, params, isVariadic, he, -⟩ := h.functions f hf
  exact (prepared_types hg).extends.resultType_eq hf (by simp [he, Ty.params])

theorem ret_emits {o : Order} (h : s.module.Sound) (ho : s.module.Ordered o)
    (hv : s.module.values.Has v) : Emits s (ret v) := by
  unfold Emits ret
  rw [ends_bind]
  refine ends_currentFunction (fun f p hcur hf => ?_) (.refl s)
  simp only [ends_bind, ends_readModule]
  split
  · rename_i ht
    rw [ends_bind]
    refine ends_void h.types.indexed fun id t hg hid he => ?_
    have hfun := ho.hasFunction_of_mem (ho.functionOf?_eq_some.mp hf)
    have hfits : (s.withTypes t).module.KindFits id (.instruction (.ret (some v))) :=
      ⟨fun w hw => by
        obtain rfl : w = v := by simpa [Instruction.operands] using hw
        exact hv, by simp [Instruction.blocks, Instruction.successors], he⟩
    refine Emits.of_prepared (prepared_withTypes hg)
      (insert_emits hid hfits (fun r hr q hq => ?_) (by simp))
    obtain rfl : p = q := by simpa [withTypes, hcur] using hq
    refine ⟨f, hf, ?_⟩
    cases hr
    rw [ReturnFits, resultType_withTypes h hfun hg, ht]
    rfl
  · exact .refl s

theorem retVoid_emits (h : s.module.Sound) : Emits s retVoid := by
  unfold Emits retVoid
  rw [ends_bind]
  refine ends_currentFunction (fun f p hcur hf => ?_) (.refl s)
  rw [ends_bind]
  refine ends_void h.types.indexed fun id t hg hid he => ?_
  simp only [ends_bind, ends_readModule]
  split
  · rename_i ht
    have hfits : (s.withTypes t).module.KindFits id (.instruction (.ret none)) :=
      ⟨by simp [Instruction.operands], by simp [Instruction.blocks, Instruction.successors], he⟩
    refine Emits.of_prepared (prepared_withTypes hg)
      (insert_emits hid hfits (fun r hr q hq => ?_) (by simp))
    obtain rfl : p = q := by simpa [withTypes, hcur] using hq
    refine ⟨f, hf, ?_⟩
    cases hr
    rw [ReturnFits, ht]
    exact ⟨hid, he⟩
  · exact prepared_withTypes hg

/-! ### Aggregates -/

theorem member?_of_memberType {m : Module} {opcode : String} {index : Nat} {member : TypeId}
    (h : memberType m opcode type index = .ok member) :
    (m.types.entry type).member? index = some member := by
  unfold memberType at h
  cases he : m.types.entry type with
  | struct name fields p =>
    rw [he] at h
    dsimp only at h
    split at h
    · cases h
      assumption
    · cases h
  | array element n =>
    rw [he] at h
    dsimp only at h
    split at h
    · rename_i hlt
      cases h
      simp [Ty.member?, hlt]
    · cases h
  | _ => simp [he] at h

theorem contains_member (h : s.module.Sound) {index : Nat} {member : TypeId}
    (hm : (s.module.types.entry type).member? index = some member) :
    s.module.types.contains member := by
  have hc : s.module.types.contains type := by
    by_contra hn
    simp [TypeTable.entry_of_not_contains hn, Ty.member?] at hm
  refine TypeTable.contains_of_isSized
    (TypeTable.isSized_of_mem_parts (h.types.fits type hc) ?_)
  cases he : s.module.types.entry type with
  | struct name fields p =>
    rw [he] at hm
    exact List.mem_of_getElem? hm
  | array element n =>
    rw [he] at hm
    simp only [Ty.member?, Option.ite_none_right_eq_some, Option.some.injEq] at hm
    simp [Ty.parts, hm.2]
  | _ => simp [he, Ty.member?] at hm

theorem extractValue_emits {aggregate : ValueId} {index : Nat} (h : s.module.Sound)
    (ha : s.module.values.Has aggregate) : Emits s (extractValue aggregate index) := by
  unfold Emits extractValue
  rw [ends_bind, ends_readModule, ends_bind, ends_ofExcept]
  split
  · rename_i member hm
    have hm := member?_of_memberType hm
    have hfits : s.module.KindFits member (.instruction (.extractValue aggregate index)) :=
      ⟨by simpa [Instruction.operands] using ha,
        by simp [Instruction.blocks, Instruction.successors], hm⟩
    exact insert_emits_of (contains_member h hm) hfits (by simp)
  · exact .refl s

theorem insertValue_emits {aggregate element : ValueId} {index : Nat} (h : s.module.Sound)
    (ha : s.module.values.Has aggregate) (he : s.module.values.Has element) :
    Emits s (insertValue aggregate element index) := by
  unfold Emits insertValue
  rw [ends_bind, ends_readModule]
  dsimp only
  rw [ends_bind, ends_ofExcept]
  split
  · rename_i member hm
    split
    · rename_i ht
      have hm := member?_of_memberType hm
      have hfits : s.module.KindFits (s.module.typeOf aggregate)
          (.instruction (.insertValue aggregate element index)) :=
        ⟨by simpa [Instruction.operands] using ⟨ha, he⟩,
          by simp [Instruction.blocks, Instruction.successors], rfl, ht ▸ hm⟩
      exact insert_emits_of (contains_typeOf h ha) hfits (by simp)
    · exact .refl s
  · exact .refl s

theorem extractElement_emits {vector index : ValueId} (h : s.module.Sound)
    (hv : s.module.values.Has vector) (hi : s.module.values.Has index) :
    Emits s (extractElement vector index) := by
  unfold Emits extractElement
  rw [ends_bind]
  refine ends_expectKind (fun hk => ?_) (.refl s)
  rw [ends_bind]
  refine ends_expectInteger (fun hki => ?_) (.refl s)
  simp only [ends_bind, ends_readModule]
  obtain ⟨element, n, he⟩ := entry_of_vector hk
  rw [scalarOf_vector he]
  have hfits : s.module.KindFits element (.instruction (.extractElement vector index)) :=
    ⟨by simpa [Instruction.operands] using ⟨hv, hi⟩,
      by simp [Instruction.blocks, Instruction.successors], hki, n, he⟩
  exact insert_emits_of (contains_element h he) hfits (by simp)

theorem insertElement_emits {vector element index : ValueId} (h : s.module.Sound)
    (hv : s.module.values.Has vector) (he : s.module.values.Has element)
    (hi : s.module.values.Has index) : Emits s (insertElement vector element index) := by
  unfold Emits insertElement
  rw [ends_bind]
  refine ends_expectKind (fun hk => ?_) (.refl s)
  rw [ends_bind]
  refine ends_expectInteger (fun hki => ?_) (.refl s)
  simp only [ends_bind, ends_readModule]
  obtain ⟨lane, n, hvec⟩ := entry_of_vector hk
  rw [scalarOf_vector hvec]
  split
  · rename_i ht
    have hfits : s.module.KindFits (s.module.typeOf vector)
        (.instruction (.insertElement vector element index)) :=
      ⟨by simpa [Instruction.operands] using ⟨hv, he, hi⟩,
        by simp [Instruction.blocks, Instruction.successors], hki, rfl, n, ht ▸ hvec⟩
    exact insert_emits_of (contains_typeOf h hv) hfits (by simp)
  · exact .refl s

theorem shuffle_emits {mask : ValueId} (h : s.module.Sound)
    (hl : s.module.values.Has lhs) (hr : s.module.values.Has rhs)
    (hm : s.module.values.Has mask) :
    Emits s (shuffle lhs rhs mask) := by
  unfold Emits shuffle
  rw [ends_bind]
  refine ends_sameType (fun heq => ?_) (.refl s)
  rw [ends_bind]
  refine ends_expectKind (fun hk => ?_) (.refl s)
  rw [ends_bind]
  refine ends_expectKind (fun hkm => ?_) (.refl s)
  simp only [ends_bind, ends_readModule]
  obtain ⟨element, n, he⟩ := entry_of_vector hk
  obtain ⟨bit, k, hmask⟩ := entry_of_vector hkm
  rw [scalarOf_vector he, scalarOf_vector hmask, hmask]
  split
  · rename_i hw
    split
    · rw [ends_bind, ends_onTypes]
      refine TypeTable.ends_vector h.types.indexed (fun id t hg hid hv => ?_) (.refl s)
      have hx := TypeTable.extends_of_grown hg
      have hfits : (s.withTypes t).module.KindFits id (.instruction (.shuffle lhs rhs mask)) :=
        ⟨by simpa [Instruction.operands] using ⟨hl, hr, hm⟩,
          by simp [Instruction.blocks, Instruction.successors], heq, element, bit, n, k,
          hx.entry_of he (by simp) rfl, hx.entry_of hmask (by simp) rfl,
          hx.entry_of (entry_of_intWidth hw) (by simp) rfl, hv⟩
      exact Emits.of_prepared (prepared_withTypes hg) (insert_emits_of hid hfits (by simp))
    · exact .refl s
  · exact .refl s

theorem select_emits {cond thenValue elseValue : ValueId} (h : s.module.Sound)
    (hc : s.module.values.Has cond) (ht : s.module.values.Has thenValue)
    (he : s.module.values.Has elseValue) : Emits s (select cond thenValue elseValue) := by
  unfold Emits select
  rw [ends_bind]
  refine ends_sameType (fun heq => ?_) (.refl s)
  simp only [ends_bind, ends_readModule]
  have make (hcond : s.module.types.entry (s.module.typeOf cond) = .int 1 ∨ ∃ bit element length,
      s.module.types.entry (s.module.typeOf cond) = .vector bit length ∧
      s.module.types.entry bit = .int 1 ∧
      s.module.types.entry (s.module.typeOf thenValue) = .vector element length) :
      Emits s (insert (s.module.typeOf thenValue) (.select cond thenValue elseValue)) :=
    insert_emits_of (contains_typeOf h ht) ⟨by simpa [Instruction.operands] using ⟨hc, ht, he⟩,
      by simp [Instruction.blocks, Instruction.successors], rfl, heq.symm, hcond⟩ (by simp)
  split
  · rename_i hw
    have hbit := entry_of_intWidth hw
    split
    · rename_i hk
      obtain ⟨bit, n, hcv⟩ := entry_of_vector hk
      split
      · rename_i hsame
        obtain ⟨element, k, htv⟩ := entry_of_vector hsame.1
        obtain rfl : k = n := by simpa [hcv, htv, Ty.length] using hsame.2
        rw [scalarOf_vector hcv] at hbit
        exact make (.inr ⟨bit, element, k, hcv, hbit, htv⟩)
      · rw [ends_bind]
        exact ends_boolLike h.types.indexed (fun id t hg _ _ => prepared_withTypes hg) fun s' hp => hp
    · rename_i hk
      exact make (.inl (scalarOf_of_kind_ne hk ▸ hbit))
  · rw [ends_bind, ends_onTypes]
    refine TypeTable.ends_intern h.types.indexed rfl rfl ⟨by decide, by decide⟩ fun _ t hg _ _ => ?_
    exact prepared_withTypes hg

/-! ### All of them -/

/-- What a valid request does to a sound module. -/
theorem emission_emits {o : Order} {e : Emission} (h : s.module.Sound) (ho : s.module.Ordered o)
    (he : e.Valid s.module) : EmitsOrKeeps s e.kept? e.emit := by
  obtain ⟨hv, ht, hb, hf⟩ := he
  cases e with
  | binary op lhs rhs =>
    exact (binary_emits h (hv lhs (by simp [Emission.values]))
      (hv rhs (by simp [Emission.values]))).orKeeps
  | neg v => exact (neg_emits h (hv v (by simp [Emission.values]))).orKeeps
  | not v => exact (not_emits h (hv v (by simp [Emission.values]))).orKeeps
  | fneg v => exact (fneg_emits h (hv v (by simp [Emission.values]))).orKeeps
  | icmp pred lhs rhs =>
    exact (icmp_emits h (hv lhs (by simp [Emission.values]))
      (hv rhs (by simp [Emission.values]))).orKeeps
  | fcmp pred lhs rhs =>
    exact (fcmp_emits h (hv lhs (by simp [Emission.values]))
      (hv rhs (by simp [Emission.values]))).orKeeps
  | cast op v type =>
    exact (cast_emits (hv v (by simp [Emission.values]))
      (ht type (by simp [Emission.types]))).orKeeps
  | intCast v type isSigned =>
    exact intCast_emits (hv v (by simp [Emission.values])) (ht type (by simp [Emission.types]))
  | fpCast v type =>
    exact fpCast_emits (hv v (by simp [Emission.values])) (ht type (by simp [Emission.types]))
  | alloca type => exact (allocate_emits h (by simp)).orKeeps
  | arrayAlloca type count =>
    exact (arrayAlloca_emits h (hv count (by simp [Emission.values]))).orKeeps
  | load ptr => exact (load_emits (hv ptr (by simp [Emission.values]))).orKeeps
  | store v ptr =>
    exact (store_emits h (hv v (by simp [Emission.values]))
      (hv ptr (by simp [Emission.values]))).orKeeps
  | elementPtr base indices =>
    exact (elementPtr_emits h (hv base (by simp [Emission.values]))
      fun n hn => hv n (by simp [Emission.values, hn])).orKeeps
  | structPtr base field =>
    exact (structPtr_emits h (hv base (by simp [Emission.values]))).orKeeps
  | br dest => exact (br_emits h (hb dest (by simp [Emission.blocks]))).orKeeps
  | condBr cond thenDest elseDest =>
    exact (condBr_emits h (hv cond (by simp [Emission.values]))
      (hb thenDest (by simp [Emission.blocks])) (hb elseDest (by simp [Emission.blocks]))).orKeeps
  | switch v default cases =>
    refine (switch_emits h (hv v (by simp [Emission.values])) (hb default (by simp [Emission.blocks]))
      fun c hc => ⟨hv c.1 ?_, hb c.2 ?_⟩).orKeeps
    · exact List.mem_cons_of_mem _ (List.mem_map_of_mem hc)
    · exact List.mem_cons_of_mem _ (List.mem_map_of_mem hc)
  | phi type incoming =>
    exact (phi_emits (ht type (by simp [Emission.types])) fun e he =>
      ⟨hb e.1 (List.mem_map_of_mem he), hv e.2 (List.mem_map_of_mem he)⟩).orKeeps
  | call callee args =>
    exact (call_emits h (hf callee (by simp [Emission.callees])) hv).orKeeps
  | ret v => exact (ret_emits h ho (hv v (by simp [Emission.values]))).orKeeps
  | retVoid => exact (retVoid_emits h).orKeeps
  | unreachable => exact (unreachable_emits h).orKeeps
  | extractValue aggregate index =>
    exact (extractValue_emits h (hv aggregate (by simp [Emission.values]))).orKeeps
  | insertValue aggregate element index =>
    exact (insertValue_emits h (hv aggregate (by simp [Emission.values]))
      (hv element (by simp [Emission.values]))).orKeeps
  | extractElement vector index =>
    exact (extractElement_emits h (hv vector (by simp [Emission.values]))
      (hv index (by simp [Emission.values]))).orKeeps
  | insertElement vector element index =>
    exact (insertElement_emits h (hv vector (by simp [Emission.values]))
      (hv element (by simp [Emission.values])) (hv index (by simp [Emission.values]))).orKeeps
  | shuffle lhs rhs mask =>
    exact (shuffle_emits h (hv lhs (by simp [Emission.values])) (hv rhs (by simp [Emission.values]))
      (hv mask (by simp [Emission.values]))).orKeeps
  | select cond thenValue elseValue =>
    exact (select_emits h (hv cond (by simp [Emission.values]))
      (hv thenValue (by simp [Emission.values])) (hv elseValue (by simp [Emission.values]))).orKeeps

end SsaKit.Builder
