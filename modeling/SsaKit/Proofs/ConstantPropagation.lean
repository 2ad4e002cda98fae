import SsaKit.Proofs.Content
import SsaKit.Proofs.Folding
import SsaKit.Proofs.Reachable
import SsaKit.Transform.Pipeline

/-! Constant propagation keeps every result: one replacement does, and so do the rounds. -/
namespace SsaKit

open Attempt SsaKit.Module Transform

variable {m m' m'' : Module} {o : Order} {v w : ValueId} {word : UInt64}

/-- The second module returns whatever the first one does. -/
def Module.Refines (m m' : Module) : Prop :=
  ∀ (host : Host) (limits : Limits) (f : FunctionId) (args : List Box) (result : Box),
    (⟨m, host, limits⟩ : Setting).runFunction f args = .ok result →
      (⟨m', host, limits⟩ : Setting).runFunction f args = .ok result

theorem Module.Refines.refl (m : Module) : m.Refines m := fun _ _ _ _ _ h => h

theorem Module.Refines.trans (h : m.Refines m') (h' : m'.Refines m'') : m.Refines m'' :=
  fun host limits f args result hr => h' host limits f args result (h host limits f args result hr)

/-! ### What is folded -/

namespace Module

/-- An instruction that comes to a word of a width, wherever it is evaluated. -/
structure ComesTo (m : Module) (v : ValueId) (bits : Nat) (word : UInt64) : Prop where
  width : m.types.entry (m.typeOf v) = .int bits
  small : bits ≤ 64
  masked : Word.mask bits word = word
  settled : ∃ i, m.instruction? v = some i ∧ i.isPhi = false ∧ i.isTerminator = false ∧
    ∀ e : Setting, e.module = m → ∀ callee frame,
      e.evaluate callee frame (m.typeOf v) i = pure (.int bits word)

theorem width_of_word (hs : m.Sound) (hk : m.kindOf v = .int word) :
    ∃ bits ≤ 64, m.types.entry (m.typeOf v) = .int bits := by
  have hfits := (hs.values v (has_of_kindOf (by simp [hk]))).2
  rw [hk] at hfits
  obtain ⟨bits, hb, he, -⟩ := hfits
  exact ⟨bits, hb, he⟩

theorem comesTo_of_fold (hs : m.Sound) (h : fold m v = some word) :
    ∃ bits, m.ComesTo v bits word := by
  unfold fold at h
  simp only [Option.bind_eq_bind, Option.bind_eq_some_iff] at h
  obtain ⟨i, hi, h⟩ := h
  have hfits := hs.instructionFits hi
  cases i with
  | binary op lhs rhs =>
    simp only [Option.bind_eq_some_iff] at h
    obtain ⟨bits, hw, a, ha, b, hb, h⟩ := h
    obtain ⟨htl, htr, -⟩ := hfits
    have he := Builder.entry_of_intWidth hw
    have hka := kindOf_of_constWord? ha
    have hkb := kindOf_of_constWord? hb
    obtain ⟨n, hn, hen⟩ := width_of_word hs hka
    obtain rfl : bits = n := by
      rw [htl, he] at hen
      cases hen
      rfl
    have hr : op.onWords bits a b = .ok word := by
      cases hr : op.onWords bits a b with
      | error failure => simp [hr, Except.toOption] at h
      | ok r => simpa [hr, Except.toOption] using h
    refine ⟨bits, he, hn, BinaryOp.mask_onWords hr, _, hi, rfl, rfl, fun e hem callee frame => ?_⟩
    subst hem
    have hd : Datum.binary e.host op (.int bits a) (.int bits b) = .ok (.int bits word) := by
      simp [Datum.binary, Datum.lanewise, Datum.binaryScalar, BinaryOp.not_overshifts hn, hr,
        Except.mapError]
    rw [Setting.evaluate, Setting.operand_of_word hka (htl ▸ he), pure_bind,
      Setting.operand_of_word hkb (htr ▸ he), pure_bind, hd]
    rfl
  | icmp pred lhs rhs =>
    simp only [Option.bind_eq_some_iff] at h
    obtain ⟨bits, hw, a, ha, b, hb, h⟩ := h
    obtain rfl : (if pred.onWords bits a b then 1 else 0) = word := Option.some_inj.mp h
    obtain ⟨htypes, -, htruth⟩ := hfits
    have he := Builder.entry_of_intWidth hw
    have hka := kindOf_of_constWord? ha
    have hkb := kindOf_of_constWord? hb
    have hbit : m.types.entry (m.typeOf v) = .int 1 := by
      obtain ⟨-, hbit⟩ | ⟨element, bit, n, hvector, -⟩ := htruth
      · exact hbit
      · rw [he] at hvector
        cases hvector
    have hmask : Word.mask 1 (if pred.onWords bits a b then 1 else 0) =
        if pred.onWords bits a b then 1 else 0 := by
      cases pred.onWords bits a b <;> rfl
    refine ⟨1, hbit, by decide, hmask, _, hi, rfl, rfl, fun e hem callee frame => ?_⟩
    subst hem
    have hd : Datum.icmp pred (.int bits a) (.int bits b) =
        .ok (.int 1 (if pred.onWords bits a b then 1 else 0)) := by
      simp [Datum.icmp, Datum.lanewise, Datum.icmpScalar, Datum.ofBool]
    rw [Setting.evaluate, Setting.operand_of_word hka he, pure_bind,
      Setting.operand_of_word hkb (htypes ▸ he), pure_bind, hd]
    rfl
  | _ => cases h

/-! ### One replacement -/

theorem ends_constWord_of {bits : Nat} {type : TypeId} {ok : ValueId → Module → Prop}
    {failed : Module → Prop} (he : m.types.entry type = .int bits) (hb : bits ≤ 64)
    (h : ok ⟨m.values.size⟩ (m.pushed type (.int (Word.mask bits word)))) :
    Ends (constWord type word) m ok failed := by
  unfold constWord Module.expectKind
  have hk : m.types.kind type = .integer := by simp [TypeTable.kind, he, Ty.kind]
  have hw : (m.types.intWidth type).getD 64 = bits := by
    simp [TypeTable.intWidth, he, Ty.intWidth]
  simp only [ends_bind, ends_get, ends_pure, hk, hw, if_true, if_neg (Nat.not_lt.mpr hb)]
  exact h

theorem instruction?_replaced {old new : ValueId} : (m.replaced old new).instruction? w =
    (m.instruction? w).map (·.mapOperands (Setting.standIn old new)) := by
  simp only [instruction?, kindOf, value_replaced, replaceIn]
  cases hk : (m.value w).kind with
  | instruction i => rfl
  | _ => simp [hk, ValueKind.instruction?]

/-- Nobody reads a value after its replacement by another one. -/
theorem reads_replaced {old new : ValueId} (hne : old ≠ new) (user : ValueId) :
    (m.replaced old new).reads old user = false := by
  unfold Module.reads
  rw [instruction?_replaced]
  cases m.instruction? user with
  | none => rfl
  | some i =>
    simp only [Option.map_some, Option.any_some, Instruction.operands_mapOperands,
      List.contains_eq_mem, decide_eq_false_iff_not, List.mem_map, not_exists, not_and]
    intro x _
    unfold Setting.standIn
    split
    · exact fun he => hne he.symm
    · assumption

/-- The module with a word, behind all other values, in the place of an instruction. -/
def folded (m : Module) (v : ValueId) (word : UInt64) : Module :=
  ((m.pushed (m.typeOf v) (.int word)).replaced v ⟨m.values.size⟩).detached v

theorem value_folded (hw : m.values.Has w) :
    (m.folded v word).value w = replaceIn v ⟨m.values.size⟩ (m.value w) := by
  rw [folded, value_detached, value_replaced, value_pushed hw]

theorem value_folded_new (m : Module) (v : ValueId) (word : UInt64) :
    (m.folded v word).value ⟨m.values.size⟩ = { type := m.typeOf v, kind := .int word } := by
  rw [folded, value_detached, value_replaced, value_pushed_new]
  rfl

theorem typeOf_folded (hw : m.values.Has w) : (m.folded v word).typeOf w = m.typeOf w := by
  rw [typeOf, value_folded hw, replaceIn_type]
  rfl

theorem instruction?_folded (hw : m.values.Has w) : (m.folded v word).instruction? w =
    (m.instruction? w).map (·.mapOperands (Setting.standIn v ⟨m.values.size⟩)) := by
  have hsame : (m.folded v word).instruction? w =
      (m.replaced v ⟨m.values.size⟩).instruction? w := by
    rw [instruction?, instruction?, kindOf, kindOf, value_folded hw, value_replaced]
  rw [hsame, instruction?_replaced]

theorem kindOf_folded (hw : m.values.Has w) :
    (m.folded v word).kindOf w = m.kindOf w ∨
      ∃ i i', m.kindOf w = .instruction i ∧ (m.folded v word).kindOf w = .instruction i' := by
  rw [kindOf, kindOf, value_folded hw, replaceIn]
  split
  · rename_i i hi
    exact .inr ⟨i, _, hi, rfl⟩
  · exact .inl rfl

theorem constWord?_folded {a : UInt64} (h : m.constWord? w = some a) :
    (m.folded v word).constWord? w = some a := by
  have hk := kindOf_of_constWord? h
  have hw : m.values.Has w := has_of_kindOf (by simp [hk])
  obtain hsame | ⟨i, i', hi, -⟩ := @kindOf_folded m v w word hw
  · rw [constWord?, hsame, hk]
  · rw [hk] at hi
    cases hi

theorem types_folded (m : Module) (v : ValueId) (word : UInt64) :
    (m.folded v word).types = m.types := by
  unfold folded detached
  split <;> rfl

theorem values_folded (m : Module) (v : ValueId) (word : UInt64) :
    m.values.size ≤ (m.folded v word).values.size := by
  rw [folded, size_detached]
  simp [replaced, pushed]

theorem functions_folded (m : Module) (v : ValueId) (word : UInt64) :
    (m.folded v word).functions = m.functions := by
  unfold folded detached
  split <;> rfl

theorem globals_folded (m : Module) (v : ValueId) (word : UInt64) :
    (m.folded v word).globals = m.globals := by
  unfold folded detached
  split <;> rfl

theorem globalNames_folded (m : Module) (v : ValueId) (word : UInt64) :
    (m.folded v word).globalNames = m.globalNames := by
  unfold folded detached
  split <;> rfl

theorem changed_folded {bits : Nat} (hs : m.Sound) (hv : m.values.Has v)
    (hc : m.ComesTo v bits word) : Changed m (m.folded v word) := by
  have hpush : Quiet m (m.pushed (m.typeOf v) (.int word)) :=
    .prepare _ _ (.constant m _ _ rfl rfl (hs.values v hv).1
      ⟨bits, hc.small, hc.width, hc.masked⟩)
  have htypes : (m.pushed (m.typeOf v) (.int word)).typeOf v =
      (m.pushed (m.typeOf v) (.int word)).typeOf ⟨m.values.size⟩ := by
    rw [typeOf_pushed_new, typeOf, value_pushed hv]
    rfl
  have hreplace := Quiet.replace _ v ⟨m.values.size⟩ (has_pushed.mpr (.inl hv))
    (has_pushed_new m _ _) htypes
  have hmade : Changed m (m.pushed (m.typeOf v) (.int word)) := .single (.inl hpush)
  exact (hmade.tail (.inl hreplace)).trans (changed_detached _ v)

/-- The replaced instruction leaves its block, and everything else stays where it was. -/
theorem ordered_folded (ho : m.Ordered o) :
    (m.folded v word).Ordered ⟨o.blocks, fun b => (o.code b).filter (· ≠ v)⟩ := by
  have hp : (m.pushed (m.typeOf v) (.int word)).Ordered o :=
    ho.of_values (sameLinks_push_value _ _) rfl rfl
  have hr : ((m.pushed (m.typeOf v) (.int word)).replaced v ⟨m.values.size⟩).Ordered o :=
    hp.of_values (Arena.sameLinks_map _) rfl rfl
  exact hr.detached_order v

theorem instructions_folded (ho : m.Ordered o) (b : BlockId) :
    (m.folded v word).instructions b = (m.instructions b).filter (· ≠ v) := by
  rw [(ordered_folded ho).instructions_eq, ho.instructions_eq]

theorem folds_folded {bits : Nat} (ho : m.Ordered o) (hc : m.ComesTo v bits word) (host : Host)
    (limits : Limits) : Setting.Folds ⟨m, host, limits⟩ ⟨m.folded v word, host, limits⟩ v
      ⟨m.values.size⟩ (.int bits word) where
  keeps := {
    host := rfl
    limits := rfl
    types := types_folded m v word
    functions := functions_folded m v word
    globals := globals_folded m v word
    values := values_folded m v word
    typeOf := fun _ hw => typeOf_folded hw
    kindOf := fun _ hw => kindOf_folded hw }
  settled := by
    obtain ⟨i, hi, hphi, hterm, hd⟩ := hc.settled
    exact ⟨i, hi, hphi, hterm, hd _ rfl⟩
  constant frame := by
    refine Setting.operand_of_word ?_ ?_ frame
    · change (m.folded v word).kindOf ⟨m.values.size⟩ = .int word
      rw [kindOf, value_folded_new]
    · change (m.folded v word).types.entry ((m.folded v word).typeOf ⟨m.values.size⟩) = .int bits
      rw [types_folded, typeOf, value_folded_new]
      exact hc.width
  instruction _ hw := instruction?_folded hw
  code b := instructions_folded ho b

theorem refines_folded {bits : Nat} (hs : m.Sound) (ho : m.Ordered o)
    (hc : m.ComesTo v bits word) : m.Refines (m.folded v word) :=
  fun host limits _ _ _ hr => (folds_folded ho hc host limits).runFunction_eq hs ho hr

theorem standIn_of_constWord? {c : ValueId} {i : Instruction} {a : UInt64}
    (hi : m.instruction? v = some i) (ha : m.constWord? w = some a) :
    Setting.standIn v c w = w := by
  have hne : w ≠ v := fun he => by
    have hk := kindOf_of_constWord? ha
    rw [he, kindOf_of_instruction? hi] at hk
    cases hk
  rw [Setting.standIn, if_neg hne]

/-- What could be folded before one replacement comes to the same word afterwards. -/
theorem fold_folded {bits : Nat} {a : UInt64} (hc : m.ComesTo v bits word)
    (h : fold m w = some a) : fold (m.folded v word) w = some a := by
  obtain ⟨j, hj, -⟩ := hc.settled
  have hhas : ∀ {i : Instruction}, m.instruction? w = some i → m.values.Has w :=
    fun hi => has_of_kindOf (by simp [kindOf_of_instruction? hi])
  unfold fold at h ⊢
  simp only [Option.bind_eq_bind, Option.bind_eq_some_iff] at h ⊢
  obtain ⟨i, hi, h⟩ := h
  refine ⟨_, by rw [instruction?_folded (hhas hi), hi, Option.map_some], ?_⟩
  cases i with
  | binary op lhs rhs =>
    simp only [Option.bind_eq_some_iff] at h
    obtain ⟨n, hn, x, hx, y, hy, h⟩ := h
    simp only [Instruction.mapOperands, standIn_of_constWord? hj hx, standIn_of_constWord? hj hy,
      types_folded, typeOf_folded (hhas hi), Option.bind_eq_some_iff]
    exact ⟨n, hn, x, constWord?_folded hx, y, constWord?_folded hy, h⟩
  | icmp pred lhs rhs =>
    simp only [Option.bind_eq_some_iff] at h
    obtain ⟨n, hn, x, hx, y, hy, h⟩ := h
    have hlhs : m.values.Has lhs := has_of_kindOf (by simp [kindOf_of_constWord? hx])
    simp only [Instruction.mapOperands, standIn_of_constWord? hj hx, standIn_of_constWord? hj hy,
      types_folded, typeOf_folded hlhs, Option.bind_eq_some_iff]
    exact ⟨n, hn, x, constWord?_folded hx, y, constWord?_folded hy, h⟩
  | _ => cases h

theorem ends_replaceByConstant {bits : Nat} {ok : Unit → Module → Prop} {failed : Module → Prop}
    (hv : m.values.Has v) (hc : m.ComesTo v bits word) (h : ok () (folded m v word)) :
    Ends (replaceByConstant v word) m ok failed := by
  have hne : v ≠ ⟨m.values.size⟩ := fun he => Nat.lt_irrefl m.values.size (by
    simp [he, Arena.Has] at hv)
  unfold replaceByConstant
  simp only [ends_bind, ends_get]
  refine ends_constWord_of hc.width hc.small ?_
  rw [hc.masked, replaceAllUses_eq]
  have htypes : (m.pushed (m.typeOf v) (.int word)).typeOf v =
      (m.pushed (m.typeOf v) (.int word)).typeOf ⟨m.values.size⟩ := by
    rw [typeOf_pushed_new, typeOf, value_pushed hv]
    rfl
  simp only [ends_bind, ends_get, htypes, if_true]
  change Ends (eraseInstruction v)
    ((m.pushed (m.typeOf v) (.int word)).replaced v ⟨m.values.size⟩) ok failed
  unfold eraseInstruction
  have husers : ((m.pushed (m.typeOf v) (.int word)).replaced v ⟨m.values.size⟩).users v = [] := by
    unfold users
    rw [List.filter_eq_nil_iff]
    intro user _
    simp [reads_replaced hne user]
  simp only [ends_bind, ends_get, husers, List.head?_nil]
  exact ends_detach h

/-! ### The rounds -/

/-- What every replacement keeps: all that the module returned at first, and all that is found. -/
structure Folding (m₀ : Module) (found : List (ValueId × UInt64)) (m : Module) : Prop where
  sound : m.Sound
  ordered : ∃ o, m.Ordered o
  refines : m₀.Refines m
  found : ∀ p ∈ found, fold m p.1 = some p.2

theorem fold_of_mem_foldable {p : ValueId × UInt64} (h : p ∈ foldable m) :
    fold m p.1 = some p.2 := by
  obtain ⟨u, -, hu⟩ := List.mem_filterMap.mp h
  obtain ⟨a, ha, rfl⟩ := Option.map_eq_some_iff.mp hu
  exact ha

theorem has_of_fold (h : fold m v = some word) : m.values.Has v := by
  simp only [fold, Option.bind_eq_bind, Option.bind_eq_some_iff] at h
  obtain ⟨i, hi, -⟩ := h
  exact has_of_kindOf (by simp [kindOf_of_instruction? hi])

theorem replaceByConstant_keeps {m₀ : Module} {found : List (ValueId × UInt64)}
    {P : Module → Prop} (hf : Folding m₀ found m) (h : fold m v = some word)
    (hP : ∀ bits, m.ComesTo v bits word → P (m.folded v word)) :
    Ends (replaceByConstant v word) m (fun _ t => Folding m₀ found t ∧ P t) fun _ => False := by
  have hv := has_of_fold h
  obtain ⟨bits, hc⟩ := comesTo_of_fold hf.sound h
  obtain ⟨o, ho⟩ := hf.ordered
  have hchanged := changed_folded hf.sound hv hc
  refine ends_replaceByConstant hv hc ⟨?_, hP bits hc⟩
  exact
    { sound := hchanged.sound hf.sound
      ordered := hchanged.ordered ho
      refines := hf.refines.trans (refines_folded hf.sound ho hc)
      found := fun p hp => fold_folded hc (hf.found p hp) }

/-- One round replaces all that can be folded when it begins. -/
theorem foldRound_keeps {m₀ : Module} {P : List (ValueId × UInt64) → Module → Prop}
    (hP : ∀ done t v bits word, t.Sound → (∃ o, t.Ordered o) → t.values.Has v →
      t.ComesTo v bits word → P done t → P (done ++ [(v, word)]) (t.folded v word))
    (hf : Folding m₀ [] m) (h : P [] m) :
    Ends ((foldable m).forM fun (v, word) => replaceByConstant v word) m
      (fun _ t => Folding m₀ [] t ∧ P (foldable m) t) fun _ => False := by
  have hround : Folding m₀ (foldable m) m :=
    ⟨hf.sound, hf.ordered, hf.refines, fun p hp => fold_of_mem_foldable hp⟩
  refine (ends_forM_stages (P := fun done t => Folding m₀ (foldable m) t ∧ P done t)
    (fun done p rest hl t ht => ?_) ⟨hround, h⟩).mono
    (fun _ t ht => ⟨⟨ht.1.sound, ht.1.ordered, ht.1.refines, by simp⟩, ht.2⟩) fun _ ht => ht
  have hfold := ht.1.found p (by simp [hl])
  exact replaceByConstant_keeps ht.1 hfold fun bits hc =>
    hP done t p.1 bits p.2 ht.1.sound ht.1.ordered (has_of_fold hfold) hc ht.2

/-- Whatever every replacement keeps is kept by all rounds. -/
theorem foldRounds_keeps {m₀ : Module} {P : Module → Prop}
    (hP : ∀ t v bits word, t.Sound → t.values.Has v → t.ComesTo v bits word → P t →
      P (t.folded v word))
    (fuel : Nat) (changed : Bool) (hf : Folding m₀ [] m) (h : P m) :
    Ends (foldRounds fuel changed) m (fun _ t => Folding m₀ [] t ∧ P t) fun _ => False := by
  induction fuel generalizing m changed with
  | zero => exact ⟨hf, h⟩
  | succ fuel ih =>
    unfold foldRounds
    simp only [ends_bind, ends_get]
    split
    · exact ⟨hf, h⟩
    · rw [ends_bind]
      exact (foldRound_keeps (P := fun _ => P) (fun _ t v bits word hs _ => hP t v bits word hs)
        hf h).mono (fun _ t ht => ih true ht.1 ht.2) fun _ ht => ht

theorem foldRounds_folding {m₀ : Module} (fuel : Nat) (changed : Bool)
    (hf : Folding m₀ [] m) :
    Ends (foldRounds fuel changed) m (fun _ => Folding m₀ []) fun _ => False :=
  (foldRounds_keeps (P := fun _ => True) (fun _ _ _ _ _ _ _ _ => trivial) fuel changed hf
    trivial).mono (fun _ _ ht => ht.1) fun _ ht => ht

theorem Reachable.folding (h : m.Reachable) : Folding m [] m :=
  ⟨h.sound, ⟨m.order, h.ordered⟩, .refl m, by simp⟩

end Module

/-- Constant propagation comes to its end, and leaves a module that returns whatever the first one
did: for every function, host, limit and argument. -/
theorem Module.Reachable.constant_propagation (h : m.Reachable) :
    ∃ changed m', Pass.constProp.run.outcome m = (.ok changed, m') ∧ m.Refines m' := by
  have hends : Ends foldConstants m (fun _ => Folding m []) fun _ => False := by
    unfold foldConstants
    rw [ends_bind, ends_get]
    exact foldRounds_folding _ false h.folding
  obtain ⟨changed, m', ho, hf⟩ := hends.exists_ok
  exact ⟨changed, m', ho, hf.refines⟩

/-- A program that returns the product of two constants. -/
def multiplying : List Call :=
  [.types (.ofType (.int 32)),
    .symbol (.declareFunction "product" ⟨0⟩ [] false),
    .layout (.appendBlock ⟨0⟩ "entry"),
    .constant (.integer ⟨0⟩ 6),
    .constant (.integer ⟨0⟩ 7),
    .setCursor (some { block := ⟨0⟩ }),
    .emission (.binary .mul ⟨0⟩ ⟨1⟩),
    .emission (.ret ⟨2⟩)]

/-- The builder after those calls. -/
def multiplied : Builder := Builder.replay { module := { name := "multiplying" } } multiplying

theorem reachable_multiplied : multiplied.Reachable :=
  Builder.Replays.reachable (by decide +kernel) (Builder.reachable_empty "multiplying")

/-- The product is returned after its instruction is gone. -/
theorem product_propagated : ∃ changed m',
    Pass.constProp.run.outcome multiplied.module = (.ok changed, m') ∧
      (⟨m', .standard, {}⟩ : Setting).runFunction ⟨0⟩ [] = .ok (.int 32 42) := by
  obtain ⟨changed, m', ho, hm⟩ :=
    Module.Reachable.constant_propagation (m := multiplied.module) reachable_multiplied.module
  exact ⟨changed, m', ho, hm .standard {} ⟨0⟩ [] (.int 32 42) (by decide +kernel)⟩

end SsaKit
