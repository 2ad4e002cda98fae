import SsaKit.Proofs.ConstantPropagation
import SsaKit.Proofs.Returns

/-! What the emission of an instruction asks of it beyond the types of its operands, and how much of
that is left when a value is replaced by another one of its type. -/
namespace SsaKit

open Attempt SsaKit.Module Setting

namespace Module

variable {m : Module} {v old new : ValueId} {i : Instruction} {type : TypeId}

/-- What is asked of an instruction beyond the types of its operands. A return is asked for the
result of the function that it is linked into. -/
def Accepts (m : Module) (v : ValueId) : Instruction → Prop
  | .elementPtr base indices => m.Derives base indices (m.typeOf v)
  | .switch _ _ cases => (∀ c ∈ cases, (m.constWord? c.1).isSome) ∧
    (cases.map fun c => m.constWord? c.1).Nodup
  | .phi incoming => (incoming.map (·.1)).Nodup
  | .call callee args => m.isRemoved callee = false ∧
    Builder.takes ((m.types.entry (m.function callee).type).params.getD []).length args.length
      (m.types.entry (m.function callee).type).isVariadic
  | .ret value => ∀ b f, m.blockOf? v = some b → m.functionOf? b = some f → m.ReturnFits f value
  | .shuffle _ _ mask => m.isConstant mask
  | _ => True

/-- Every instruction, linked or not, is one that could have been emitted. -/
def Legal (m : Module) : Prop :=
  ∀ v i, m.instruction? v = some i → m.InstructionFits (m.typeOf v) i ∧ m.Accepts v i

/-- Another value may come into the places of an instruction that a value of one kind has to stand
in: the keys of a switch, the indices that lead to a pointer, the lanes to shuffle. -/
def Fills (m : Module) (old new v : ValueId) : Instruction → Prop
  | .elementPtr base indices =>
    m.Derives (standIn old new base) (indices.map (standIn old new)) (m.typeOf v)
  | .switch _ _ cases => ∀ c ∈ cases, c.1 = old → ∃ word, m.constWord? new = some word ∧
    ∀ d ∈ cases, d.1 ≠ old → m.constWord? d.1 ≠ some word
  | .shuffle _ _ mask => mask = old → m.isConstant new
  | _ => True

/-! ### Replacement -/

@[simp] theorem typeOf_replaced : (m.replaced old new).typeOf v = m.typeOf v := by
  rw [typeOf, value_replaced, replaceIn_type, typeOf]

@[simp] theorem constWord?_replaced : (m.replaced old new).constWord? v = m.constWord? v := by
  unfold constWord? kindOf
  rw [value_replaced, replaceIn]
  cases hk : (m.value v).kind <;> simp [hk]

@[simp] theorem isConstant_replaced : (m.replaced old new).isConstant v = m.isConstant v := by
  unfold isConstant kindOf
  rw [value_replaced]
  exact (replaceIn_becomes old new (m.value v)).isConstant_eq

@[simp] theorem resultType_replaced {f : FunctionId} :
    (m.replaced old new).resultType f = m.resultType f := rfl

theorem stepInto_replaced : Builder.stepInto (m.replaced old new) = Builder.stepInto m := by
  funext type index
  simp only [Builder.stepInto, constWord?_replaced]
  rfl

theorem derives_replaced {base : ValueId} {indices : List ValueId} :
    (m.replaced old new).Derives base indices type ↔ m.Derives base indices type := by
  simp only [Derives, stepInto_replaced, typeOf_replaced]
  rfl

theorem instructionFits_replaced :
    (m.replaced old new).InstructionFits type i ↔ m.InstructionFits type i := by
  cases i <;> simp only [InstructionFits, typeOf_replaced, resultType_replaced] <;> rfl

theorem returnFits_replaced {f : FunctionId} {value : Option ValueId} :
    (m.replaced old new).ReturnFits f value ↔ m.ReturnFits f value := by
  cases value with
  | none => rfl
  | some w => simp only [ReturnFits, typeOf_replaced, resultType_replaced]

theorem accepts_replaced : (m.replaced old new).Accepts v i ↔ m.Accepts v i := by
  have hblock : (m.replaced old new).blockOf? v = m.blockOf? v :=
    (Arena.sameLinks_map _).parent v
  cases i with
  | ret value => simp only [Accepts, returnFits_replaced, hblock]; rfl
  | elementPtr base indices => simp only [Accepts, derives_replaced, typeOf_replaced]
  | _ => simp only [Accepts, constWord?_replaced, isConstant_replaced]; try rfl

/-- One of several different words, with another one in its place. -/
theorem words_standIn_iff {words : ValueId → Option UInt64} {keys : List ValueId}
    (hs : ∀ k ∈ keys, (words k).isSome) (hn : (keys.map words).Nodup) :
    ((∀ k ∈ keys, (words (standIn old new k)).isSome) ∧
      (keys.map fun k => words (standIn old new k)).Nodup) ↔
    ∀ k ∈ keys, k = old → ∃ word, words new = some word ∧
      ∀ d ∈ keys, d ≠ old → words d ≠ some word := by
  have other {k : ValueId} (hk : k ≠ old) : standIn old new k = k := if_neg hk
  by_cases hold : old ∈ keys
  · obtain ⟨xs, ys, rfl⟩ := List.append_of_mem hold
    have hout := (List.nodup_cons.mp (List.nodup_middle.mp hn.of_map)).1
    have apart {k : ValueId} (hk : k ∈ xs ++ ys) : k ≠ old := fun he => hout (he ▸ hk)
    have hmem {k : ValueId} : k ∈ xs ++ old :: ys ↔ k = old ∨ k ∈ xs ++ ys := by
      simp only [List.mem_append, List.mem_cons]
      tauto
    have hmap {l : List ValueId} (hl : ∀ k ∈ l, k ∈ xs ++ ys) :
        (l.map fun k => words (standIn old new k)) = l.map words :=
      List.map_congr_left fun k hk => by rw [other (apart (hl k hk))]
    have hnew : ((xs ++ old :: ys).map fun k => words (standIn old new k)).Nodup ↔
        words new ∉ (xs ++ ys).map words := by
      rw [List.map_append, List.map_cons, hmap (by simp_all), hmap (by simp_all), List.nodup_middle,
        List.nodup_cons, ← List.map_append, show standIn old new old = new from if_pos rfl]
      refine and_iff_left ?_
      rw [List.map_append, List.map_cons, List.nodup_middle, ← List.map_append] at hn
      exact (List.nodup_cons.mp hn).2
    rw [hnew]
    constructor
    · rintro ⟨hsome, hfresh⟩ k - rfl
      obtain ⟨word, hword⟩ := Option.isSome_iff_exists.mp (hsome k (by simp))
      rw [show standIn k new k = new from if_pos rfl] at hword
      refine ⟨word, hword, fun d hd hne hsame => hfresh ?_⟩
      exact List.mem_map.mpr ⟨d, (hmem.mp hd).resolve_left hne, hsame.trans hword.symm⟩
    · intro h
      obtain ⟨word, hword, hfresh⟩ := h old (by simp) rfl
      refine ⟨fun k hk => ?_, fun hmapped => ?_⟩
      · by_cases hne : k = old
        · rw [hne, show standIn old new old = new from if_pos rfl, hword]
          rfl
        · rw [other hne]
          exact hs k hk
      · obtain ⟨d, hd, hsame⟩ := List.mem_map.mp hmapped
        exact hfresh d (hmem.mpr (.inr hd)) (apart hd) (hsame.trans hword)
  · have hmap : (keys.map fun k => words (standIn old new k)) = keys.map words :=
      List.map_congr_left fun k hk => by rw [other fun he => hold (he ▸ hk)]
    rw [hmap]
    refine iff_of_true ⟨fun k hk => ?_, hn⟩ fun k hk he => (hold (he ▸ hk)).elim
    rw [other fun he => hold (he ▸ hk)]
    exact hs k hk

theorem returnFits_standIn {f : FunctionId} {value : Option ValueId}
    (ht : m.typeOf old = m.typeOf new) :
    m.ReturnFits f (value.map (standIn old new)) ↔ m.ReturnFits f value := by
  cases value with
  | none => rfl
  | some w =>
    simp only [Option.map_some, ReturnFits, standIn]
    split
    · rename_i he
      rw [he, ht]
    · rfl

/-- With another operand, an instruction is accepted exactly if that one fills the places where more
than a type is asked for. -/
theorem accepts_mapOperands_iff (h : m.Accepts v i) (ht : m.typeOf old = m.typeOf new) :
    m.Accepts v (i.mapOperands (standIn old new)) ↔ m.Fills old new v i := by
  cases i with
  | switch value default cases =>
    obtain ⟨hs, hn⟩ := h
    have hkeys : (∀ k ∈ cases.map (·.1), (m.constWord? k).isSome) ∧
        ((cases.map (·.1)).map m.constWord?).Nodup :=
      ⟨List.forall_mem_map.mpr hs, by simpa only [List.map_map, Function.comp_def] using hn⟩
    have hiff := @words_standIn_iff old new _ _ hkeys.1 hkeys.2
    simpa only [Accepts, Fills, Instruction.mapOperands, List.forall_mem_map, List.map_map,
      Function.comp_def] using hiff
  | shuffle lhs rhs mask =>
    simp only [Accepts, Fills, Instruction.mapOperands, standIn]
    split
    · rename_i he
      simp [he]
    · rename_i he
      have h : m.isConstant mask := h
      simp [he, h]
  | phi incoming =>
    have h : (incoming.map (·.1)).Nodup := h
    simpa [Accepts, Fills, Instruction.mapOperands, Function.comp_def] using h
  | call callee args =>
    simpa only [Accepts, Fills, Instruction.mapOperands, List.length_map, iff_true] using h
  | ret value =>
    simpa only [Accepts, Fills, Instruction.mapOperands, returnFits_standIn ht, iff_true] using h
  | _ => rfl

/-- An index that is no constant picks no field. -/
theorem stepInto_standIn {source target : TypeId} {index : ValueId}
    (ho : m.isConstant old = false) (h : Builder.stepInto m source index = .ok target) :
    Builder.stepInto m source (standIn old new index) = .ok target := by
  unfold standIn
  split
  · rename_i he
    subst he
    have hword : m.constWord? index = none := by
      unfold constWord?
      split
      · rename_i hk
        simp [isConstant, hk, ValueKind.isConstant] at ho
      · rfl
    unfold Builder.stepInto at h ⊢
    split
    · rename_i hentry
      simp [hentry, hword] at h
    · simpa [*] using h
    · simpa [*] using h
    · simp_all
  · exact h

theorem foldlM_stepInto_standIn {source target : TypeId} {indices : List ValueId}
    (ho : m.isConstant old = false)
    (h : indices.foldlM (Builder.stepInto m) source = .ok target) :
    (indices.map (standIn old new)).foldlM (Builder.stepInto m) source = .ok target := by
  induction indices generalizing source with
  | nil => exact h
  | cons index indices ih =>
    rw [List.foldlM_cons] at h
    rw [List.map_cons, List.foldlM_cons]
    cases hstep : Builder.stepInto m source index with
    | error e => simp [hstep, bind, Except.bind] at h
    | ok next =>
      rw [hstep] at h
      rw [stepInto_standIn ho hstep]
      exact ih h

theorem fills_of_not_constant (h : m.Accepts v i) (ho : m.isConstant old = false)
    (ht : m.typeOf old = m.typeOf new) : m.Fills old new v i := by
  cases i with
  | elementPtr base indices =>
    obtain ⟨pointee, target, hbase, hpath, htype⟩ := h
    refine ⟨pointee, target, ?_, ?_, htype⟩
    · unfold standIn
      split
      · rename_i he
        rw [← ht, ← he, hbase]
      · exact hbase
    · rw [← List.map_drop]
      exact foldlM_stepInto_standIn ho hpath
  | switch value default cases =>
    rintro c hc rfl
    obtain ⟨word, hword⟩ := Option.isSome_iff_exists.mp (h.1 c hc)
    simp [isConstant, kindOf_of_constWord? hword, ValueKind.isConstant] at ho
  | shuffle lhs rhs mask =>
    rintro rfl
    have h : m.isConstant mask := h
    rw [h] at ho
    cases ho
  | _ => trivial

/-- A replacement by a value of the same type succeeds and keeps the types of all operands right.
All instructions stay legal exactly if the new value fills the places that ask for more than a type,
which it need not where the old one was no constant. -/
theorem replaceAllUses_legal (h : m.Legal) (ht : m.typeOf old = m.typeOf new) :
    ∃ m', (replaceAllUses old new).outcome m = (.ok (m.useCount old), m') ∧
      (∀ v i, m'.instruction? v = some i → m'.InstructionFits (m'.typeOf v) i) ∧
      (m'.Legal ↔ ∀ v i, m.instruction? v = some i → m.Fills old new v i) ∧
      (m.isConstant old = false → m'.Legal) := by
  have hends : Ends (replaceAllUses old new) m
      (fun count t => count = m.useCount old ∧ t = m.replaced old new) fun _ => False := by
    rw [replaceAllUses_eq]
    simp only [ends_bind, ends_get, if_pos ht]
    exact ⟨rfl, rfl⟩
  obtain ⟨count, t, houtcome, rfl, rfl⟩ := hends.exists_ok
  have hfits : ∀ v i, (m.replaced old new).instruction? v = some i →
      (m.replaced old new).InstructionFits ((m.replaced old new).typeOf v) i := by
    intro v i hi
    rw [instruction?_replaced] at hi
    obtain ⟨j, hj, rfl⟩ := Option.map_eq_some_iff.mp hi
    rw [instructionFits_replaced, typeOf_replaced]
    refine (h v j hj).1.mapOperands fun w _ => ?_
    unfold standIn
    split
    · rename_i he
      rw [he, ht]
    · rfl
  have hiff : (m.replaced old new).Legal ↔
      ∀ v i, m.instruction? v = some i → m.Fills old new v i := by
    constructor
    · intro hlegal v i hi
      have hmapped := (hlegal v (i.mapOperands (standIn old new))
        (by rw [instruction?_replaced, hi]; rfl)).2
      exact (accepts_mapOperands_iff (h v i hi).2 ht).mp (accepts_replaced.mp hmapped)
    · intro hfills v i hi
      refine ⟨hfits v i hi, accepts_replaced.mpr ?_⟩
      rw [instruction?_replaced] at hi
      obtain ⟨j, hj, rfl⟩ := Option.map_eq_some_iff.mp hi
      exact (accepts_mapOperands_iff (h v j hj).2 ht).mpr (hfills v j hj)
  exact ⟨_, houtcome, hfits, hiff,
    fun ho => hiff.mpr fun v i hi => fills_of_not_constant (h v i hi).2 ho ht⟩

end Module

/-! ### What an emission makes -/

/-- Instructions that are accepted for the types of their operands and the place they stand in. -/
def Instruction.isTypical : Instruction → Bool
  | .switch _ _ _ | .phi _ | .call _ _ | .shuffle _ _ _ => false
  | _ => true

namespace Builder

variable {s : Builder} {α : Type} {kept : Option ValueId} {v : ValueId} {i : Instruction}
  {type : TypeId} {P : Instruction → Prop}

/-- Every value that a step hands back is one that was there, or an instruction of some sort. -/
def Makes (kept : Option ValueId) (P : Instruction → Prop) (step : Emit ValueId) : Prop :=
  ∀ s, Ends step s
    (fun v s' => kept = some v ∨ ∃ i, s'.module.instruction? v = some i ∧ P i) fun _ => True

/-- The builder with one more instruction at its cursor. -/
def inserted (s : Builder) (p : Position) (type : TypeId) (i : Instruction) : Builder :=
  { s with module := (s.module.pushed type (.instruction i)).linked p ⟨s.module.values.size⟩ }

theorem ends_insert {ok : ValueId → Builder → Prop} {failed : Builder → Prop}
    (h : ∀ p, s.cursor = some p → ok ⟨s.module.values.size⟩ (s.inserted p type i))
    (hfailed : failed s) : Ends (insert type i) s ok failed := by
  unfold insert
  simp only [ends_bind, ends_get]
  split
  · exact hfailed
  · rename_i p hp
    have made : Ends (onModule (insertInstruction p.block p.before type i)) s ok failed := by
      rw [ends_onModule]
      unfold insertInstruction linkInstruction Edit.relink
      simp only [ends_bind, ends_modify, ends_pure]
      have hok := h p hp
      unfold inserted linked at hok
      cases hbefore : p.before <;> simp only [hbefore] at hok <;> exact hok
    split
    · split
      · exact made
      · exact hfailed
    · exact made

theorem instruction?_inserted {p : Position} :
    (s.inserted p type i).module.instruction? ⟨s.module.values.size⟩ = some i := by
  rw [instruction?, inserted, kindOf_linked, kindOf, value_pushed_new]
  rfl

theorem kindOf_inserted {p : Position} {w : ValueId} (hw : s.module.values.Has w) :
    (s.inserted p type i).module.kindOf w = s.module.kindOf w := by
  rw [inserted, kindOf_linked, kindOf, value_pushed hw, kindOf]

theorem insert_makes (hi : P i) : Makes kept P (insert type i) := fun _ =>
  ends_insert (fun _ _ => .inr ⟨i, instruction?_inserted, hi⟩) trivial

theorem Makes.of_bind {step : Emit α} {next : α → Emit ValueId}
    (h : ∀ a, Makes kept P (next a)) : Makes kept P (step >>= next) := by
  intro s
  rw [ends_bind]
  exact Ends.of_forall (fun a t => h a t) fun _ => trivial

theorem Makes.guard {p : Prop} [Decidable p] {refuse : Emit PUnit} {next : PUnit → Emit ValueId}
    (h : ∀ r, Makes kept P (next r)) : Makes kept P (if p then next ⟨⟩ else refuse >>= next) := by
  split
  · exact h _
  · exact Makes.of_bind h

theorem binary_makes (op : BinaryOp) (lhs rhs : ValueId) (hi : P (.binary op lhs rhs)) :
    Makes kept P (binary op lhs rhs) :=
  Makes.of_bind fun _ => Makes.of_bind fun _ => Makes.guard fun _ => insert_makes hi

theorem cast_makes (op : CastOp) (v : ValueId) (type : TypeId) (hi : P (.cast op v)) :
    Makes kept P (cast op v type) :=
  Makes.of_bind fun _ => Makes.guard fun _ => insert_makes hi

theorem allocate_makes (type : TypeId) (count : Option ValueId) (hi : P (.alloca type count)) :
    Makes kept P (allocate type count) :=
  Makes.of_bind fun _ => Makes.guard fun _ => Makes.of_bind fun _ => insert_makes hi

theorem elementPtr_makes (base : ValueId) (indices : List ValueId)
    (hi : P (.elementPtr base indices)) : Makes kept P (elementPtr base indices) := by
  unfold elementPtr
  refine Makes.of_bind fun _ => ?_
  dsimp only
  split
  · exact Makes.of_bind fun _ => Makes.of_bind fun _ => Makes.of_bind fun _ =>
      Makes.of_bind fun _ => Makes.of_bind fun _ => insert_makes hi
  · exact Makes.of_bind fun _ => Makes.of_bind fun _ => Makes.of_bind fun _ =>
      Makes.of_bind fun _ => insert_makes hi

theorem condBr_makes (cond : ValueId) (thenDest elseDest : BlockId)
    (hi : P (.condBranch cond thenDest elseDest)) :
    Makes kept P (condBr cond thenDest elseDest) := by
  unfold condBr
  refine Makes.of_bind fun m => ?_
  split
  · exact Makes.of_bind fun _ => insert_makes hi
  · exact Makes.of_bind fun _ => Makes.of_bind fun _ => Makes.of_bind fun _ =>
      Makes.of_bind fun _ => insert_makes hi

theorem select_makes (cond thenValue elseValue : ValueId)
    (hi : P (.select cond thenValue elseValue)) :
    Makes kept P (select cond thenValue elseValue) := by
  unfold select
  refine Makes.of_bind fun type => Makes.of_bind fun m => ?_
  have lanes : Makes kept P (do
      if m.types.kind (m.typeOf cond) = .vector then
        unless m.types.kind type = .vector ∧
            (m.types.entry type).length = (m.types.entry (m.typeOf cond)).length do
          let expected ← boolLike type
          let m' ← readModule
          throw (m'.mismatch expected (m.typeOf cond))
      insert type (.select cond thenValue elseValue)) := by
    dsimp only
    split
    · split
      · exact insert_makes hi
      · exact Makes.of_bind fun _ => Makes.of_bind fun _ => Makes.of_bind fun _ => insert_makes hi
    · exact insert_makes hi
  dsimp only
  split
  · exact lanes
  · exact Makes.of_bind fun _ => Makes.of_bind fun _ => Makes.of_bind fun _ => lanes

theorem makes_kept (h : kept = some v) : Makes kept P (pure v) := fun _ => .inl h

theorem makes_throw (e : Error) : Makes kept P (throw e) := fun _ => trivial

theorem intCast_makes (v : ValueId) (type : TypeId) (isSigned : Bool)
    (hi : ∀ op, P (.cast op v)) : Makes (some v) P (intCast v type isSigned) := by
  unfold intCast
  refine Makes.of_bind fun _ => Makes.of_bind fun m => ?_
  split
  · split
    · exact makes_kept rfl
    · split
      · exact cast_makes _ v type (hi _)
      · exact cast_makes _ v type (hi _)
  · exact makes_throw _

theorem fpCast_makes (v : ValueId) (type : TypeId) (hi : ∀ op, P (.cast op v)) :
    Makes (some v) P (fpCast v type) := by
  unfold fpCast
  refine Makes.of_bind fun _ => Makes.of_bind fun m => Makes.guard fun _ => ?_
  dsimp only
  split
  · exact makes_kept rfl
  · exact cast_makes _ v type (hi _)

/-! ### Emissions with more than types to check -/

/-- A step makes an instruction that is accepted. -/
def MakesAccepted (s : Builder) (step : Emit ValueId) : Prop :=
  Ends step s (fun v s' => ∃ i, s'.module.instruction? v = some i ∧ s'.module.Accepts v i)
    fun _ => True

theorem words_of_checkKeys {m : Module} {seen : List UInt64} {keys : List ValueId}
    (h : checkKeys m type seen keys = .ok ()) : (∀ k ∈ keys, (m.constWord? k).isSome) ∧
      (keys.map m.constWord?).Nodup ∧ ∀ word ∈ seen, some word ∉ keys.map m.constWord? := by
  induction keys generalizing seen with
  | nil => simp
  | cons key keys ih =>
    unfold checkKeys at h
    split at h
    · cases h
    · split at h
      · cases h
      · rename_i word hword
        split at h
        · cases h
        · rename_i hfresh
          obtain ⟨hs, hn, hout⟩ := ih h
          have hnew : word ∉ seen := by simpa using hfresh
          refine ⟨List.forall_mem_cons.mpr ⟨by simp [hword], hs⟩, ?_, fun w hw => ?_⟩
          · rw [List.map_cons, hword]
            exact List.nodup_cons.mpr ⟨hout word (by simp), hn⟩
          · rw [List.map_cons, hword, List.mem_cons, Option.some_inj, not_or]
            exact ⟨fun he => hnew (he ▸ hw), hout w (by simp [hw])⟩

theorem blocks_of_checkIncoming {m : Module} {seen : List BlockId}
    {incoming : List (BlockId × ValueId)} (h : checkIncoming m type seen incoming = .ok ()) :
    (incoming.map (·.1)).Nodup ∧ ∀ b ∈ seen, b ∉ incoming.map (·.1) := by
  induction incoming generalizing seen with
  | nil => simp
  | cons e incoming ih =>
    obtain ⟨b, v⟩ := e
    unfold checkIncoming at h
    split at h
    · cases h
    · split at h
      · cases h
      · rename_i hfresh
        obtain ⟨hn, hout⟩ := ih h
        have hnew : b ∉ seen := by simpa using hfresh
        refine ⟨List.nodup_cons.mpr ⟨hout b (by simp), hn⟩, fun c hc => ?_⟩
        rw [List.map_cons, List.mem_cons, not_or]
        refine ⟨?_, hout c (by simp [hc])⟩
        rintro rfl
        exact hnew hc

theorem constWord?_inserted {p : Position} {w : ValueId} (hw : s.module.values.Has w) :
    (s.inserted p type i).module.constWord? w = s.module.constWord? w := by
  unfold constWord?
  rw [kindOf_inserted hw]

theorem switch_accepted {default : BlockId} {cases : List (ValueId × BlockId)}
    (hi : s.module.types.Indexed) (hc : ∀ c ∈ cases, s.module.values.Has c.1) : MakesAccepted s (switch v default cases) := by
  unfold MakesAccepted switch
  rw [ends_bind]
  refine ends_expectInteger (fun _ => ?_) trivial
  rw [ends_bind, ends_readModule, ends_bind, ends_ofExcept]
  split
  · rename_i hkeys
    obtain ⟨hs, hn, -⟩ := words_of_checkKeys hkeys
    rw [ends_bind]
    refine ends_void hi fun id t _ _ _ =>
      ends_insert (fun p _ => ⟨_, instruction?_inserted, ?_⟩) trivial
    have hsame : ∀ c ∈ cases, ((s.withTypes t).inserted p id (.switch v default cases)).module.constWord?
        c.1 = s.module.constWord? c.1 := fun c hmem => constWord?_inserted (hc c hmem)
    refine ⟨fun c hmem => ?_, ?_⟩
    · rw [hsame c hmem]
      exact hs c.1 (List.mem_map_of_mem hmem)
    · rw [List.map_congr_left hsame]
      simpa only [List.map_map, Function.comp_def] using hn
  · trivial

/-- An argument is no key. -/
example : ((switch ⟨0⟩ ⟨1⟩ [(⟨0⟩, ⟨1⟩)]).outcome scaled).1 =
    .error (.argument "switch case keys must be integer constants") := by decide +kernel

theorem phi_accepted {incoming : List (BlockId × ValueId)} :
    MakesAccepted s (phi type incoming) := by
  unfold MakesAccepted phi
  rw [ends_bind, ends_readModule, ends_bind, ends_ofExcept]
  split
  · rename_i hc
    exact ends_insert (fun p _ => ⟨_, instruction?_inserted, (blocks_of_checkIncoming hc).1⟩) trivial
  · trivial

theorem call_accepted {callee : FunctionId} {args : List ValueId} :
    MakesAccepted s (call callee args) := by
  unfold MakesAccepted call
  simp only [ends_bind, ends_readModule]
  split
  · trivial
  · rename_i hlive
    split
    · rename_i htakes
      have hlive : s.module.isRemoved callee = false := by simpa using hlive
      split
      · trivial
      · exact ends_insert (fun p _ => ⟨_, instruction?_inserted, hlive, htakes⟩) trivial
    · trivial

theorem shuffle_accepted {lhs rhs mask : ValueId} (hm : s.module.values.Has mask) :
    MakesAccepted s (shuffle lhs rhs mask) := by
  unfold MakesAccepted shuffle
  rw [ends_bind]
  refine ends_sameType (fun _ => ?_) trivial
  rw [ends_bind]
  refine ends_expectKind (fun _ => ?_) trivial
  rw [ends_bind]
  refine ends_expectKind (fun _ => ?_) trivial
  simp only [ends_bind, ends_readModule]
  split
  · split
    · rename_i hconst
      rw [ends_bind, ends_onTypes]
      refine Ends.of_forall (fun id t => ?_) fun _ => trivial
      refine ends_insert (fun p _ => ⟨_, instruction?_inserted, ?_⟩) trivial
      have hk : ((s.withTypes t).inserted p id (.shuffle lhs rhs mask)).module.kindOf mask =
          s.module.kindOf mask := kindOf_inserted hm
      change ValueKind.isConstant _ = true
      rw [hk]
      exact hconst
    · trivial
  · trivial

/-- Every emission makes an instruction that is accepted, or one that its types decide about. -/
theorem emission_makes {e : Emission} (hi : s.module.types.Indexed) (he : e.Valid s.module) :
    MakesAccepted s e.emit ∨ Makes e.kept? (·.isTypical) e.emit := by
  have hv := he.values
  cases e with
  | switch v default cases =>
    exact .inl (switch_accepted hi fun c hc => hv c.1 (by
      simp only [Emission.values, List.mem_cons, List.mem_map]
      exact .inr ⟨c, hc, rfl⟩))
  | phi type incoming => exact .inl phi_accepted
  | call callee args => exact .inl call_accepted
  | shuffle lhs rhs mask => exact .inl (shuffle_accepted (hv mask (by simp [Emission.values])))
  | binary op lhs rhs => exact .inr (binary_makes op lhs rhs rfl)
  | neg v => exact .inr (Makes.of_bind fun _ => Makes.of_bind fun _ => binary_makes _ _ _ rfl)
  | not v => exact .inr (Makes.of_bind fun _ => Makes.of_bind fun _ => binary_makes _ _ _ rfl)
  | fneg v => exact .inr (Makes.of_bind fun _ => Makes.of_bind fun _ => binary_makes _ _ _ rfl)
  | icmp pred lhs rhs =>
    exact .inr (Makes.of_bind fun _ => Makes.of_bind fun _ => Makes.guard fun _ =>
      Makes.of_bind fun _ => insert_makes rfl)
  | fcmp pred lhs rhs =>
    exact .inr (Makes.of_bind fun _ => Makes.of_bind fun _ => Makes.guard fun _ =>
      Makes.of_bind fun _ => insert_makes rfl)
  | cast op v type => exact .inr (cast_makes op v type rfl)
  | intCast v type isSigned => exact .inr (intCast_makes v type isSigned fun _ => rfl)
  | fpCast v type => exact .inr (fpCast_makes v type fun _ => rfl)
  | alloca type => exact .inr (allocate_makes type none rfl)
  | arrayAlloca type count => exact .inr (Makes.of_bind fun _ => allocate_makes type _ rfl)
  | load ptr =>
    exact .inr (Makes.of_bind fun _ => Makes.of_bind fun _ => Makes.guard fun _ => insert_makes rfl)
  | store v ptr =>
    exact .inr (Makes.of_bind fun _ => Makes.of_bind fun _ => Makes.guard fun _ =>
      Makes.of_bind fun _ => insert_makes rfl)
  | elementPtr base indices => exact .inr (elementPtr_makes base indices rfl)
  | structPtr base field =>
    exact .inr (Makes.of_bind fun _ => Makes.of_bind fun _ => Makes.of_bind fun _ =>
      elementPtr_makes _ _ rfl)
  | br dest => exact .inr (Makes.of_bind fun _ => insert_makes rfl)
  | condBr cond thenDest elseDest => exact .inr (condBr_makes cond thenDest elseDest rfl)
  | ret v =>
    exact .inr (Makes.of_bind fun _ => Makes.of_bind fun _ => Makes.guard fun _ =>
      Makes.of_bind fun _ => insert_makes rfl)
  | retVoid =>
    exact .inr (Makes.of_bind fun _ => Makes.of_bind fun _ => Makes.of_bind fun _ =>
      Makes.guard fun _ => insert_makes rfl)
  | unreachable => exact .inr (Makes.of_bind fun _ => insert_makes rfl)
  | extractValue aggregate index =>
    exact .inr (Makes.of_bind fun _ => Makes.of_bind fun _ => insert_makes rfl)
  | insertValue aggregate element index =>
    exact .inr (Makes.of_bind fun _ => Makes.of_bind fun _ => Makes.guard fun _ => insert_makes rfl)
  | extractElement vector index =>
    exact .inr (Makes.of_bind fun _ => Makes.of_bind fun _ => Makes.of_bind fun _ =>
      insert_makes rfl)
  | insertElement vector element index =>
    exact .inr (Makes.of_bind fun _ => Makes.of_bind fun _ => Makes.of_bind fun _ =>
      Makes.guard fun _ => insert_makes rfl)
  | select cond thenValue elseValue => exact .inr (select_makes cond thenValue elseValue rfl)

/-- An instruction that its types decide about is accepted where it was made. -/
theorem Emitted.accepts {s' : Builder} (he : Emitted s v s') (hs : s.Sane)
    (hi : s'.module.instruction? v = some i) (ht : i.isTypical) : s'.module.Accepts v i := by
  obtain ⟨hc, o', ho', hplaces⟩ := he.reorders hs.cursor hs.ordered
  obtain ⟨hblocks, q, hq, hcode⟩ := hplaces.lists hs.ordered
  obtain ⟨-, m, p, type, j, hm, hp, -, htype, hk, hret, hderives, rfl, hmodule⟩ := he
  obtain rfl := Option.some_inj.mp (hp.symm.trans hq)
  have hx : m.Extends s'.module := by
    rw [hmodule]
    exact (extends_pushed type _).trans (extends_linked _ p _)
  have hkind : s'.module.kindOf ⟨m.values.size⟩ = .instruction j := by
    rw [hmodule, kindOf_linked, kindOf, value_pushed_new]
  obtain rfl : j = i := by
    rw [instruction?, hkind] at hi
    exact Option.some_inj.mp hi
  cases j with
  | elementPtr base indices =>
    have htyped : s'.module.typeOf ⟨m.values.size⟩ = type := by
      rw [hmodule, (extends_linked _ p _).typeOf_eq (has_pushed_new m type _), typeOf_pushed_new]
    change s'.module.Derives base indices _
    rw [htyped]
    exact derives_extends hx (hk.1 base (by simp [Instruction.operands])) (hderives _ _ rfl)
  | ret value =>
    intro b f hb hf
    rw [ho'.blockOf?_eq_some] at hb
    rw [ho'.functionOf?_eq_some, hblocks] at hf
    obtain hold | ⟨-, rfl⟩ := hcode b _ hb
    · exact (hplaces.1 ((hs.ordered.code.holds b).has _ hold)).elim
    · obtain ⟨g, hg, hfits⟩ := hret value rfl
      have hg' := (Quieted.ordered hm.quieted hs.ordered).functionOf?_eq_some.mp hg
      obtain rfl : g = f := hs.ordered.blocks.disjoint (k := p.block) hg' hf
      have hm' : m.Sound := Changed.sound (Quieted.changed hm.quieted) hs.sound
      have hfun := (hm.extends.functions _ (hs.ordered.hasFunction_of_mem hf)).1
      have hresult := hx.resultFits hm' hfun (resultFits_map hfits)
      cases value with
      | none => exact hresult
      | some w =>
        have hw : s'.module.typeOf w = m.typeOf w :=
          hx.typeOf_eq (hk.1 w (by simp [Instruction.operands]))
        exact hw.trans hresult
  | switch _ _ _ | phi _ | call _ _ | shuffle _ _ _ => cases ht
  | _ => trivial

/-- Every instruction that an emission makes is legal. -/
theorem emission_legal {e : Emission} (hs : s.Sane) (he : e.Valid s.module) :
    Ends e.emit s (fun v s' => (s' = s ∧ e.kept? = some v) ∨ Emitted s v s' ∧
      ∃ i, s'.module.instruction? v = some i ∧
        s'.module.InstructionFits (s'.module.typeOf v) i ∧ s'.module.Accepts v i) (Prepared s) := by
  have hends := emission_emits hs.sound hs.ordered he
  have fits {s' : Builder} {v : ValueId} {i : Instruction} (hemit : Emitted s v s')
      (hi : s'.module.instruction? v = some i) :
      s'.module.InstructionFits (s'.module.typeOf v) i :=
    ((Changed.sound (hemit.reorders hs.cursor hs.ordered).1 hs.sound)).instructionFits hi
  obtain hmakes | hmakes := emission_makes hs.sound.types.indexed he
  · refine (hends.and hmakes).mono (fun v s' hv => ?_) fun _ hp => hp.1
    obtain ⟨hkept | hemit, i, hi, ha⟩ := hv
    · exact .inl hkept
    · exact .inr ⟨hemit, i, hi, fits hemit hi, ha⟩
  · refine (hends.and (hmakes s)).mono (fun v s' hv => ?_) fun _ hp => hp.1
    obtain ⟨hkept | hemit, hmade⟩ := hv
    · exact .inl hkept
    · obtain ⟨-, _, -, hplaces⟩ := hemit.reorders hs.cursor hs.ordered
      have hkept : e.kept? ≠ some v := fun hk => hplaces.1 (he.values v (by
        cases e <;> simp_all [Emission.kept?, Emission.values]))
      obtain ⟨i, hi, ht⟩ := hmade.resolve_left hkept
      exact .inr ⟨hemit, i, hi, fits hemit hi, hemit.accepts hs hi ht⟩

end Builder
/-- A program that goes one way for the key of a switch, and the same way otherwise. -/
def keying : List Call :=
  [.types (.ofType (.int 32)),
    .symbol (.declareFunction "choose" ⟨0⟩ [⟨0⟩] false),
    .layout (.appendBlock ⟨0⟩ "entry"),
    .layout (.appendBlock ⟨0⟩ "exit"),
    .constant (.integer ⟨0⟩ 7),
    .setCursor (some { block := ⟨0⟩ }),
    .emission (.switch ⟨0⟩ ⟨1⟩ [(⟨1⟩, ⟨1⟩)]),
    .setCursor (some { block := ⟨1⟩ }),
    .emission (.ret ⟨0⟩)]

/-- The builder after those calls. -/
def keyed : Builder := Builder.replay { module := { name := "keying" } } keying

theorem reachable_keyed : keyed.Reachable :=
  Builder.Replays.reachable (by decide +kernel) (Builder.reachable_empty "keying")

theorem keyed_switch :
    keyed.module.instruction? ⟨2⟩ = some (.switch ⟨0⟩ ⟨1⟩ [(⟨1⟩, ⟨1⟩)]) := by decide +kernel

theorem legal_keyed : keyed.module.Legal := by
  intro v i hi
  have hsound := reachable_keyed.sane.sound
  refine ⟨hsound.instructionFits hi, ?_⟩
  have hhas : keyed.module.values.Has v := has_of_kindOf (by simp [kindOf_of_instruction? hi])
  have hsize : keyed.module.values.size = 4 := by decide +kernel
  obtain ⟨n⟩ := v
  obtain rfl | rfl | rfl | rfl : n = 0 ∨ n = 1 ∨ n = 2 ∨ n = 3 := by
    have hn : n < 4 := hsize ▸ hhas
    omega
  · have hnone : keyed.module.instruction? ⟨0⟩ = none := by decide +kernel
    simp [hnone] at hi
  · have hnone : keyed.module.instruction? ⟨1⟩ = none := by decide +kernel
    simp [hnone] at hi
  · obtain rfl := Option.some_inj.mp (keyed_switch.symm.trans hi)
    exact ⟨by decide +kernel, by decide +kernel⟩
  · have hret : keyed.module.instruction? ⟨3⟩ = some (.ret (some ⟨0⟩)) := by decide +kernel
    obtain rfl := Option.some_inj.mp (hret.symm.trans hi)
    intro b f hb hf
    have hb : some b = some ⟨1⟩ := hb.symm.trans (by decide +kernel)
    cases hb
    have hf : some f = some ⟨0⟩ := hf.symm.trans (by decide +kernel)
    cases hf
    exact (by decide +kernel :
      keyed.module.typeOf ⟨0⟩ = keyed.module.resultType ⟨0⟩)

/-- With a constant in the place of its argument, the program stays legal. -/
theorem keyed_settled : keyed.module.Legal ∧
    keyed.module.typeOf ⟨0⟩ = keyed.module.typeOf ⟨1⟩ ∧
    keyed.module.isConstant ⟨0⟩ = false ∧
    ((replaceAllUses ⟨0⟩ ⟨1⟩).outcome keyed.module).2.Legal := by
  have ht : keyed.module.typeOf ⟨0⟩ = keyed.module.typeOf ⟨1⟩ := by decide +kernel
  have ho : keyed.module.isConstant ⟨0⟩ = false := by decide +kernel
  obtain ⟨m', houtcome, -, -, hlegal⟩ := replaceAllUses_legal legal_keyed ht
  rw [houtcome]
  exact ⟨legal_keyed, ht, ho, hlegal ho⟩

/-- With its argument in the place of the key, it has a switch that could not be emitted. -/
theorem keyed_unsettled : keyed.Reachable ∧ keyed.module.Legal ∧
    keyed.module.typeOf ⟨1⟩ = keyed.module.typeOf ⟨0⟩ ∧
    ((replaceAllUses ⟨1⟩ ⟨0⟩).outcome keyed.module).1.toOption = some 1 ∧
    ¬ ((replaceAllUses ⟨1⟩ ⟨0⟩).outcome keyed.module).2.Legal := by
  refine ⟨reachable_keyed, legal_keyed, by decide +kernel, by decide +kernel, fun hlegal => ?_⟩
  have hswitch : ((replaceAllUses ⟨1⟩ ⟨0⟩).outcome keyed.module).2.instruction? ⟨2⟩ =
      some (.switch ⟨0⟩ ⟨1⟩ [(⟨0⟩, ⟨1⟩)]) := by decide +kernel
  obtain ⟨-, hkeys, -⟩ := hlegal ⟨2⟩ _ hswitch
  have hnone : ((replaceAllUses ⟨1⟩ ⟨0⟩).outcome keyed.module).2.constWord? ⟨0⟩ = none := by
    decide +kernel
  simpa [hnone] using hkeys (⟨0⟩, ⟨1⟩) (by simp)

end SsaKit
