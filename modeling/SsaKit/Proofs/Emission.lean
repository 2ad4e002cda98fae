import SsaKit.Builder.Aggregate
import SsaKit.Builder.Control
import SsaKit.Builder.Memory
import SsaKit.Proofs.Layout

/-! What an emission does: it prepares types and constants, then makes one typed instruction at the
cursor. A failed one stops after preparations. -/
namespace SsaKit

/-- The requests to make an instruction. -/
inductive Emission where
  | binary (op : BinaryOp) (lhs rhs : ValueId)
  | neg (value : ValueId)
  | not (value : ValueId)
  | fneg (value : ValueId)
  | icmp (pred : IntPredicate) (lhs rhs : ValueId)
  | fcmp (pred : FloatPredicate) (lhs rhs : ValueId)
  | cast (op : CastOp) (value : ValueId) (type : TypeId)
  | intCast (value : ValueId) (type : TypeId) (isSigned : Bool)
  | fpCast (value : ValueId) (type : TypeId)
  | alloca (type : TypeId)
  | arrayAlloca (type : TypeId) (count : ValueId)
  | load (ptr : ValueId)
  | store (value ptr : ValueId)
  | elementPtr (base : ValueId) (indices : List ValueId)
  | structPtr (base : ValueId) (field : Nat)
  | br (dest : BlockId)
  | condBr (cond : ValueId) (thenDest elseDest : BlockId)
  | switch (value : ValueId) (default : BlockId) (cases : List (ValueId × BlockId))
  | phi (type : TypeId) (incoming : List (BlockId × ValueId))
  | call (callee : FunctionId) (args : List ValueId)
  | ret (value : ValueId)
  | retVoid
  | unreachable
  | extractValue (aggregate : ValueId) (index : Nat)
  | insertValue (aggregate element : ValueId) (index : Nat)
  | extractElement (vector index : ValueId)
  | insertElement (vector element index : ValueId)
  | shuffle (lhs rhs mask : ValueId)
  | select (cond thenValue elseValue : ValueId)

namespace Emission

def emit : Emission → Emit ValueId
  | binary op lhs rhs => Builder.binary op lhs rhs
  | neg value => Builder.neg value
  | not value => Builder.not value
  | fneg value => Builder.fneg value
  | icmp pred lhs rhs => Builder.icmp pred lhs rhs
  | fcmp pred lhs rhs => Builder.fcmp pred lhs rhs
  | cast op value type => Builder.cast op value type
  | intCast value type isSigned => Builder.intCast value type isSigned
  | fpCast value type => Builder.fpCast value type
  | alloca type => Builder.alloca type
  | arrayAlloca type count => Builder.arrayAlloca type count
  | load ptr => Builder.load ptr
  | store value ptr => Builder.store value ptr
  | elementPtr base indices => Builder.elementPtr base indices
  | structPtr base field => Builder.structPtr base field
  | br dest => Builder.br dest
  | condBr cond thenDest elseDest => Builder.condBr cond thenDest elseDest
  | switch value default cases => Builder.switch value default cases
  | phi type incoming => Builder.phi type incoming
  | call callee args => Builder.call callee args
  | ret value => Builder.ret value
  | retVoid => Builder.retVoid
  | unreachable => Builder.unreachable
  | extractValue aggregate index => Builder.extractValue aggregate index
  | insertValue aggregate element index => Builder.insertValue aggregate element index
  | extractElement vector index => Builder.extractElement vector index
  | insertElement vector element index => Builder.insertElement vector element index
  | shuffle lhs rhs mask => Builder.shuffle lhs rhs mask
  | select cond thenValue elseValue => Builder.select cond thenValue elseValue

/-- The values that a request mentions. -/
def values : Emission → List ValueId
  | binary _ lhs rhs | icmp _ lhs rhs | fcmp _ lhs rhs => [lhs, rhs]
  | neg value | not value | fneg value | cast _ value _ | intCast value _ _ | fpCast value _ =>
    [value]
  | alloca _ | br _ | retVoid | unreachable => []
  | arrayAlloca _ count => [count]
  | load ptr => [ptr]
  | store value ptr => [value, ptr]
  | elementPtr base indices => base :: indices
  | structPtr base _ => [base]
  | condBr cond _ _ => [cond]
  | switch value _ cases => value :: cases.map (·.1)
  | phi _ incoming => incoming.map (·.2)
  | call _ args => args
  | ret value => [value]
  | extractValue aggregate _ => [aggregate]
  | insertValue aggregate element _ => [aggregate, element]
  | extractElement vector index => [vector, index]
  | insertElement vector element index => [vector, element, index]
  | shuffle lhs rhs mask => [lhs, rhs, mask]
  | select cond thenValue elseValue => [cond, thenValue, elseValue]

def types : Emission → List TypeId
  | cast _ _ type | intCast _ type _ | fpCast _ type | alloca type | arrayAlloca type _
  | phi type _ => [type]
  | _ => []

def blocks : Emission → List BlockId
  | br dest => [dest]
  | condBr _ thenDest elseDest => [thenDest, elseDest]
  | switch _ default cases => default :: cases.map (·.2)
  | phi _ incoming => incoming.map (·.1)
  | _ => []

def callees : Emission → List FunctionId
  | call callee _ => [callee]
  | _ => []

/-- What a request hands back when there is nothing to make: a cast to the same width. -/
def kept? : Emission → Option ValueId
  | intCast value _ _ | fpCast value _ => some value
  | _ => none

/-- Every handle of the request is one of the module. -/
structure Valid (m : Module) (e : Emission) : Prop where
  values : ∀ v ∈ e.values, m.values.Has v
  types : ∀ t ∈ e.types, m.types.contains t
  blocks : ∀ b ∈ e.blocks, m.blocks.Has b
  callees : ∀ f ∈ e.callees, m.HasFunction f

end Emission

/-- An instruction of which nothing is asked but that it fits its type. -/
@[simp]
def Instruction.isOrdinary : Instruction → Bool
  | .ret _ | .elementPtr _ _ => false
  | _ => true

namespace Module

/-- A value of a return fits the result of a function. -/
def ReturnFits (m : Module) (f : FunctionId) : Option ValueId → Prop
  | some v => m.typeOf v = m.resultType f
  | none => m.types.contains (m.resultType f) ∧ m.types.entry (m.resultType f) = .void

/-- The indices behind the first one lead from what the base points to to what a type points to. -/
def Derives (m : Module) (base : ValueId) (indices : List ValueId) (type : TypeId) : Prop :=
  ∃ pointee target, m.types.entry (m.typeOf base) = .pointer pointee ∧
    (indices.drop 1).foldlM (Builder.stepInto m) pointee = .ok target ∧
    m.types.entry type = .pointer target

/-- A value linked at a position. -/
def linked (m : Module) (p : Position) (v : ValueId) : Module :=
  m.withCode p.block (match p.before with
    | some anchor => (m.block p.block).chain.insertBefore m.values p.block anchor v
    | none => (m.block p.block).chain.pushBack m.values p.block v)

theorem kindOf_linked (m : Module) (p : Position) (v w : ValueId) :
    (m.linked p v).kindOf w = m.kindOf w := by
  unfold linked
  cases p.before <;> simp [kindOf, value_def, withCode]

theorem extends_linked (m : Module) (p : Position) (v : ValueId) : m.Extends (m.linked p v) := by
  unfold linked
  cases p.before with
  | some anchor =>
    exact extends_withCode Chain.size_insertBefore fun _ => Chain.content?_insertBefore
  | none => exact extends_withCode Chain.size_pushBack fun _ => Chain.content?_pushBack

end Module

namespace Builder

open Attempt SsaKit.Module

variable {s s' t : Builder} {v lhs rhs : ValueId} {type : TypeId} {i : Instruction}
  {ok : ValueId → Builder → Prop} {failed : Builder → Prop}

/-- The cursor stays, and the module gains types and constants. -/
def Prepared (s s' : Builder) : Prop :=
  s'.cursor = s.cursor ∧ Module.Prepared s.module s'.module

/-- After preparations, one typed instruction was made at the cursor. -/
def Emitted (s : Builder) (v : ValueId) (s' : Builder) : Prop :=
  s'.cursor = s.cursor ∧ ∃ m p type i, Module.Prepared s.module m ∧ s.cursor = some p ∧
    (∀ anchor ∈ p.before, m.blockOf? anchor = some p.block) ∧ m.types.contains type ∧
    m.KindFits type (.instruction i) ∧
    (∀ r, i = .ret r → ∃ f, m.functionOf? p.block = some f ∧ m.ReturnFits f r) ∧
    (∀ base indices, i = .elementPtr base indices → m.Derives base indices type) ∧
    v = ⟨m.values.size⟩ ∧ s'.module = (m.pushed type (.instruction i)).linked p v

def Emits (s : Builder) (step : Emit ValueId) : Prop := Ends step s (Emitted s) (Prepared s)

theorem Prepared.refl (s : Builder) : Prepared s s := ⟨rfl, .refl⟩

theorem Prepared.trans (h : Prepared s t) (h' : Prepared t s') : Prepared s s' :=
  ⟨h'.1.trans h.1, h.2.trans h'.2⟩

theorem Emits.of_prepared {step : Emit ValueId} (hp : Prepared s t) (h : Emits t step) :
    Ends step t (Emitted s) (Prepared s) := by
  refine h.mono (fun v s' he => ?_) fun s' hs => hp.trans hs
  obtain ⟨hcur, m, p, type, i, hm, hc, hrest⟩ := he
  exact ⟨hcur.trans hp.1, m, p, type, i, hp.2.trans hm, hp.1 ▸ hc, hrest⟩

/-! ### Rules for the checks -/

@[simp] theorem ends_readModule {ok : Module → Builder → Prop} :
    Ends readModule s ok failed ↔ ok s.module s := .rfl

theorem ends_onModule {α : Type} {step : Edit α} {ok : α → Builder → Prop} :
    Ends (onModule step) s ok failed ↔ Ends step s.module
      (fun a m => ok a { s with module := m }) (fun m => failed { s with module := m }) :=
  ends_onPart _ _ _

/-- The same module and cursor with a larger table of types. -/
def withTypes (s : Builder) (t : TypeTable) : Builder :=
  { s with module := { s.module with types := t } }

theorem ends_onTypes {α : Type} {step : Attempt TypeTable α} {ok : α → Builder → Prop} :
    Ends (onTypes step) s ok failed ↔ Ends step s.module.types
      (fun a t => ok a (s.withTypes t)) (fun t => failed (s.withTypes t)) := by
  unfold onTypes
  rw [ends_onModule, Module.ends_onTypes]
  rfl

theorem prepared_withTypes {t : TypeTable} (h : s.module.types.Grown t) :
    Prepared s (s.withTypes t) :=
  ⟨rfl, prepared_types h⟩

theorem ends_sameType {opcode : String} {ok : TypeId → Builder → Prop}
    (h : s.module.typeOf lhs = s.module.typeOf rhs → ok (s.module.typeOf lhs) s)
    (hfailed : failed s) : Ends (sameType opcode lhs rhs) s ok failed := by
  unfold sameType
  simp only [ends_bind, ends_readModule]
  split
  · rename_i he
    exact h he
  · exact hfailed

theorem ends_expectInteger {opcode : String} {ok : TypeId → Builder → Prop}
    (h : s.module.types.kind (s.module.typeOf v) = .integer → ok (s.module.typeOf v) s)
    (hfailed : failed s) : Ends (expectInteger opcode v) s ok failed := by
  unfold expectInteger
  simp only [ends_bind, ends_readModule]
  split
  · rename_i hk
    exact h hk
  · exact hfailed

theorem ends_expectKind {opcode : String} {kind : Ty.Kind} {ok : TypeId → Builder → Prop}
    (h : s.module.types.kind (s.module.typeOf v) = kind → ok (s.module.typeOf v) s)
    (hfailed : failed s) : Ends (expectKind opcode v kind) s ok failed := by
  unfold expectKind
  simp only [ends_bind, ends_readModule]
  split
  · rename_i hk
    exact h hk
  · exact hfailed

theorem ends_boolLike {ok : TypeId → Builder → Prop} (hi : s.module.types.Indexed)
    (h : ∀ id t, s.module.types.Grown t → t.contains id → t.Truths type id →
      ok id (s.withTypes t))
    (hfailed : ∀ s', Prepared s s' → failed s') : Ends (boolLike type) s ok failed := by
  unfold boolLike
  rw [ends_bind, ends_onTypes]
  refine TypeTable.ends_intern hi rfl rfl ⟨by decide, by decide⟩ fun bit t hg hb hbit => ?_
  simp only [ends_bind, ends_readModule]
  have hx := TypeTable.extends_of_grown hg
  split
  · rename_i element length he
    rw [ends_onTypes]
    refine TypeTable.ends_vector (TypeTable.indexed_of_grown hg hi) (fun id u hu hid hv => ?_)
      (hfailed _ (prepared_withTypes hg))
    have hx' := TypeTable.extends_of_grown hu
    exact h id u (hg.trans hu) hid (.inr ⟨element, bit, length, hx'.entry_of he (by simp) rfl, hv,
      hx'.entry_of hbit (by simp) rfl⟩)
  · rename_i hn
    refine h bit t hg hb (.inl ⟨fun hk => ?_, hbit⟩)
    unfold TypeTable.kind at hk
    cases he : t.entry type with
    | vector element length => exact hn element length he
    | _ => simp [he, Ty.kind] at hk

theorem ends_void {ok : TypeId → Builder → Prop} (hi : s.module.types.Indexed)
    (h : ∀ id t, s.module.types.Grown t → t.contains id → t.entry id = .void →
      ok id (s.withTypes t)) :
    Ends void s ok failed := by
  unfold void
  rw [ends_onTypes]
  exact TypeTable.ends_void hi h

/-- A typed instruction is made at the cursor, unless there is none or its anchor has moved. -/
theorem insert_emits (ht : s.module.types.contains type)
    (hk : s.module.KindFits type (.instruction i))
    (hr : ∀ r, i = .ret r → ∀ p ∈ s.cursor, ∃ f, s.module.functionOf? p.block = some f ∧
      s.module.ReturnFits f r)
    (hd : ∀ base indices, i = .elementPtr base indices → s.module.Derives base indices type) :
    Emits s (insert type i) := by
  unfold Emits insert
  simp only [ends_bind, ends_get]
  split
  · exact .refl s
  · rename_i p hp
    have emitted (ha : ∀ anchor ∈ p.before, s.module.blockOf? anchor = some p.block) :
        Ends (onModule (insertInstruction p.block p.before type i)) s (Emitted s)
          (Prepared s) := by
      rw [ends_onModule]
      unfold insertInstruction linkInstruction Edit.relink
      simp only [ends_bind, ends_modify, ends_pure]
      refine ⟨rfl, s.module, p, type, i, .refl, hp, ha, ht, hk, fun r hi => hr r hi p hp, hd, rfl, ?_⟩
      unfold linked
      cases p.before <;> rfl
    split
    · rename_i anchor hb
      split
      · rename_i ha
        exact emitted fun a hmem => by
          obtain rfl : anchor = a := by simpa [hb] using hmem
          exact ha
      · exact .refl s
    · rename_i hn
      exact emitted fun a hmem => (hn a hmem).elim

/-- An ordinary instruction needs only to fit its type. -/
theorem insert_emits_of (ht : s.module.types.contains type)
    (hk : s.module.KindFits type (.instruction i)) (hi : i.isOrdinary) :
    Emits s (insert type i) := by
  refine insert_emits ht hk (fun r he => ?_) fun base indices he => ?_
  · simp [he] at hi
  · simp [he] at hi

end Builder
end SsaKit
