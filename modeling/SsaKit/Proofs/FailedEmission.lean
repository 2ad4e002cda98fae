import SsaKit.Proofs.Framing
import SsaKit.Proofs.StableTypes

/-! An emission that fails makes no instruction. All that it may leave behind are types and constants
that it asked for on the way; the cursor, the code and the symbols are as they were. -/
namespace SsaKit

open Attempt

/-! ### Steps that fail within a preorder -/

namespace Attempt

variable {σ α β : Type} {R : σ → σ → Prop}

/-- The state that a step leaves behind when it fails is related to the one before it. -/
def FailsWithin (R : σ → σ → Prop) (step : Attempt σ α) : Prop :=
  ∀ s, Ends step s (fun _ _ => True) (R s)

theorem Stays.failsWithin {step : Attempt σ α} (h : Stays R step) : FailsWithin R step :=
  fun s => (h s).mono (fun _ _ _ => trivial) fun _ ht => ht

theorem FailsWithin.after [IsTrans σ R] {step : Attempt σ β} {next : β → Attempt σ α}
    (h : Stays R step) (hn : ∀ b, FailsWithin R (next b)) : FailsWithin R (step >>= next) := by
  intro s
  rw [ends_bind]
  refine (h s).mono (fun b t ht => ?_) fun _ ht => ht
  exact (hn b t).mono (fun _ _ _ => trivial) fun _ hu => IsTrans.trans _ _ _ ht hu

/-- What stands behind a failure is not reached. -/
theorem failsWithin_throw [Std.Refl R] (e : Error) {next : β → Attempt σ α} :
    FailsWithin R (throw e >>= next) := fun s => Std.Refl.refl s

theorem FailsWithin.guard [Std.Refl R] {p : Prop} [Decidable p] {e : Error}
    {next : PUnit → Attempt σ α} (h : ∀ r, FailsWithin R (next r)) :
    FailsWithin R (if p then next ⟨⟩ else throw e >>= next) := by
  split
  · exact h _
  · exact failsWithin_throw e

theorem stays_ofExcept [Std.Refl R] (r : Except Error α) :
    Stays R (Attempt.ofExcept r : Attempt σ α) := by
  cases r with
  | ok a => exact stays_pure a
  | error e => exact stays_throw e

end Attempt

/-! ### More types and constants -/

namespace TypeTable

instance : IsTrans TypeTable Keeps := ⟨fun _ _ _ h h' id hid =>
  ⟨(h' id (h id hid).1).1, (h' id (h id hid).1).2.trans (h id hid).2⟩⟩

end TypeTable

namespace Module

variable {m m' : Module}

/-- The second module has all of the first one, and nothing more than further types and constants
that nobody has named or linked. -/
structure Stocks (m m' : Module) : Prop where
  name : m'.name = m.name
  types : m.types.Keeps m'.types
  values : ∃ new : List (TypeId × ValueKind),
    (∀ c ∈ new, c.2.isConstant ∧ c.2.global? = none) ∧
      m'.values.toList = m.values.toList ++
        new.map fun c => { content := { type := c.1, kind := c.2 } }
  blocks : m'.blocks = m.blocks
  functions : m'.functions = m.functions
  functionNames : m'.functionNames = m.functionNames
  globals : m'.globals = m.globals
  globalNames : m'.globalNames = m.globalNames

instance : Std.Refl Stocks :=
  ⟨fun m => ⟨rfl, .refl _, ⟨[], by simp, by simp⟩, rfl, rfl, rfl, rfl, rfl⟩⟩

instance : IsTrans Module Stocks := ⟨fun _ _ _ h h' => {
  name := h'.name.trans h.name
  types := IsTrans.trans _ _ _ h.types h'.types
  values := by
    obtain ⟨new, hnew, hv⟩ := h.values
    obtain ⟨new', hnew', hv'⟩ := h'.values
    refine ⟨new ++ new', fun c hc => (List.mem_append.mp hc).elim (hnew c) (hnew' c), ?_⟩
    rw [hv', hv, List.map_append, List.append_assoc]
  blocks := h'.blocks.trans h.blocks
  functions := h'.functions.trans h.functions
  functionNames := h'.functionNames.trans h.functionNames
  globals := h'.globals.trans h.globals
  globalNames := h'.globalNames.trans h.globalNames }⟩

theorem stocks_onTypes {α : Type} {step : Attempt TypeTable α} (h : Stays TypeTable.Keeps step) :
    Stays Stocks (Edit.onTypes step) :=
  stays_onPart h fun _ _ ht => ⟨rfl, ht, ⟨[], by simp, by simp⟩, rfl, rfl, rfl, rfl, rfl⟩

theorem stocks_pushValue {kind : ValueKind} (type : TypeId) (hc : kind.isConstant)
    (hg : kind.global? = none) : Stays Stocks (Edit.pushValue type kind) :=
  stays_modifyGet fun m => ⟨rfl, .refl _, ⟨[(type, kind)], by simp [hc, hg], by simp⟩, rfl, rfl, rfl,
    rfl, rfl⟩

theorem stocks_expectKind (type : TypeId) (kind : Ty.Kind) (what : String) :
    Stays Stocks (expectKind type kind what) := by
  refine stays_get.bind fun m => ?_
  split
  · exact stays_pure _
  · exact stays_throw _

theorem stocks_constWord (type : TypeId) (word : UInt64) : Stays Stocks (constWord type word) := by
  have hpush (word : UInt64) : Stays Stocks (Edit.pushValue type (.int word)) :=
    stocks_pushValue type rfl rfl
  refine (stocks_expectKind type _ _).bind fun _ => stays_get.bind fun m => ?_
  dsimp only
  split
  · exact (stays_throw _).bind fun _ => hpush _
  · exact hpush _

theorem stocks_constFloat (type : TypeId) (number : Double) :
    Stays Stocks (constFloat type number) :=
  (stocks_expectKind type _ _).bind fun _ => stays_get.bind fun _ =>
    stocks_pushValue type rfl rfl

end Module

namespace Builder

open SsaKit.Module

variable {type : TypeId} {v : ValueId}

/-- The cursor is where it was, and the module has only gained types and constants. -/
structure Stocks (s s' : Builder) : Prop where
  cursor : s'.cursor = s.cursor
  module : s.module.Stocks s'.module

instance : Std.Refl Stocks := ⟨fun _ => ⟨rfl, Std.Refl.refl _⟩⟩

instance : IsTrans Builder Stocks := ⟨fun _ _ _ h h' =>
  ⟨h'.cursor.trans h.cursor, IsTrans.trans _ _ _ h.module h'.module⟩⟩

/-! ### Checks -/

theorem stocks_readModule : Stays Stocks readModule := stays_get.bind fun _ => stays_pure _

theorem stocks_onModule {α : Type} {step : Edit α} (h : Stays Module.Stocks step) :
    Stays Stocks (onModule step) :=
  stays_onPart h fun _ _ hm => ⟨rfl, hm⟩

theorem stocks_intern (ty : Ty) : Stays Stocks (onTypes (TypeTable.intern ty)) :=
  stocks_onModule (stocks_onTypes fun t => TypeTable.intern_keeps t ty)

theorem stocks_vector (element : TypeId) (length : Nat) :
    Stays Stocks (onTypes (TypeTable.vector element length)) :=
  stocks_onModule (stocks_onTypes fun t => TypeTable.ofTy_keeps t (.vector element length))

theorem stocks_sameType (opcode : String) (lhs rhs : ValueId) :
    Stays Stocks (sameType opcode lhs rhs) :=
  stocks_readModule.bind fun _ => Stays.guard fun _ => stays_pure _

theorem stocks_expectInteger (opcode : String) (v : ValueId) :
    Stays Stocks (expectInteger opcode v) :=
  stocks_readModule.bind fun _ => Stays.guard fun _ => stays_pure _

theorem stocks_expectOperand (opcode : String) (v : ValueId) (kind : Ty.Kind) :
    Stays Stocks (Builder.expectKind opcode v kind) :=
  stocks_readModule.bind fun _ => Stays.guard fun _ => stays_pure _

theorem stocks_boolLike (type : TypeId) : Stays Stocks (boolLike type) := by
  refine (stocks_intern _).bind fun bit => stocks_readModule.bind fun m => ?_
  split
  · exact stocks_vector bit _
  · exact stays_pure bit

theorem stocks_currentFunction (opcode : String) : Stays Stocks (currentFunction opcode) := by
  refine stays_get.bind fun b => ?_
  split
  · exact stays_pure _
  · exact stays_throw _

/-! ### Emissions -/

/-- What is made at the cursor is made without failing; before that nothing is done at all. -/
theorem insert_failsWithin (type : TypeId) (i : Instruction) : FailsWithin Stocks (insert type i) := by
  intro s
  have hmade (p : Position) : Ends (onModule (insertInstruction p.block p.before type i)) s
      (fun _ _ => True) (Stocks s) := trivial
  unfold insert
  simp only [ends_bind, ends_get]
  split
  · exact Std.Refl.refl s
  · split
    · split
      · exact hmade _
      · exact Std.Refl.refl s
    · exact hmade _

section Arithmetic

theorem binary_failsWithin (op : BinaryOp) (lhs rhs : ValueId) :
    FailsWithin Stocks (binary op lhs rhs) :=
  .after (stocks_sameType _ _ _) fun _ => .after stocks_readModule fun _ =>
    FailsWithin.guard fun _ => insert_failsWithin _ _

theorem neg_failsWithin (v : ValueId) : FailsWithin Stocks (neg v) :=
  .after (stocks_expectInteger _ v) fun _ =>
    .after (stocks_onModule (stocks_constWord _ _)) fun zero => binary_failsWithin .sub zero v

theorem not_failsWithin (v : ValueId) : FailsWithin Stocks (not v) :=
  .after (stocks_expectInteger _ v) fun _ =>
    .after (stocks_onModule (stocks_constWord _ _)) fun ones => binary_failsWithin .xor v ones

theorem fneg_failsWithin (v : ValueId) : FailsWithin Stocks (fneg v) :=
  .after (stocks_expectOperand _ v _) fun _ =>
    .after (stocks_onModule (stocks_constFloat _ _)) fun zero => binary_failsWithin .fsub zero v

theorem icmp_failsWithin (pred : IntPredicate) (lhs rhs : ValueId) :
    FailsWithin Stocks (icmp pred lhs rhs) :=
  .after (stocks_sameType _ _ _) fun _ => .after stocks_readModule fun _ =>
    FailsWithin.guard fun _ => .after (stocks_boolLike _) fun _ => insert_failsWithin _ _

theorem fcmp_failsWithin (pred : FloatPredicate) (lhs rhs : ValueId) :
    FailsWithin Stocks (fcmp pred lhs rhs) :=
  .after (stocks_sameType _ _ _) fun _ => .after stocks_readModule fun _ =>
    FailsWithin.guard fun _ => .after (stocks_boolLike _) fun _ => insert_failsWithin _ _

theorem cast_failsWithin (op : CastOp) (v : ValueId) (type : TypeId) :
    FailsWithin Stocks (cast op v type) :=
  .after stocks_readModule fun _ => FailsWithin.guard fun _ => insert_failsWithin _ _

theorem intCast_failsWithin (v : ValueId) (type : TypeId) (isSigned : Bool) :
    FailsWithin Stocks (intCast v type isSigned) := by
  refine .after (stocks_expectInteger _ v) fun source => .after stocks_readModule fun m => ?_
  split
  · split
    · exact (stays_pure v).failsWithin
    · split
      · exact cast_failsWithin _ v type
      · exact cast_failsWithin _ v type
  · exact (stays_throw _).failsWithin

theorem fpCast_failsWithin (v : ValueId) (type : TypeId) : FailsWithin Stocks (fpCast v type) := by
  refine .after (stocks_expectOperand _ v _) fun source => .after stocks_readModule fun m => ?_
  refine FailsWithin.guard fun _ => ?_
  dsimp only
  split
  · exact (stays_pure v).failsWithin
  · exact cast_failsWithin _ v type

end Arithmetic

section Memory

theorem allocate_failsWithin (type : TypeId) (count : Option ValueId) :
    FailsWithin Stocks (allocate type count) :=
  .after stocks_readModule fun _ => FailsWithin.guard fun _ =>
    .after (stocks_intern (.pointer type)) fun _ => insert_failsWithin _ _

theorem load_failsWithin (ptr : ValueId) : FailsWithin Stocks (load ptr) :=
  .after (stocks_expectOperand _ ptr _) fun _ => .after stocks_readModule fun _ =>
    FailsWithin.guard fun _ => insert_failsWithin _ _

theorem store_failsWithin (v ptr : ValueId) : FailsWithin Stocks (store v ptr) :=
  .after (stocks_expectOperand _ ptr _) fun _ => .after stocks_readModule fun _ =>
    FailsWithin.guard fun _ => .after (stocks_intern .void) fun _ => insert_failsWithin _ _

theorem elementPtr_failsWithin (base : ValueId) (indices : List ValueId) :
    FailsWithin Stocks (elementPtr base indices) := by
  refine .after (stocks_expectOperand _ base _) fun type => ?_
  split
  · exact failsWithin_throw _
  · exact .after (stays_forM (fun _ => (stocks_expectInteger _ _).map _) _) fun _ =>
      .after stocks_readModule fun _ => .after (stays_ofExcept _) fun target =>
        .after (stocks_intern (.pointer target)) fun _ => insert_failsWithin _ _

theorem structPtr_failsWithin (base : ValueId) (field : Nat) :
    FailsWithin Stocks (structPtr base field) :=
  .after (stocks_intern (.int 32)) fun _ => .after (stocks_onModule (stocks_constWord _ _)) fun _ =>
    .after (stocks_onModule (stocks_constWord _ _)) fun _ => elementPtr_failsWithin base _

end Memory

section Control

theorem makes_void (i : Instruction) :
    FailsWithin Stocks (void >>= fun type => insert type i) :=
  .after (stocks_intern .void) fun _ => insert_failsWithin _ _

theorem condBr_failsWithin (cond : ValueId) (thenDest elseDest : BlockId) :
    FailsWithin Stocks (condBr cond thenDest elseDest) := by
  refine .after stocks_readModule fun m => ?_
  split
  · exact makes_void _
  · exact .after (stocks_intern _) fun _ => .after stocks_readModule fun _ => failsWithin_throw _

theorem switch_failsWithin (v : ValueId) (default : BlockId) (cases : List (ValueId × BlockId)) :
    FailsWithin Stocks (switch v default cases) :=
  .after (stocks_expectInteger _ v) fun _ => .after stocks_readModule fun _ =>
    .after (stays_ofExcept _) fun _ => makes_void _

theorem phi_failsWithin (type : TypeId) (incoming : List (BlockId × ValueId)) :
    FailsWithin Stocks (phi type incoming) :=
  .after stocks_readModule fun _ => .after (stays_ofExcept _) fun _ => insert_failsWithin _ _

theorem call_failsWithin (callee : FunctionId) (args : List ValueId) :
    FailsWithin Stocks (call callee args) := by
  refine .after stocks_readModule fun m => ?_
  dsimp only
  split
  · exact failsWithin_throw _
  · split
    · split
      · exact failsWithin_throw _
      · exact insert_failsWithin _ _
    · exact failsWithin_throw _

theorem ret_failsWithin (v : ValueId) : FailsWithin Stocks (ret v) :=
  .after (stocks_currentFunction _) fun _ => .after stocks_readModule fun _ =>
    FailsWithin.guard fun _ => makes_void _

theorem retVoid_failsWithin : FailsWithin Stocks retVoid :=
  .after (stocks_currentFunction _) fun _ => .after (stocks_intern .void) fun _ =>
    .after stocks_readModule fun _ => FailsWithin.guard fun _ => insert_failsWithin _ _

end Control

section Aggregate

theorem extractValue_failsWithin (aggregate : ValueId) (index : Nat) :
    FailsWithin Stocks (extractValue aggregate index) :=
  .after stocks_readModule fun _ => .after (stays_ofExcept _) fun _ => insert_failsWithin _ _

theorem insertValue_failsWithin (aggregate element : ValueId) (index : Nat) :
    FailsWithin Stocks (insertValue aggregate element index) :=
  .after stocks_readModule fun _ => .after (stays_ofExcept _) fun _ =>
    FailsWithin.guard fun _ => insert_failsWithin _ _

theorem extractElement_failsWithin (vector index : ValueId) :
    FailsWithin Stocks (extractElement vector index) :=
  .after (stocks_expectOperand _ vector _) fun _ => .after (stocks_expectInteger _ index) fun _ =>
    .after stocks_readModule fun _ => insert_failsWithin _ _

theorem insertElement_failsWithin (vector element index : ValueId) :
    FailsWithin Stocks (insertElement vector element index) :=
  .after (stocks_expectOperand _ vector _) fun _ => .after (stocks_expectInteger _ index) fun _ =>
    .after stocks_readModule fun _ => FailsWithin.guard fun _ => insert_failsWithin _ _

theorem shuffle_failsWithin (lhs rhs mask : ValueId) : FailsWithin Stocks (shuffle lhs rhs mask) :=
  .after (stocks_sameType _ lhs rhs) fun _ => .after (stocks_expectOperand _ lhs _) fun _ =>
    .after (stocks_expectOperand _ mask _) fun _ => .after stocks_readModule fun _ =>
      FailsWithin.guard fun _ => FailsWithin.guard fun _ =>
        .after (stocks_vector _ _) fun _ => insert_failsWithin _ _

theorem select_failsWithin (cond thenValue elseValue : ValueId) :
    FailsWithin Stocks (select cond thenValue elseValue) := by
  refine .after (stocks_sameType _ thenValue elseValue) fun type =>
    .after stocks_readModule fun m => ?_
  dsimp only
  split
  · split
    · split
      · exact insert_failsWithin _ _
      · exact .after (stocks_boolLike _) fun _ => .after stocks_readModule fun _ =>
          failsWithin_throw _
    · exact insert_failsWithin _ _
  · exact .after (stocks_intern _) fun _ => .after stocks_readModule fun _ => failsWithin_throw _

end Aggregate

theorem emit_failsWithin (e : Emission) : FailsWithin Stocks e.emit := by
  cases e with
  | binary op lhs rhs => exact binary_failsWithin op lhs rhs
  | neg v => exact neg_failsWithin v
  | not v => exact not_failsWithin v
  | fneg v => exact fneg_failsWithin v
  | icmp pred lhs rhs => exact icmp_failsWithin pred lhs rhs
  | fcmp pred lhs rhs => exact fcmp_failsWithin pred lhs rhs
  | cast op v type => exact cast_failsWithin op v type
  | intCast v type isSigned => exact intCast_failsWithin v type isSigned
  | fpCast v type => exact fpCast_failsWithin v type
  | alloca type => exact allocate_failsWithin type none
  | arrayAlloca type count =>
    exact .after (stocks_expectInteger _ count) fun _ => allocate_failsWithin type (some count)
  | load ptr => exact load_failsWithin ptr
  | store v ptr => exact store_failsWithin v ptr
  | elementPtr base indices => exact elementPtr_failsWithin base indices
  | structPtr base field => exact structPtr_failsWithin base field
  | br dest => exact makes_void _
  | condBr cond thenDest elseDest => exact condBr_failsWithin cond thenDest elseDest
  | switch v default cases => exact switch_failsWithin v default cases
  | phi type incoming => exact phi_failsWithin type incoming
  | call callee args => exact call_failsWithin callee args
  | ret v => exact ret_failsWithin v
  | retVoid => exact retVoid_failsWithin
  | unreachable => exact makes_void _
  | extractValue aggregate index => exact extractValue_failsWithin aggregate index
  | insertValue aggregate element index => exact insertValue_failsWithin aggregate element index
  | extractElement vector index => exact extractElement_failsWithin vector index
  | insertElement vector element index => exact insertElement_failsWithin vector element index
  | shuffle lhs rhs mask => exact shuffle_failsWithin lhs rhs mask
  | select cond thenValue elseValue => exact select_failsWithin cond thenValue elseValue

/-- Whatever is asked for and wherever the cursor stands: a request that fails has made no
instruction. The cursor, the blocks, the functions, the globals and both tables of names are as they
were, and so is every type and value that was there; there may be new types and constants. -/
theorem emission_refused (s s' : Builder) (e : Emission) (error : Error)
    (h : e.emit.outcome s = (.error error, s')) :
    s'.cursor = s.cursor ∧ s'.module.name = s.module.name ∧
      (s'.module.blocks = s.module.blocks ∧ s'.module.functions = s.module.functions ∧
        s'.module.globals = s.module.globals) ∧
      (s'.module.functionNames = s.module.functionNames ∧
        s'.module.globalNames = s.module.globalNames) ∧
      (∀ type, s.module.types.contains type →
        s'.module.types.contains type ∧ s'.module.types.entry type = s.module.types.entry type) ∧
      ∃ new : List (TypeId × ValueKind), (∀ c ∈ new, c.2.isConstant ∧ c.2.global? = none) ∧
        s'.module.values.toList = s.module.values.toList ++
          new.map fun c => { content := { type := c.1, kind := c.2 } } := by
  obtain ⟨hcursor, hm⟩ := (emit_failsWithin e s).of_error h
  exact ⟨hcursor, hm.name, ⟨hm.blocks, hm.functions, hm.globals⟩,
    ⟨hm.functionNames, hm.globalNames⟩, hm.types, hm.values⟩

/-- A function with a parameter, and no place to write to. -/
def unplaced : Builder := replay { module := { name := "unplaced" } } [
  .types (.ofType .double),
  .symbol (.declareFunction "f" ⟨0⟩ [⟨0⟩] false)]

/-- The zero that a sign is changed with is made before the missing place is noticed. -/
theorem unplaced_refused : ∃ error s', (Emission.fneg ⟨0⟩).emit.outcome unplaced = (.error error, s') ∧
    error = .invalidState "builder has no insertion point for 'fsub'" ∧
    s'.module.values.size = 2 ∧ s'.module.value ⟨0⟩ = unplaced.module.value ⟨0⟩ ∧
    s'.module.functions = unplaced.module.functions ∧ s'.cursor = unplaced.cursor := by
  have herror : ((Emission.fneg ⟨0⟩).emit.outcome unplaced).1 =
      .error (.invalidState "builder has no insertion point for 'fsub'") := by decide +kernel
  have hfails : (Emission.fneg ⟨0⟩).emit.outcome unplaced =
      (.error (.invalidState "builder has no insertion point for 'fsub'"),
        ((Emission.fneg ⟨0⟩).emit.outcome unplaced).2) := Prod.ext herror rfl
  obtain ⟨hcursor, -, ⟨-, hfunctions, -⟩, -, -, new, -, hvalues⟩ :=
    emission_refused unplaced _ (.fneg ⟨0⟩) _ hfails
  refine ⟨_, _, hfails, rfl, by decide +kernel, ?_, hfunctions, hcursor⟩
  have hnode := congrArg (·[0]?) hvalues
  rw [List.getElem?_append_left (by decide +kernel), Array.getElem?_toList,
    Array.getElem?_toList] at hnode
  rw [Module.value_def, Module.value_def, Arena.content?, Arena.content?, hnode]

end Builder
end SsaKit
