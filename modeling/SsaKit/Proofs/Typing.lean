import SsaKit.Builder.Arithmetic
import SsaKit.Proofs.Order
import SsaKit.Proofs.Substitution
import SsaKit.Proofs.TypeTable

/-! What the type of a value says about its kind, in terms of the types of what it reads. -/
namespace SsaKit

namespace Ty

/-- The types of the members of an aggregate value, in order. -/
def members : Ty → Option (List TypeId)
  | array element length | vector element length => some (List.replicate length element)
  | struct _ (some fields) _ => some fields
  | _ => none

/-- The type of a member that a struct or an array can be asked for. -/
def member? : Ty → Nat → Option TypeId
  | struct _ fields _, index => (fields.getD [])[index]?
  | array element length, index => if index < length then some element else none
  | _, _ => none

variable {ty : Ty}

theorem isOpaque_of_kind (h : ty.kind ≠ .struct) : ty.isOpaque = false := by
  cases ty <;> first | rfl | exact absurd rfl h

theorem settled_of_params (h : ty.params.isSome) : ty ≠ .void ∧ ty.isOpaque = false := by
  cases ty with
  | function _ _ _ => exact ⟨nofun, rfl⟩
  | _ => cases h

theorem settled_of_members (h : ty.members.isSome) : ty ≠ .void ∧ ty.isOpaque = false := by
  cases ty with
  | array _ _ | vector _ _ => exact ⟨nofun, rfl⟩
  | struct _ fields _ => cases fields with
    | none => cases h
    | some _ => exact ⟨nofun, rfl⟩
  | _ => cases h

theorem settled_of_member? {n : Nat} (h : (ty.member? n).isSome) :
    ty ≠ .void ∧ ty.isOpaque = false := by
  cases ty with
  | array _ _ => exact ⟨nofun, rfl⟩
  | struct _ fields _ => cases fields with
    | none => cases h
    | some _ => exact ⟨nofun, rfl⟩
  | _ => cases h

end Ty

namespace TypeTable

variable {t u : TypeTable} {id source target : TypeId} {ty : Ty}

/-- A condition on a scalar type, or on the element type of a vector. -/
def Lanes (t : TypeTable) (P : Ty → Prop) (id : TypeId) : Prop :=
  P (t.entry id) ∨ ∃ element length, t.entry id = .vector element length ∧ P (t.entry element)

/-- A truth value for a scalar, or one for every lane of a vector. -/
def Truths (t : TypeTable) (source type : TypeId) : Prop :=
  (t.kind source ≠ .vector ∧ t.entry type = .int 1) ∨
    ∃ element bit length, t.entry source = .vector element length ∧
      t.entry type = .vector bit length ∧ t.entry bit = .int 1

theorem Extends.entry_of (h : t.Extends u) (he : t.entry id = ty) (hv : ty ≠ .void)
    (ho : ty.isOpaque = false) : u.entry id = ty := by
  have hid : t.contains id := by
    by_contra hn
    exact hv (he ▸ entry_of_not_contains hn)
  rw [h.entry_eq hid (he ▸ ho), he]

theorem Extends.lanes (h : t.Extends u) {P : Ty → Prop} (hP : ∀ ty, P ty → ty.kind ≠ .void)
    (hs : ∀ ty, P ty → ty.kind ≠ .struct) (hl : t.Lanes P id) : u.Lanes P id := by
  have keep : ∀ k, P (t.entry k) → u.entry k = t.entry k := fun k hk =>
    h.entry_of rfl (fun hv => hP _ hk (by simp [hv, Ty.kind])) (Ty.isOpaque_of_kind (hs _ hk))
  obtain hp | ⟨e, n, he, hp⟩ := hl
  · exact .inl (by rwa [keep id hp])
  · exact .inr ⟨e, n, h.entry_of he (by simp) rfl, by rwa [keep e hp]⟩

theorem Extends.truths (h : t.Extends u) (hid : t.contains source) (ht : t.Truths source id) :
    u.Truths source id := by
  obtain ⟨hk, he⟩ | ⟨e, bit, n, hs, he, hb⟩ := ht
  · exact .inl ⟨by rwa [h.kind_eq hid], h.entry_of he (by simp) rfl⟩
  · exact .inr ⟨e, bit, n, h.entry_of hs (by simp) rfl, h.entry_of he (by simp) rfl,
      h.entry_of hb (by simp) rfl⟩

theorem scalar_mono (h : t.Extends u) {n k bits : Nat} (hn : n ≤ k)
    (hb : scalarBits.scalar t n id = some bits) : scalarBits.scalar u k id = some bits := by
  induction n generalizing k id bits with
  | zero => simp [scalarBits.scalar] at hb
  | succ n ih =>
    obtain _ | k := k
    · omega
    · have hid : u.entry id = t.entry id := by
        refine h.entry_of rfl (fun hv => ?_) ?_
        · simp [scalarBits.scalar, hv] at hb
        · cases he : t.entry id <;> simp_all [scalarBits.scalar, Ty.isOpaque]
      rw [scalarBits.scalar] at hb ⊢
      rw [hid]
      cases he : t.entry id with
      | vector element length =>
        rw [he] at hb
        obtain ⟨each, hs, rfl⟩ := Option.map_eq_some_iff.mp hb
        simp [ih (Nat.le_of_succ_le_succ hn) hs]
      | _ => rw [he] at hb; exact hb

theorem contains_of_scalarBits {bits : Nat} (hb : t.scalarBits id = some bits) :
    t.contains id := by
  by_contra hn
  simp [scalarBits, scalarBits.scalar, entry_of_not_contains hn] at hb

theorem Extends.scalarBits_of (h : t.Extends u) {bits : Nat} (hb : t.scalarBits id = some bits) :
    u.scalarBits id = some bits := by
  refine scalar_mono h ?_ hb
  by_contra hlt
  have hs : u.size < t.size := by omega
  have := contains_iff.mp (h.contains ⟨u.size⟩ (contains_iff.mpr hs))
  simp [size] at this

theorem scalarBits_of_kind (hk : t.kind id = .integer ∨ t.kind id = .float) :
    ∃ bits, t.scalarBits id = some bits := by
  unfold kind at hk
  simp only [scalarBits, scalarBits.scalar]
  cases he : t.entry id <;> simp_all [Ty.kind]

theorem contains_of_kind {k : Ty.Kind} (hk : t.kind id = k) (hv : k ≠ .void) : t.contains id := by
  by_contra hn
  exact hv (by rw [← hk, kind, entry_of_not_contains hn]; rfl)

theorem Extends.castLegal (h : t.Extends u) {op : CastOp}
    (hc : Builder.isCastLegal t op source target) : Builder.isCastLegal u op source target := by
  have kinds {k l : Ty.Kind} (hk : t.kind source = k) (hl : t.kind target = l) (hkv : k ≠ .void)
      (hlv : l ≠ .void) : u.kind source = k ∧ u.kind target = l :=
    ⟨(h.kind_eq (contains_of_kind hk hkv)).trans hk,
      (h.kind_eq (contains_of_kind hl hlv)).trans hl⟩
  have bits (hk : t.kind source = .integer ∨ t.kind source = .float)
      (hl : t.kind target = .integer ∨ t.kind target = .float) :
      u.scalarBits source = t.scalarBits source ∧ u.scalarBits target = t.scalarBits target := by
    obtain ⟨a, ha⟩ := scalarBits_of_kind hk
    obtain ⟨b, hb⟩ := scalarBits_of_kind hl
    rw [ha, hb]
    exact ⟨h.scalarBits_of ha, h.scalarBits_of hb⟩
  cases op with
  | trunc | zext | sext =>
    simp only [Builder.isCastLegal, Bool.and_eq_true, beq_iff_eq, decide_eq_true_eq] at hc ⊢
    obtain ⟨⟨hs, ht⟩, hlt⟩ := hc
    obtain ⟨hbs, hbt⟩ := bits (.inl hs) (.inl ht)
    exact ⟨kinds hs ht (by simp) (by simp), by rwa [hbs, hbt]⟩
  | fpext | fptrunc =>
    simp only [Builder.isCastLegal, Bool.and_eq_true, beq_iff_eq, decide_eq_true_eq] at hc ⊢
    obtain ⟨⟨hs, ht⟩, hlt⟩ := hc
    obtain ⟨hbs, hbt⟩ := bits (.inr hs) (.inr ht)
    exact ⟨kinds hs ht (by simp) (by simp), by rwa [hbs, hbt]⟩
  | fptoui | fptosi | uitofp | sitofp =>
    simp only [Builder.isCastLegal, Bool.and_eq_true, beq_iff_eq] at hc ⊢
    exact kinds hc.1 hc.2 (by simp) (by simp)
  | bitcast =>
    simp only [Builder.isCastLegal, Bool.or_eq_true, Bool.and_eq_true, beq_iff_eq, bne_iff_ne,
      ne_eq] at hc ⊢
    obtain ⟨hs, ht⟩ | ⟨⟨⟨hs, ht⟩, hb⟩, heq⟩ := hc
    · exact .inl (kinds hs ht (by simp) (by simp))
    · obtain ⟨n, hn⟩ := Option.isSome_iff_exists.mp hb
      have hsc : t.contains source := contains_of_scalarBits hn
      have htc : t.contains target := contains_of_scalarBits (heq ▸ hn)
      refine .inr ⟨⟨⟨by rwa [h.kind_eq hsc], by rwa [h.kind_eq htc]⟩, ?_⟩, ?_⟩
      · simp [h.scalarBits_of hn]
      · rw [h.scalarBits_of hn, h.scalarBits_of (heq ▸ hn)]

end TypeTable

namespace ValueKind

/-- Two kinds of which the second may come in the place of the first: a constant or an argument
stays what it is, a global keeps its type, an instruction stays an instruction. -/
def Becomes (k k' : ValueKind) : Prop :=
  k' = k ∨ (∃ g g', k = .global g ∧ k' = .global g' ∧ g'.valueType = g.valueType) ∨
    ∃ i i', k = .instruction i ∧ k' = .instruction i'

variable {k k' k'' : ValueKind}

theorem Becomes.trans (h : k.Becomes k') (h' : k'.Becomes k'') : k.Becomes k'' := by
  obtain rfl | ⟨g, g', rfl, rfl, hg⟩ | ⟨i, i', rfl, rfl⟩ := h
  · exact h'
  · obtain rfl | ⟨_, g'', he, rfl, hg'⟩ | ⟨i, i', he, -⟩ := h'
    · exact .inr (.inl ⟨g, g', rfl, rfl, hg⟩)
    · cases he
      exact .inr (.inl ⟨g, g'', rfl, rfl, hg'.trans hg⟩)
    · cases he
  · obtain rfl | ⟨_, _, he, -⟩ | ⟨_, i'', -, rfl⟩ := h'
    · exact .inr (.inr ⟨i, i', rfl, rfl⟩)
    · cases he
    · exact .inr (.inr ⟨i, i'', rfl, rfl⟩)

theorem Becomes.isConstant_eq (h : k.Becomes k') : k'.isConstant = k.isConstant := by
  obtain rfl | ⟨g, g', rfl, rfl, hg⟩ | ⟨i, i', rfl, rfl⟩ := h <;> rfl

theorem Becomes.instruction {i : Instruction} (h : k.Becomes k') (hk : k = .instruction i) :
    ∃ i', k' = .instruction i' := by
  obtain rfl | ⟨g, g', rfl, rfl, hg⟩ | ⟨i, i', rfl, rfl⟩ := h
  · exact ⟨i, hk⟩
  · cases hk
  · exact ⟨i', rfl⟩

end ValueKind

/-- The blocks that a phi or the end of a block speaks of. -/
def Instruction.blocks : Instruction → List BlockId
  | .phi incoming => incoming.map (·.1)
  | i => i.successors

theorem Instruction.isPhi_mapOperands (g : ValueId → ValueId) (i : Instruction) :
    (i.mapOperands g).isPhi = i.isPhi := by
  cases i <;> rfl

theorem Instruction.blocks_mapOperands (g : ValueId → ValueId) (i : Instruction) :
    (i.mapOperands g).blocks = i.blocks := by
  cases i <;> simp [mapOperands, blocks, successors, Function.comp_def]

namespace Module

variable {m m' m'' : Module} {type : TypeId} {v : ValueId} {i : Instruction}

def HasFunction (m : Module) (f : FunctionId) : Prop := f.index < m.functions.size

/-- What the type of an instruction and the types of its operands have to do with each other. -/
def InstructionFits (m : Module) (type : TypeId) : Instruction → Prop
  | .binary op lhs rhs => m.typeOf lhs = type ∧ m.typeOf rhs = type ∧
    m.types.Lanes (·.kind = if op.isFloat then .float else .integer) type
  | .icmp _ lhs rhs => m.typeOf lhs = m.typeOf rhs ∧
    m.types.Lanes (fun ty => ty.kind = .integer ∨ ty.kind = .pointer) (m.typeOf lhs) ∧
    m.types.Truths (m.typeOf lhs) type
  | .fcmp _ lhs rhs => m.typeOf lhs = m.typeOf rhs ∧
    m.types.Lanes (·.kind = .float) (m.typeOf lhs) ∧ m.types.Truths (m.typeOf lhs) type
  | .alloca allocated count => m.types.isSized allocated ∧ m.types.entry type = .pointer allocated ∧
    ∀ n ∈ count, m.types.kind (m.typeOf n) = .integer
  | .load ptr => m.types.entry (m.typeOf ptr) = .pointer type ∧ m.types.isSized type
  | .store value ptr => m.types.entry (m.typeOf ptr) = .pointer (m.typeOf value) ∧
    m.types.entry type = .void
  | .elementPtr base indices => m.types.kind (m.typeOf base) = .pointer ∧ indices ≠ [] ∧
    (∀ n ∈ indices, m.types.kind (m.typeOf n) = .integer) ∧ m.types.kind type = .pointer
  | .branch _ | .unreachable | .ret _ => m.types.entry type = .void
  | .condBranch cond _ _ => m.types.entry (m.typeOf cond) = .int 1 ∧ m.types.entry type = .void
  | .switch value _ cases => m.types.kind (m.typeOf value) = .integer ∧
    (∀ c ∈ cases, m.typeOf c.1 = m.typeOf value) ∧ m.types.entry type = .void
  | .phi incoming => ∀ e ∈ incoming, m.typeOf e.2 = type
  | .call callee args => m.HasFunction callee ∧ type = m.resultType callee ∧
    ∃ params, (m.types.entry (m.function callee).type).params = some params ∧
      params.length ≤ args.length ∧ ∀ p ∈ params.zip args, m.typeOf p.2 = p.1
  | .cast op value => Builder.isCastLegal m.types op (m.typeOf value) type
  | .extractValue aggregate index =>
    (m.types.entry (m.typeOf aggregate)).member? index = some type
  | .insertValue aggregate element index => m.typeOf aggregate = type ∧
    (m.types.entry type).member? index = some (m.typeOf element)
  | .extractElement vector index => m.types.kind (m.typeOf index) = .integer ∧
    ∃ length, m.types.entry (m.typeOf vector) = .vector type length
  | .insertElement vector element index => m.types.kind (m.typeOf index) = .integer ∧
    m.typeOf vector = type ∧ ∃ length, m.types.entry type = .vector (m.typeOf element) length
  | .shuffle lhs rhs mask => m.typeOf lhs = m.typeOf rhs ∧ ∃ element bit n k,
    m.types.entry (m.typeOf lhs) = .vector element n ∧
    m.types.entry (m.typeOf mask) = .vector bit k ∧ m.types.entry bit = .int 32 ∧
    m.types.entry type = .vector element k
  | .select cond thenValue elseValue => m.typeOf thenValue = type ∧ m.typeOf elseValue = type ∧
    (m.types.entry (m.typeOf cond) = .int 1 ∨ ∃ bit element length,
      m.types.entry (m.typeOf cond) = .vector bit length ∧ m.types.entry bit = .int 1 ∧
      m.types.entry type = .vector element length)

/-- What the type of a value says about its kind; all that the kind mentions is at hand. -/
def KindFits (m : Module) (type : TypeId) : ValueKind → Prop
  | .int word => ∃ bits ≤ 64, m.types.entry type = .int bits ∧ Word.mask bits word = word
  | .float _ => m.types.kind type = .float
  | .null => m.types.kind type = .pointer
  | .undef => m.types.isSized type
  | .aggregate elements => (∀ v ∈ elements, m.values.Has v ∧ m.isConstant v) ∧
    (m.types.entry type).members = some (elements.map m.typeOf)
  | .bytes data => ∃ byte, m.types.entry type = .array byte data.length ∧
    m.types.entry byte = .int 8
  | .argument _ _ => True
  | .global g => m.types.entry type = .pointer g.valueType ∧ m.types.isSized g.valueType ∧
    ∀ v ∈ g.initializer, m.values.Has v ∧ m.isConstant v ∧ m.typeOf v = g.valueType
  | .instruction i => (∀ v ∈ i.operands, m.values.Has v) ∧ (∀ b ∈ i.blocks, m.blocks.Has b) ∧
    m.InstructionFits type i

/-- The parameters of a function are arguments of the types that its own type lists. -/
def FunctionFits (m : Module) (f : FunctionId) : Prop :=
  ∃ result params isVariadic,
    m.types.entry (m.function f).type = .function result params isVariadic ∧
    List.Forall₂ (fun v type => m.values.Has v ∧ m.typeOf v = type ∧
      ∃ n, m.kindOf v = .argument f n) (m.params f) params

/-- Everything in a module is typed. -/
structure Sound (m : Module) : Prop where
  types : m.types.WellFormed
  values : ∀ v, m.values.Has v →
    m.types.contains (m.typeOf v) ∧ m.KindFits (m.typeOf v) (m.kindOf v)
  functions : ∀ f, m.HasFunction f → m.FunctionFits f

/-! ### Growth -/

/-- The second module holds all of the first one, with the same types. -/
structure Extends (m m' : Module) : Prop where
  types : m.types.Extends m'.types
  values : ∀ v, m.values.Has v → m'.values.Has v ∧ m'.typeOf v = m.typeOf v ∧
    (m.kindOf v).Becomes (m'.kindOf v)
  blocks : ∀ b, m.blocks.Has b → m'.blocks.Has b
  functions : ∀ f, m.HasFunction f → m'.HasFunction f ∧
    (m'.function f).type = (m.function f).type ∧ m'.params f = m.params f

namespace Extends

theorem refl (m : Module) : m.Extends m :=
  ⟨.refl _, fun _ h => ⟨h, rfl, .inl rfl⟩, fun _ h => h, fun _ h => ⟨h, rfl, rfl⟩⟩

theorem trans (h : m.Extends m') (h' : m'.Extends m'') : m.Extends m'' where
  types := h.types.trans h'.types
  values v hv := by
    obtain ⟨h1, h2, h3⟩ := h.values v hv
    obtain ⟨h1', h2', h3'⟩ := h'.values v h1
    exact ⟨h1', h2'.trans h2, h3.trans h3'⟩
  blocks b hb := h'.blocks b (h.blocks b hb)
  functions f hf := by
    obtain ⟨h1, h2, h3⟩ := h.functions f hf
    obtain ⟨h1', h2', h3'⟩ := h'.functions f h1
    exact ⟨h1', h2'.trans h2, h3'.trans h3⟩

variable (h : m.Extends m')
include h

theorem has (hv : m.values.Has v) : m'.values.Has v := (h.values v hv).1

theorem typeOf_eq (hv : m.values.Has v) : m'.typeOf v = m.typeOf v := (h.values v hv).2.1

theorem isConstant_eq (hv : m.values.Has v) : m'.isConstant v = m.isConstant v :=
  (h.values v hv).2.2.isConstant_eq

theorem resultType_eq {f : FunctionId} (hf : m.HasFunction f)
    (hp : (m.types.entry (m.function f).type).params.isSome) :
    m'.resultType f = m.resultType f := by
  obtain ⟨hv, ho⟩ := Ty.settled_of_params hp
  unfold resultType
  dsimp only
  rw [(h.functions f hf).2.1, h.types.entry_of rfl hv ho]

theorem instructionFits (ht : m.types.contains type) (ho : ∀ v ∈ i.operands, m.values.Has v)
    (hi : m.InstructionFits type i) : m'.InstructionFits type i := by
  have same : ∀ v ∈ i.operands, m'.typeOf v = m.typeOf v := fun v hv => h.typeOf_eq (ho v hv)
  have entry {id : TypeId} {ty : Ty} (he : m.types.entry id = ty) (hv : ty ≠ .void)
      (hs : ty.isOpaque = false) : m'.types.entry id = ty := h.types.entry_of he hv hs
  have void (he : m.types.entry type = .void) : m'.types.entry type = .void :=
    (h.types.entry_eq_of_kind ht (by simp [TypeTable.kind, he, Ty.kind])).trans he
  have kind {id : TypeId} {k : Ty.Kind} (hk : m.types.kind id = k) (hv : k ≠ .void) :
      m'.types.kind id = k :=
    (h.types.kind_eq (TypeTable.contains_of_kind hk hv)).trans hk
  have member {id : TypeId} {n : Nat} {r : TypeId} (he : (m.types.entry id).member? n = some r) :
      (m'.types.entry id).member? n = some r := by
    obtain ⟨hv, ho⟩ := Ty.settled_of_member? (Option.isSome_of_mem he)
    rwa [entry rfl hv ho]
  have known {id : TypeId} {P : Ty → Prop} (hl : m.types.Lanes P id)
      (hP : ∀ ty, P ty → ty.kind ≠ .void) : m.types.contains id := by
    by_contra hn
    obtain hp | ⟨e, n, he, -⟩ := hl
    · exact hP _ hp (by simp [TypeTable.entry_of_not_contains hn, Ty.kind])
    · simp [TypeTable.entry_of_not_contains hn] at he
  cases i with
  | binary op lhs rhs =>
    obtain ⟨hl, hr, hk⟩ := hi
    simp only [Instruction.operands, List.mem_cons, List.not_mem_nil, or_false,
      forall_eq_or_imp, forall_eq] at same
    refine ⟨same.1.trans hl, same.2.trans hr, h.types.lanes ?_ ?_ hk⟩ <;>
      intro ty hty <;> rw [hty] <;> split <;> simp
  | icmp pred lhs rhs =>
    obtain ⟨he, hk, htr⟩ := hi
    simp only [Instruction.operands, List.mem_cons, List.not_mem_nil, or_false,
      forall_eq_or_imp, forall_eq] at same
    have hP : ∀ ty : Ty, ty.kind = .integer ∨ ty.kind = .pointer → ty.kind ≠ .void := by
      rintro ty (hty | hty) <;> simp [hty]
    have hS : ∀ ty : Ty, ty.kind = .integer ∨ ty.kind = .pointer → ty.kind ≠ .struct := by
      rintro ty (hty | hty) <;> simp [hty]
    simp only [InstructionFits, same.1, same.2]
    exact ⟨he, h.types.lanes hP hS hk, h.types.truths (known hk hP) htr⟩
  | fcmp pred lhs rhs =>
    obtain ⟨he, hk, htr⟩ := hi
    simp only [Instruction.operands, List.mem_cons, List.not_mem_nil, or_false,
      forall_eq_or_imp, forall_eq] at same
    have hP : ∀ ty : Ty, ty.kind = .float → ty.kind ≠ .void := by intro ty hty; simp [hty]
    simp only [InstructionFits, same.1, same.2]
    exact ⟨he, h.types.lanes hP (fun ty hty => by simp [hty]) hk,
      h.types.truths (known hk hP) htr⟩
  | alloca allocated count =>
    obtain ⟨hs, he, hc⟩ := hi
    refine ⟨h.types.isSized_of hs, entry he (by simp) rfl, fun n hn => ?_⟩
    rw [same n (by simpa [Instruction.operands] using hn)]
    exact kind (hc n hn) (by simp)
  | load ptr =>
    simp only [InstructionFits, same ptr (by simp [Instruction.operands])]
    exact ⟨entry hi.1 (by simp) rfl, h.types.isSized_of hi.2⟩
  | store value ptr =>
    simp only [InstructionFits, same ptr (by simp [Instruction.operands]),
      same value (by simp [Instruction.operands])]
    exact ⟨entry hi.1 (by simp) rfl, void hi.2⟩
  | elementPtr base indices =>
    obtain ⟨hb, hne, hin, hk⟩ := hi
    refine ⟨?_, hne, fun n hn => ?_, kind hk (by simp)⟩
    · rw [same base (by simp [Instruction.operands])]
      exact kind hb (by simp)
    · rw [same n (by simp [Instruction.operands, hn])]
      exact kind (hin n hn) (by simp)
  | branch _ | unreachable | ret _ => exact void hi
  | condBranch cond _ _ =>
    simp only [InstructionFits, same cond (by simp [Instruction.operands])]
    exact ⟨entry hi.1 (by simp) rfl, void hi.2⟩
  | switch value default cases =>
    obtain ⟨hk, hc, hv⟩ := hi
    simp only [InstructionFits, same value (by simp [Instruction.operands])]
    refine ⟨kind hk (by simp), fun c hc' => ?_, void hv⟩
    rw [same c.1 (by simp only [Instruction.operands, List.mem_cons, List.mem_map]
                     exact .inr ⟨c, hc', rfl⟩)]
    exact hc c hc'
  | phi incoming =>
    intro e he
    rw [same e.2 (List.mem_map_of_mem he)]
    exact hi e he
  | call callee args =>
    obtain ⟨hf, rfl, params, hp, hl, ha⟩ := hi
    have he : m'.types.entry (m'.function callee).type =
        m.types.entry (m.function callee).type := by
      obtain ⟨hv, ho⟩ := Ty.settled_of_params (Option.isSome_of_mem hp)
      rw [(h.functions callee hf).2.1, entry rfl hv ho]
    refine ⟨(h.functions callee hf).1, (h.resultType_eq hf (by simp [hp])).symm, params,
      he ▸ hp, hl, fun p hp' => ?_⟩
    rw [same p.2 (List.of_mem_zip hp').2]
    exact ha p hp'
  | cast op value =>
    simp only [InstructionFits, same value (by simp [Instruction.operands])]
    exact h.types.castLegal hi
  | extractValue aggregate index =>
    simp only [InstructionFits, same aggregate (by simp [Instruction.operands])]
    exact member hi
  | insertValue aggregate element index =>
    simp only [InstructionFits, same aggregate (by simp [Instruction.operands]),
      same element (by simp [Instruction.operands])]
    exact ⟨hi.1, member hi.2⟩
  | extractElement vector index =>
    obtain ⟨hk, n, he⟩ := hi
    simp only [InstructionFits, same vector (by simp [Instruction.operands]),
      same index (by simp [Instruction.operands])]
    exact ⟨kind hk (by simp), n, entry he (by simp) rfl⟩
  | insertElement vector element index =>
    obtain ⟨hk, hv, n, he⟩ := hi
    simp only [InstructionFits, same vector (by simp [Instruction.operands]),
      same element (by simp [Instruction.operands]), same index (by simp [Instruction.operands])]
    exact ⟨kind hk (by simp), hv, n, entry he (by simp) rfl⟩
  | shuffle lhs rhs mask =>
    obtain ⟨hlr, e, bit, n, k, hl, hm, hb, hr⟩ := hi
    simp only [InstructionFits, same lhs (by simp [Instruction.operands]),
      same rhs (by simp [Instruction.operands]), same mask (by simp [Instruction.operands])]
    exact ⟨hlr, e, bit, n, k, entry hl (by simp) rfl, entry hm (by simp) rfl,
      entry hb (by simp) rfl, entry hr (by simp) rfl⟩
  | select cond thenValue elseValue =>
    obtain ⟨ha, hb, hc⟩ := hi
    simp only [InstructionFits, same cond (by simp [Instruction.operands]),
      same thenValue (by simp [Instruction.operands]),
      same elseValue (by simp [Instruction.operands])]
    refine ⟨ha, hb, ?_⟩
    obtain hc | ⟨bit, e, n, hc, hbit, ht⟩ := hc
    · exact .inl (entry hc (by simp) rfl)
    · exact .inr ⟨bit, e, n, entry hc (by simp) rfl, entry hbit (by simp) rfl,
        entry ht (by simp) rfl⟩

theorem kindFits {k : ValueKind} (ht : m.types.contains type) (hk : m.KindFits type k) :
    m'.KindFits type k := by
  have entry {id : TypeId} {ty : Ty} (he : m.types.entry id = ty) (hv : ty ≠ .void)
      (hs : ty.isOpaque = false) : m'.types.entry id = ty := h.types.entry_of he hv hs
  cases k with
  | int word =>
    obtain ⟨bits, hb, he, hw⟩ := hk
    exact ⟨bits, hb, entry he (by simp) rfl, hw⟩
  | float _ | null => exact (h.types.kind_eq ht).trans hk
  | undef => exact h.types.isSized_of hk
  | aggregate elements =>
    obtain ⟨he, hm⟩ := hk
    refine ⟨fun v hv => ⟨h.has (he v hv).1, by rw [h.isConstant_eq (he v hv).1, (he v hv).2]⟩, ?_⟩
    obtain ⟨hv, ho⟩ := Ty.settled_of_members (Option.isSome_of_mem hm)
    rw [entry rfl hv ho, hm]
    exact congrArg some (List.map_congr_left fun v hv => (h.typeOf_eq (he v hv).1).symm)
  | bytes data =>
    obtain ⟨byte, he, hb⟩ := hk
    exact ⟨byte, entry he (by simp) rfl, entry hb (by simp) rfl⟩
  | argument _ _ => trivial
  | global g =>
    obtain ⟨he, hs, hg⟩ := hk
    refine ⟨entry he (by simp) rfl, h.types.isSized_of hs, fun v hv => ?_⟩
    obtain ⟨h1, h2, h3⟩ := hg v hv
    exact ⟨h.has h1, by rw [h.isConstant_eq h1, h2], (h.typeOf_eq h1).trans h3⟩
  | instruction i =>
    obtain ⟨ho, hb, hi⟩ := hk
    exact ⟨fun v hv => h.has (ho v hv), fun b hb' => h.blocks b (hb b hb'),
      h.instructionFits ht ho hi⟩

theorem functionFits {f : FunctionId} (hf : m.HasFunction f) (hfits : m.FunctionFits f) :
    m'.FunctionFits f := by
  obtain ⟨r, ps, va, he, hp⟩ := hfits
  refine ⟨r, ps, va, ?_, ?_⟩
  · rw [(h.functions f hf).2.1]
    exact h.types.entry_of he (by simp) rfl
  · rw [(h.functions f hf).2.2]
    refine hp.imp fun v type ⟨hv, ht, n, hk⟩ => ⟨h.has hv, (h.typeOf_eq hv).trans ht, n, ?_⟩
    obtain hs | ⟨_, _, hg, -⟩ | ⟨_, _, hi, -⟩ := (h.values v hv).2.2
    · exact hs.trans hk
    · rw [hk] at hg
      cases hg
    · rw [hk] at hi
      cases hi

end Extends

theorem InstructionFits.mapOperands (hi : m.InstructionFits type i) {g : ValueId → ValueId}
    (hg : ∀ v ∈ i.operands, m.typeOf (g v) = m.typeOf v) :
    m.InstructionFits type (i.mapOperands g) := by
  cases i with
  | alloca allocated count =>
    obtain ⟨hs, he, hc⟩ := hi
    refine ⟨hs, he, fun n hn => ?_⟩
    obtain ⟨k, hk, rfl⟩ := Option.map_eq_some_iff.mp hn
    rw [hg k (by simp [Instruction.operands, hk])]
    exact hc k hk
  | elementPtr base indices =>
    obtain ⟨hb, hne, hin, hk⟩ := hi
    refine ⟨by rwa [hg base (by simp [Instruction.operands])], by simpa using hne, ?_, hk⟩
    intro n hn
    obtain ⟨k, hk, rfl⟩ := List.mem_map.mp hn
    rw [hg k (by simp [Instruction.operands, hk])]
    exact hin k hk
  | switch value default cases =>
    obtain ⟨hk, hc, hv⟩ := hi
    have hgv := hg value (by simp [Instruction.operands])
    refine ⟨by rwa [hgv], ?_, hv⟩
    intro c hc'
    obtain ⟨d, hd, rfl⟩ := List.mem_map.mp hc'
    rw [hgv, hg d.1 (by simp only [Instruction.operands, List.mem_cons, List.mem_map]
                        exact .inr ⟨d, hd, rfl⟩)]
    exact hc d hd
  | phi incoming =>
    intro e he
    obtain ⟨d, hd, rfl⟩ := List.mem_map.mp he
    exact (hg d.2 (List.mem_map_of_mem hd)).trans (hi d hd)
  | call callee args =>
    obtain ⟨hf, rfl, params, hp, hl, ha⟩ := hi
    refine ⟨hf, rfl, params, hp, by simpa using hl, fun p hp' => ?_⟩
    rw [List.zip_map_right] at hp'
    obtain ⟨q, hq, rfl⟩ := List.mem_map.mp hp'
    exact (hg q.2 (List.of_mem_zip hq).2).trans (ha q hq)
  | branch _ | unreachable | ret _ => exact hi
  | _ =>
    simp only [Instruction.operands, List.mem_cons, List.not_mem_nil, or_false,
      forall_eq_or_imp, forall_eq] at hg
    simpa only [InstructionFits, Instruction.mapOperands, hg] using hi

/-- A module stays sound when what it holds anew is typed. -/
theorem Sound.of_extends (h : m.Sound) (hx : m.Extends m') (ht : m'.types.WellFormed)
    (hv : ∀ v, m'.values.Has v → (m.values.Has v ∧ m'.kindOf v = m.kindOf v) ∨
      (m'.types.contains (m'.typeOf v) ∧ m'.KindFits (m'.typeOf v) (m'.kindOf v)))
    (hf : ∀ f, m'.HasFunction f → m.HasFunction f ∨ m'.FunctionFits f) : m'.Sound where
  types := ht
  values v hv' := by
    obtain ⟨hold, hk⟩ | hnew := hv v hv'
    · rw [hx.typeOf_eq hold, hk]
      obtain ⟨hc, hfits⟩ := h.values v hold
      exact ⟨hx.types.contains _ hc, hx.kindFits hc hfits⟩
    · exact hnew
  functions f hf' := by
    obtain hold | hnew := hf f hf'
    · exact hx.functionFits hold (h.functions f hold)
    · exact hnew

end Module
end SsaKit
