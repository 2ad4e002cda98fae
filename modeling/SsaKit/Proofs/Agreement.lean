import SsaKit.Proofs.Content
import SsaKit.Proofs.ControlFlow
import SsaKit.Proofs.Symbol

/-! Runs of two settings that agree on everything these runs come by: results, faults and the
machines left behind are the same. -/
namespace SsaKit

namespace Run

variable {α β γ : Type}

theorem mapM_congr {f g : γ → Run α} {xs : List γ} (h : ∀ x ∈ xs, f x = g x) :
    xs.mapM f = xs.mapM g := by
  induction xs with
  | nil => rfl
  | cons x xs ih =>
    rw [List.mapM_cons, List.mapM_cons, h x (by simp), ih fun y hy => h y (by simp [hy])]

theorem foldlM_congr {f g : α → γ → Run α} {xs : List γ} (h : ∀ a, ∀ x ∈ xs, f a x = g a x)
    (a : α) : xs.foldlM f a = xs.foldlM g a := by
  induction xs generalizing a with
  | nil => rfl
  | cons x xs ih =>
    rw [List.foldlM_cons, List.foldlM_cons, h a x (by simp)]
    exact bind_congr fun b => ih (fun c y hy => h c y (by simp [hy])) b

end Run

namespace Setting

open Run SsaKit.Module

variable {e e' : Setting} {F : FunctionId → Prop} {B : FunctionId → BlockId → Prop}
  {S : BlockId → Prop} {f : FunctionId} {b : BlockId} {v : ValueId} {frame : Frame}
  {callee callee' : FunctionId → List Datum → Run Datum} {i i' : Instruction}

/-- A value that is read alike, whatever the frame. -/
def SameRead (e e' : Setting) (v : ValueId) : Prop :=
  ∀ frame, e'.operand frame v = e.operand frame v

/-- Values whose constants are made of the same parts, and whose globals are on the list in both
modules or in none. -/
structure SameConstants (e e' : Setting) (P : ValueId → Prop) : Prop where
  host : e'.host = e.host
  types : e'.module.types = e.module.types
  values : e'.module.values.size = e.module.values.size
  typeOf : ∀ v, P v → e'.module.typeOf v = e.module.typeOf v
  kindOf : ∀ v, P v → e'.module.kindOf v = e.module.kindOf v ∨
    ∃ i i', e.module.kindOf v = .instruction i ∧ e'.module.kindOf v = .instruction i'
  listed : ∀ v, P v → (e.module.global? v).isSome →
    e'.module.isListed v = e.module.isListed v
  closed : ∀ v, P v → ∀ w ∈ (e.module.kindOf v).parts, P w

namespace SameConstants

variable {P : ValueId → Prop} (h : e.SameConstants e' P)
include h

theorem storage_eq {constant constant' : ValueId → Run Datum} {g : Global} (hv : P v)
    (hg : e.module.kindOf v = .global g) (hc : ∀ w, P w → constant' w = constant w) :
    e'.storage constant' v g = e.storage constant v g := by
  have hlisted := h.listed v hv (by rw [global?_eq_some.mpr hg]; rfl)
  have hparts := h.closed v hv
  rw [hg] at hparts
  unfold storage
  rw [hlisted, h.types, h.host]
  cases hi : g.initializer with
  | none => rfl
  | some init =>
    have hinit := hc init (hparts init (by simp [ValueKind.parts, hi]))
    simp only [hinit]

/-- A constant made of the same parts reads the same. -/
theorem constant_eq (fuel : Nat) (hv : P v) : e'.constant fuel v = e.constant fuel v := by
  induction fuel generalizing v with
  | zero => rfl
  | succ fuel ih =>
    have htype := h.typeOf v hv
    have hkind := h.kindOf v hv
    have hparts := h.closed v hv
    rw [constant, constant]
    simp only [Module.kindOf, Module.typeOf] at htype hkind hparts
    rw [htype]
    unfold wordDatum floatDatum
    rw [h.types, h.host]
    obtain hsame | ⟨i, i', hi, hi'⟩ := hkind
    · rw [hsame]
      split
      · rfl
      · rfl
      · rfl
      · rfl
      · rename_i elements hk
        rw [hk] at hparts
        have helements : elements.mapM (e'.constant fuel) = elements.mapM (e.constant fuel) :=
          mapM_congr fun w hw => ih (hparts w hw)
        rw [helements]
      · rfl
      · rename_i g hk
        rw [h.storage_eq hv hk fun w hw => ih hw]
      · rfl
      · rfl
    · rw [hi, hi']

theorem sameRead (hv : P v) : SameRead e e' v := by
  intro frame
  have hdepth : e'.constantDepth = e.constantDepth := by rw [constantDepth, constantDepth, h.values]
  have hconstant := h.constant_eq e.constantDepth hv
  unfold operand
  rcases h.kindOf v hv with hsame | ⟨i, i', hi, hi'⟩
  · rw [hsame, hdepth, hconstant]
  · rw [hi, hi']

end SameConstants

theorem SameRead.wordOperand_eq (h : SameRead e e' v) :
    e'.wordOperand frame v = e.wordOperand frame v := by
  rw [wordOperand, wordOperand, h frame]

theorem SameRead.signedOperand_eq (h : SameRead e e' v) :
    e'.signedOperand frame v = e.signedOperand frame v := by
  rw [signedOperand, signedOperand, h frame]

theorem SameRead.members_eq (h : SameRead e e' v) :
    e'.members frame v = e.members frame v := by
  rw [members, members, h frame]

theorem derive_eq {base : ValueId} {indices : List ValueId} (hh : e'.host = e.host)
    (hb : SameRead e e' base) (hi : ∀ v ∈ indices, SameRead e e' v) :
    e'.derive frame base indices = e.derive frame base indices := by
  unfold derive
  rw [hh, hb frame]
  refine bind_congr fun d => bind_congr fun target => ?_
  cases target with
  | none => rfl
  | some p =>
    cases indices with
    | nil => rfl
    | cons first rest =>
      dsimp only
      rw [(hi first (by simp)).signedOperand_eq]
      refine bind_congr fun offset => bind_congr fun q => ?_
      refine congrArg (· >>= fun p => pure (Datum.pointer (some p))) ?_
      refine foldlM_congr (fun p v hv => ?_) q
      rw [(hi v (by simp [hv])).signedOperand_eq]

theorem slotCount_eq {count : Option ValueId} (hc : ∀ v ∈ count, SameRead e e' v) :
    e'.slotCount frame count = e.slotCount frame count := by
  cases count with
  | none => rfl
  | some v => rw [slotCount, slotCount, (hc v rfl).signedOperand_eq]

/-- An instruction evaluates alike when its operands are read alike and it calls what is called
alike. -/
theorem evaluate_eq {type : TypeId} (hh : e'.host = e.host)
    (ht : e'.module.types = e.module.types) (hi : ∀ v ∈ i.operands, SameRead e e' v)
    (hc : ∀ f args, i = .call f args → callee' f = callee f) :
    e'.evaluate callee' frame type i = e.evaluate callee frame type i := by
  cases i with
  | binary op lhs rhs =>
    rw [evaluate, evaluate, hi lhs (by simp [Instruction.operands]) frame,
      hi rhs (by simp [Instruction.operands]) frame, hh]
  | icmp pred lhs rhs | fcmp pred lhs rhs =>
    rw [evaluate, evaluate, hi lhs (by simp [Instruction.operands]) frame,
      hi rhs (by simp [Instruction.operands]) frame]
  | alloca allocated count =>
    rw [evaluate, evaluate, slotCount_eq fun v hv => hi v (by simpa [Instruction.operands] using hv),
      ht, hh]
  | load ptr => rw [evaluate, evaluate, hi ptr (by simp [Instruction.operands]) frame]
  | store value ptr =>
    rw [evaluate, evaluate, hi value (by simp [Instruction.operands]) frame,
      hi ptr (by simp [Instruction.operands]) frame]
  | elementPtr base indices =>
    rw [evaluate, evaluate, derive_eq hh (hi base (by simp [Instruction.operands]))
      fun v hv => hi v (by simp [Instruction.operands, hv])]
  | call f args =>
    have hargs : args.mapM (e'.operand frame) = args.mapM (e.operand frame) :=
      mapM_congr fun v hv => hi v hv frame
    rw [evaluate, evaluate, hc f args rfl, hargs]
  | cast op value => rw [evaluate, evaluate, hi value (by simp [Instruction.operands]) frame, ht]
  | extractValue aggregate index =>
    rw [evaluate, evaluate, (hi aggregate (by simp [Instruction.operands])).members_eq]
  | insertValue aggregate element index =>
    rw [evaluate, evaluate, (hi aggregate (by simp [Instruction.operands])).members_eq,
      hi element (by simp [Instruction.operands]) frame]
  | extractElement vector index =>
    rw [evaluate, evaluate, (hi vector (by simp [Instruction.operands])).members_eq,
      (hi index (by simp [Instruction.operands])).wordOperand_eq]
  | insertElement vector element index =>
    rw [evaluate, evaluate, (hi vector (by simp [Instruction.operands])).members_eq,
      hi element (by simp [Instruction.operands]) frame,
      (hi index (by simp [Instruction.operands])).wordOperand_eq]
  | shuffle lhs rhs mask =>
    rw [evaluate, evaluate, (hi lhs (by simp [Instruction.operands])).members_eq,
      (hi rhs (by simp [Instruction.operands])).members_eq,
      (hi mask (by simp [Instruction.operands])).members_eq]
  | select cond thenValue elseValue =>
    rw [evaluate, evaluate, hi cond (by simp [Instruction.operands]) frame,
      hi thenValue (by simp [Instruction.operands]) frame,
      hi elseValue (by simp [Instruction.operands]) frame]
  | branch _ | condBranch _ _ _ | switch _ _ _ | phi _ | ret _ | unreachable => rfl

theorem switchTarget_eq {word : UInt64} {default : BlockId} {cases : List (ValueId × BlockId)}
    (hc : ∀ c ∈ cases, SameRead e e' c.1) :
    e'.switchTarget frame word default cases = e.switchTarget frame word default cases := by
  induction cases with
  | nil => rfl
  | cons c cases ih =>
    rw [switchTarget, switchTarget, (hc c (by simp)).wordOperand_eq,
      ih fun c hc' => hc c (by simp [hc'])]

/-! ### Blocks -/

/-- Instructions that run alike: phis that take the same on every edge from some blocks, or the same
instruction, which calls only some functions. -/
inductive SameInstruction (e e' : Setting) (F : FunctionId → Prop) (S : BlockId → Prop) :
    Instruction → Instruction → Prop
  | phi {incoming incoming' : List (BlockId × ValueId)} :
    (∀ b, S b → incoming'.lookup b = incoming.lookup b) →
    (∀ p ∈ incoming, S p.1 → SameRead e e' p.2) →
    SameInstruction e e' F S (.phi incoming) (.phi incoming')
  | other {i : Instruction} : i.isPhi = false → (∀ v ∈ i.operands, SameRead e e' v) →
    (∀ f args, i = .call f args → F f) → SameInstruction e e' F S i i

/-- An instruction runs alike where it reads and calls alike. -/
theorem sameInstruction_self (hread : ∀ w ∈ i.operands, SameRead e e' w)
    (hcall : ∀ f args, i = .call f args → F f) : SameInstruction e e' F S i i := by
  by_cases hphi : ∃ incoming, i = .phi incoming
  · obtain ⟨incoming, rfl⟩ := hphi
    exact .phi (fun _ _ => rfl) fun p hp _ => hread p.2 (List.mem_map_of_mem hp)
  · refine .other ?_ hread hcall
    cases i with
    | phi incoming => exact (hphi ⟨incoming, rfl⟩).elim
    | _ => rfl

/-- Values that are instructions that run alike, or no instructions at all. -/
def SameCode (e e' : Setting) (F : FunctionId → Prop) (S : BlockId → Prop) (v : ValueId) : Prop :=
  e'.module.typeOf v = e.module.typeOf v ∧
    Option.Rel (SameInstruction e e' F S) (e.module.instruction? v) (e'.module.instruction? v)

theorem readPhis_eq {previous : Option BlockId} {l : List ValueId}
    (hname : e'.module.functionName f = e.module.functionName f)
    (hlabel : e'.module.label b = e.module.label b)
    (hprev : ∀ p ∈ previous, S p ∧ e'.module.label p = e.module.label p)
    (hl : ∀ v ∈ l, SameCode e e' F S v) :
    e'.readPhis f b previous frame l = e.readPhis f b previous frame l := by
  induction l with
  | nil => rfl
  | cons v l ih =>
    have hrest := ih fun w hw => hl w (by simp [hw])
    obtain ⟨-, hv⟩ := hl v (by simp)
    generalize hi : e.module.instruction? v = x at hv
    generalize hi' : e'.module.instruction? v = x' at hv
    cases hv with
    | none => rw [readPhis, readPhis, hi, hi']
    | some hs =>
      cases hs with
      | phi hlook hread =>
        rename_i incoming incoming'
        rw [readPhis_phi e hi, readPhis_phi e' hi', hrest]
        refine congrArg (· >>= _) ?_
        unfold readPhi
        cases previous with
        | none => dsimp only; rw [hname]
        | some source =>
          obtain ⟨hsource, hsame⟩ := hprev source rfl
          dsimp only
          rw [hlook source hsource, hlabel, hsame]
          cases hlookup : incoming.lookup source with
          | none => rfl
          | some w => dsimp only; rw [hread _ (mem_of_lookup hlookup) hsource frame]
      | other hphi _ _ =>
        rename_i i _ _
        have stop (e : Setting) (h : e.module.instruction? v = some i) :
            ∀ w ∈ (v :: l).head?, ∀ i ∈ e.module.instruction? w, i.isPhi = false := by
          intro w hw j hj
          obtain rfl : v = w := by simpa using hw
          obtain rfl : i = j := by simpa [h] using hj
          exact hphi
        rw [readPhis_stop e (stop e hi), readPhis_stop e' (stop e' hi')]

theorem runInstructions_eq {l : List ValueId} (hh : e'.host = e.host) (hlimits : e'.limits = e.limits)
    (ht : e'.module.types = e.module.types)
    (hname : e'.module.functionName f = e.module.functionName f)
    (hlabel : e'.module.label b = e.module.label b) (hc : ∀ g, F g → callee' g = callee g)
    (hl : ∀ v ∈ l, SameCode e e' F S v) :
    e'.runInstructions callee' f b l frame = e.runInstructions callee f b l frame := by
  induction l generalizing frame with
  | nil => rw [runInstructions, runInstructions, hlabel, hname]
  | cons v l ih =>
    have hrest (frame : Frame) := @ih frame fun w hw => hl w (by simp [hw])
    obtain ⟨htype, hv⟩ := hl v (by simp)
    rw [runInstructions, runInstructions, hlimits]
    refine bind_congr fun _ => ?_
    generalize e.module.instruction? v = x at hv
    generalize e'.module.instruction? v = x' at hv
    cases hv with
    | none => rfl
    | some hs =>
      cases hs with
      | phi _ _ => dsimp only; rw [hlabel]
      | other hphi hread hcall =>
        rename_i i
        cases i with
        | branch dest => rfl
        | condBranch cond thenDest elseDest =>
          dsimp only
          rw [hread cond (by simp [Instruction.operands]) frame]
        | switch value default cases =>
          dsimp only
          rw [(hread value (by simp [Instruction.operands])).wordOperand_eq]
          refine bind_congr fun word => congrArg (· >>= _) (switchTarget_eq fun c hc => ?_)
          exact hread c.1 (by simpa [Instruction.operands] using .inr ⟨c.2, hc⟩)
        | ret value =>
          cases value with
          | none => rfl
          | some value => dsimp only; rw [hread value (by simp [Instruction.operands]) frame]
        | unreachable => dsimp only; rw [hname]
        | phi incoming => cases hphi
        | _ =>
          dsimp only
          rw [htype, evaluate_eq hh ht hread fun g args hg => hc g (hcall g args hg)]
          exact bind_congr fun d => hrest _

/-- Code behind phis is part of the code. -/
theorem readPhis_sublist {previous : Option BlockId} (l : List ValueId) :
    Run.Ends (e.readPhis f b previous frame l) (fun r => ∀ v ∈ r.2, v ∈ l) fun _ => True := by
  obtain ⟨phis, rest, rfl, hphis, hrest⟩ := phis_split e.module l
  refine (readPhis_rest e hphis hrest).mono (fun r hr => ?_) fun _ _ => trivial
  rw [hr]
  exact fun v hv => List.mem_append_right _ hv

/-! ### Functions -/

/-- The same function from outside: its signature, and where its body begins if it has one. -/
structure SameHead (e e' : Setting) (f : FunctionId) : Prop where
  name : e'.module.functionName f = e.module.functionName f
  type : (e'.module.function f).type = (e.module.function f).type
  params : e'.module.params f = e.module.params f
  isRemoved : e'.module.isRemoved f = e.module.isRemoved f
  isDeclaration : e'.module.isDeclaration f = e.module.isDeclaration f
  entry : e'.module.entry? f = e.module.entry? f

theorem sameHead_of_head {m m' : Module} {host : Host} {limits : Limits}
    (h : m'.head f = m.head f) (hd : m'.isDeclaration f = m.isDeclaration f)
    (he : m'.entry? f = m.entry? f) :
    SameHead ⟨m, host, limits⟩ ⟨m', host, limits⟩ f where
  name := functionName_of_head h
  type := functionType_of_head h
  params := params_of_head h
  isRemoved := isRemoved_of_head h
  isDeclaration := hd
  entry := he

/-- Settings that agree on some functions and on some of their blocks: on those that control may come
by when it starts in one of these functions. -/
structure AgreesOn (e e' : Setting) (F : FunctionId → Prop) (B : FunctionId → BlockId → Prop) :
    Prop where
  host : e'.host = e.host
  limits : e'.limits = e.limits
  types : e'.module.types = e.module.types
  head : ∀ f, F f → SameHead e e' f
  entry : ∀ f, F f → ∀ b ∈ e.module.entry? f, B f b
  inside : ∀ f b, B f b → b ∈ e.module.blocksOf f
  closed : ∀ f b, B f b → ∀ s ∈ e.module.successors b, B f s
  label : ∀ f b, B f b → e'.module.label b = e.module.label b
  instructions : ∀ f b, B f b → e'.module.instructions b = e.module.instructions b
  code : ∀ f b, B f b → ∀ v ∈ e.module.instructions b, SameCode e e' F (B f) v

namespace AgreesOn

variable {o : Order} (h : e.AgreesOn e' F B)
include h

theorem runBlock_eq {previous : Option BlockId} (hf : F f) (hb : B f b)
    (hprev : ∀ p ∈ previous, B f p) (hc : ∀ g, F g → callee' g = callee g) :
    e'.runBlock callee' f previous b frame = e.runBlock callee f previous b frame := by
  have hname := (h.head f hf).name
  have hlabel := h.label f b hb
  unfold runBlock
  rw [h.instructions f b hb, readPhis_eq hname hlabel
    (fun p hp => ⟨hprev p hp, h.label f p (hprev p hp)⟩) (h.code f b hb)]
  refine bind_congr_of_ends (readPhis_sublist _) fun r hr => ?_
  exact runInstructions_eq h.host h.limits h.types hname hlabel hc fun v hv => h.code f b hb v (hr v hv)

/-- Control stays among the blocks agreed on, so the same blocks follow each other. -/
theorem runBlocks_eq {fuel : Nat} {previous : Option BlockId} (ho : e.module.Ordered o)
    (hv : e.module.Verified f) (ha : e.Answers callee) (hf : F f) (hb : B f b)
    (hprev : ∀ p ∈ previous, B f p ∧ p ∈ e.module.predecessors f b)
    (hc : ∀ g, F g → callee' g = callee g) :
    e'.runBlocks callee' f fuel previous b frame = e.runBlocks callee f fuel previous b frame := by
  induction fuel generalizing previous b frame with
  | zero =>
    rw [Setting.runBlocks_eq, Setting.runBlocks_eq,
      h.runBlock_eq hf hb (fun p hp => (hprev p hp).1) hc, h.limits]
  | succ fuel ih =>
    have hin := h.inside f b hb
    rw [Setting.runBlocks_eq, Setting.runBlocks_eq,
      h.runBlock_eq hf hb (fun p hp => (hprev p hp).1) hc]
    have hends : Run.Ends (e.runBlock callee f previous b frame) _ e.Blames :=
      block_ends ho ha hv hin fun p hp => (hprev p hp).2
    refine bind_congr_of_ends hends fun flow hflow => ?_
    cases flow with
    | done result => rfl
    | jump dest frame =>
      have hdest := hflow dest frame rfl
      refine ih (h.closed f b hb dest hdest) ?_
      rintro p ⟨⟩
      exact ⟨hb, by simp [predecessors, hin, hdest]⟩

theorem execute_eq {args : List Datum} (ho : e.module.Ordered o) (hv : e.module.Verified f)
    (ha : e.Answers callee) (hf : F f) (hc : ∀ g, F g → callee' g = callee g) :
    e'.execute callee' f args = e.execute callee f args := by
  have hhead := h.head f hf
  unfold execute
  rw [hhead.entry, hhead.name, hhead.params, h.limits]
  split
  · rfl
  · rename_i entry hentry
    exact h.runBlocks_eq ho hv ha hf (h.entry f hf entry hentry) (by simp) hc

theorem callHost_eq {args : List Datum} (hf : F f) : e'.callHost f args = e.callHost f args := by
  have hhead := h.head f hf
  unfold callHost resultType
  rw [hhead.name, hhead.type, h.types, h.host]

/-- A call agreed on does the same to every machine. -/
theorem call_eq (ho : e.module.Ordered o) (hv : e.module.verify = .ok ()) (fuel : Nat) (hf : F f) :
    e'.call fuel f = e.call fuel f := by
  induction fuel generalizing f with
  | zero =>
    funext args
    have hhead := h.head f hf
    rw [call, call, hhead.isRemoved, hhead.isDeclaration, hhead.name, h.callHost_eq hf, h.limits]
  | succ fuel ih =>
    funext args
    have hhead := h.head f hf
    rw [call, call, hhead.isRemoved, hhead.isDeclaration, hhead.name, h.callHost_eq hf, h.limits]
    by_cases hr : e.module.isRemoved f
    · simp only [hr, if_true]
      rfl
    · by_cases hd : e.module.isDeclaration f
      · simp only [hd, if_true]
      · have hlive : f ∈ e.module.liveFunctions :=
          mem_liveFunctions.mpr ⟨hasFunction_of_defined (by simpa using hd), by simpa using hr⟩
        rw [h.execute_eq ho (verified_of_verify hv hlive) (call_answers ho hv fuel) hf
          fun g hg => ih hg]

/-- A function agreed on returns the same. -/
theorem runFunction_eq (ho : e.module.Ordered o) (hv : e.module.verify = .ok ()) (hf : F f)
    (args : List Box) : e'.runFunction f args = e.runFunction f args := by
  have hhead := h.head f hf
  have hdata (params : List TypeId) : e'.arguments f params args = e.arguments f params args := by
    unfold arguments
    rw [h.types, hhead.name]
  have hstart : e'.start = e.start := by
    unfold start
    rw [h.limits]
  unfold runFunction
  simp only [hdata, hhead.isRemoved, hhead.type, hhead.name, h.types, h.limits, hstart,
    h.call_eq ho hv _ hf]

end AgreesOn
end Setting
end SsaKit
