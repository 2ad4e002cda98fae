import SsaKit.Proofs.Agreement
import SsaKit.Proofs.Origin
import SsaKit.Proofs.Search
import SsaKit.Transform.Liveness

/-! The symbols that a module needs: the least sets that the search for them computes. -/
namespace SsaKit

namespace Module

/-- A value is what another one is made of or starts with. -/
def HasPart (m : Module) (v w : ValueId) : Prop := w ∈ (m.kindOf v).parts

/-- Functions with a body that are visible from outside, and what needed functions call. -/
inductive NeedsFunction (m : Module) : FunctionId → Prop
  | visible {f : FunctionId} : f ∈ m.definedFunctions → (m.linkage f).isVisible →
    NeedsFunction m f
  | called {f callee : FunctionId} {v : ValueId} {args : List ValueId} : NeedsFunction m f →
    v ∈ m.instructionsOf f → m.instruction? v = some (.call callee args) → NeedsFunction m callee

/-- Visible globals with a content, what needed functions read, and the parts of all these. -/
inductive NeedsValue (m : Module) : ValueId → Prop
  | visible {v : ValueId} {g : Global} : v ∈ m.globals → m.kindOf v = .global g →
    g.linkage.isVisible → g.initializer.isSome → NeedsValue m v
  | read {f : FunctionId} {v w : ValueId} {i : Instruction} : m.NeedsFunction f →
    v ∈ m.instructionsOf f → m.instruction? v = some i → w ∈ i.operands → NeedsValue m w
  | part {v w : ValueId} : NeedsValue m v → m.HasPart v w → NeedsValue m w

/-- A global that a value leads to through aggregates alone. -/
inductive Exposes (m : Module) : ValueId → ValueId → Prop
  | self {v : ValueId} {g : Global} : m.kindOf v = .global g → Exposes m v v
  | element {v w x : ValueId} {elements : List ValueId} : m.kindOf v = .aggregate elements →
    x ∈ elements → Exposes m x w → Exposes m v w

/-- A global is on a list with all that its content exposes. -/
def Settled (m : Module) (globals : List ValueId) (v : ValueId) : Prop :=
  ∀ w, m.HasPart v w → ∀ x, m.Exposes w x → x ∈ globals

/-- Globals at hand, none twice. -/
structure Distinct (m : Module) (globals : List ValueId) : Prop where
  nodup : globals.Nodup
  has : ∀ v ∈ globals, m.values.Has v

end Module

namespace Transform

open SsaKit.Module Needed

variable {m : Module} {n : Needed} {f : FunctionId} {v w : ValueId} {vs ws : List ValueId}
  {globals globals' globals'' : List ValueId} {fuel : Nat}

/-! ### Values -/

/-- What adding some values does to the globals entered so far. -/
structure Gathers (m : Module) (vs globals globals' : List ValueId) : Prop where
  mono : ∀ w ∈ globals, w ∈ globals'
  distinct : m.Distinct globals → m.Distinct globals'
  length : globals.length ≤ globals'.length
  sound : (∀ v ∈ vs, m.NeedsValue v) → (∀ w ∈ globals, m.NeedsValue w) →
    ∀ w ∈ globals', m.NeedsValue w
  exposed : ∀ v ∈ vs, ∀ w, m.Exposes v w → w ∈ globals'
  settled : ∀ w ∈ globals', w ∉ globals → m.Settled globals' w

theorem gathers_nil (globals : List ValueId) : Gathers m [] globals globals :=
  ⟨fun _ h => h, id, Nat.le_refl _, fun _ h => h, by simp, fun _ h hn => absurd h hn⟩

theorem Gathers.trans (h : Gathers m vs globals globals')
    (h' : Gathers m ws globals' globals'') : Gathers m (vs ++ ws) globals globals'' where
  mono w hw := h'.mono w (h.mono w hw)
  distinct hd := h'.distinct (h.distinct hd)
  length := Nat.le_trans h.length h'.length
  sound hv hg := h'.sound (fun v hv' => hv v (by simp [hv']))
    (h.sound (fun v hv' => hv v (by simp [hv'])) hg)
  exposed v hv w he := by
    rcases List.mem_append.mp hv with hv | hv
    · exact h'.mono w (h.exposed v hv w he)
    · exact h'.exposed v hv w he
  settled w hw hn := by
    by_cases hmid : w ∈ globals'
    · exact fun x hx y hy => h'.mono y (h.settled w hmid hn x hx y hy)
    · exact h'.settled w hw hmid

/-- Fuel for one value: what is left to enter, times the room between two entries. -/
theorem gathers_foldl {add : Needed → ValueId → Needed} (least : Nat)
    (hadd : ∀ n : Needed, m.Distinct n.globals → least ≤ n.globals.length → ∀ v ∈ vs,
      Gathers m [v] n.globals (add n v).globals)
    (hd : m.Distinct n.globals) (hleast : least ≤ n.globals.length) :
    Gathers m vs n.globals (vs.foldl add n).globals := by
  induction vs generalizing n with
  | nil => exact gathers_nil _
  | cons v vs ih =>
    have hv := hadd n hd hleast v (by simp)
    refine hv.trans (ih (fun n hd hl w hw => hadd n hd hl w (by simp [hw])) (hv.distinct hd) ?_)
    exact Nat.le_trans hleast hv.length

theorem gathers_entered {g : Global} (hk : m.kindOf v = .global g)
    (hn : v ∉ globals) (h : Gathers m g.initializer.toList (v :: globals) globals') :
    Gathers m [v] globals globals' where
  mono w hw := h.mono w (by simp [hw])
  distinct hd := h.distinct ⟨List.nodup_cons.mpr ⟨hn, hd.nodup⟩, fun w hw => by
    rcases List.mem_cons.mp hw with rfl | hw
    · exact has_of_kindOf (by simp [hk])
    · exact hd.has w hw⟩
  length := Nat.le_of_succ_le h.length
  sound hv hg := by
    have hneed := hv v (by simp)
    refine h.sound (fun w hw => hneed.part ?_) fun w hw => ?_
    · rw [HasPart, hk]
      exact hw
    · rcases List.mem_cons.mp hw with rfl | hw
      · exact hneed
      · exact hg w hw
  exposed u hu w he := by
    obtain rfl := List.mem_singleton.mp hu
    cases he with
    | self _ => exact h.mono u (by simp)
    | element hk' _ _ =>
      rw [hk] at hk'
      cases hk'
  settled w hw hout := by
    by_cases hwv : w = v
    · subst hwv
      intro x hx y hy
      rw [HasPart, hk] at hx
      exact h.exposed x hx y hy
    · exact h.settled w hw (by simp [hwv, hout])

theorem gathers_elements {elements : List ValueId} (hk : m.kindOf v = .aggregate elements)
    (h : Gathers m elements globals globals') : Gathers m [v] globals globals' where
  mono := h.mono
  distinct := h.distinct
  length := h.length
  sound hv := h.sound fun w hw => (hv v (by simp)).part (by rw [HasPart, hk]; exact hw)
  exposed u hu w he := by
    obtain rfl := List.mem_singleton.mp hu
    cases he with
    | self hk' =>
      rw [hk] at hk'
      cases hk'
    | element hk' hx he =>
      rw [hk] at hk'
      cases hk'
      exact h.exposed _ hx w he
  settled := h.settled

theorem gathers_refl (h : ∀ w, m.Exposes v w → w ∈ globals) : Gathers m [v] globals globals where
  mono _ hw := hw
  distinct := id
  length := Nat.le_refl _
  sound _ hg := hg
  exposed u hu := by
    rw [List.mem_singleton.mp hu]
    exact h
  settled w hw hn := absurd hw hn

/-- Every entry of a global leaves one less to enter, and below an entry each aggregate stands behind
its elements, so the fuel that is left always covers both. -/
theorem addValue_gathers (hs : m.Sound) (hg : m.Grounded) (hd : m.Distinct n.globals)
    (hv : m.values.Has v)
    (hfuel : (m.values.size + 1) * (m.values.size - n.globals.length) + v.index + 1 ≤ fuel) :
    Gathers m [v] n.globals (addValue m fuel n v).globals := by
  induction fuel generalizing n v with
  | zero => omega
  | succ fuel ih =>
    have hfits := (hs.values v hv).2
    unfold addValue
    split
    · rename_i g hk
      rw [hk] at hfits
      by_cases hin : v ∈ n.globals
      · rw [if_pos (by simpa using hin)]
        refine gathers_refl fun w he => ?_
        cases he with
        | self _ => exact hin
        | element hk' _ _ =>
          rw [hk] at hk'
          cases hk'
      · rw [if_neg (by simpa using hin)]
        have hd' : m.Distinct (v :: n.globals) := ⟨List.nodup_cons.mpr ⟨hin, hd.nodup⟩, fun w hw => by
          rcases List.mem_cons.mp hw with rfl | hw
          · exact hv
          · exact hd.has w hw⟩
        have hroom : n.globals.length + 1 ≤ m.values.size := by
          simpa using Handle.length_le hd'.nodup hd'.has
        have hless : (m.values.size + 1) * (m.values.size - n.globals.length) =
            (m.values.size + 1) * (m.values.size - (n.globals.length + 1)) +
              (m.values.size + 1) := by
          rw [← Nat.mul_succ]
          congr 1
          omega
        refine gathers_entered hk hin (gathers_foldl (n.globals.length + 1)
          (n := { n with globals := v :: n.globals }) (fun k hk hleast w hw => ?_) hd' (by simp))
        obtain ⟨hw', -⟩ := hfits.2.2 w (by simpa using hw)
        refine ih hk hw' ?_
        have hmono := Nat.mul_le_mul_left (m.values.size + 1)
          (show m.values.size - k.globals.length ≤ m.values.size - (n.globals.length + 1) by omega)
        have hindex : w.index < m.values.size := hw'
        omega
    · rename_i elements hk
      rw [hk] at hfits
      refine gathers_elements hk (gathers_foldl n.globals.length
        (fun k hk' hleast w hw => ?_) hd (Nat.le_refl _))
      refine ih hk' (hfits.1 w hw).1 ?_
      have hmono := Nat.mul_le_mul_left (m.values.size + 1)
        (show m.values.size - k.globals.length ≤ m.values.size - n.globals.length by omega)
      have hindex := hg v elements hk w hw
      omega
    · rename_i hglobal haggregate
      refine gathers_refl fun w he => ?_
      cases he with
      | self hk => exact absurd hk (hglobal _)
      | element hk _ _ => exact absurd hk (haggregate _)

theorem addOperand_gathers (hs : m.Sound) (hg : m.Grounded) (hd : m.Distinct n.globals)
    (hv : m.values.Has v) : Gathers m [v] n.globals (addOperand m n v).globals := by
  refine addValue_gathers hs hg hd hv ?_
  have hmono := Nat.mul_le_mul_left (m.values.size + 1)
    (show m.values.size - n.globals.length ≤ m.values.size by omega)
  have hindex : v.index < m.values.size := hv
  have hfuel : valueFuel m = (m.values.size + 1) * m.values.size + (m.values.size + 1) := by
    rw [valueFuel, ← Nat.mul_succ]
  omega

theorem addOperands_gathers (hs : m.Sound) (hg : m.Grounded) (hd : m.Distinct n.globals)
    (hv : ∀ v ∈ vs, m.values.Has v) :
    Gathers m vs n.globals (vs.foldl (addOperand m) n).globals :=
  gathers_foldl 0 (fun _ hd _ v hmem => addOperand_gathers hs hg hd (hv v hmem)) hd
    (Nat.zero_le _)

theorem foldl_keeps {α β : Type} (read : Needed → β) {add : Needed → α → Needed} {xs : List α}
    (h : ∀ n, ∀ x ∈ xs, read (add n x) = read n) : read (xs.foldl add n) = read n := by
  induction xs generalizing n with
  | nil => rfl
  | cons x xs ih => rw [List.foldl_cons, ih fun n y hy => h n y (by simp [hy]), h n x (by simp)]

/-- Values are entered apart from functions. -/
theorem addValue_functions : (addValue m fuel n v).functions = n.functions ∧
    (addValue m fuel n v).pending = n.pending := by
  induction fuel generalizing n v with
  | zero => exact ⟨rfl, rfl⟩
  | succ fuel ih =>
    have hlist (n : Needed) (vs : List ValueId) :
        (vs.foldl (addValue m fuel) n).functions = n.functions ∧
          (vs.foldl (addValue m fuel) n).pending = n.pending :=
      ⟨foldl_keeps functions fun _ _ _ => ih.1,
        foldl_keeps pending fun _ _ _ => ih.2⟩
    unfold addValue
    split
    · split
      · exact ⟨rfl, rfl⟩
      · exact hlist _ _
    · exact hlist _ _
    · exact ⟨rfl, rfl⟩

theorem addOperands_functions (vs : List ValueId) :
    (vs.foldl (addOperand m) n).functions = n.functions ∧
      (vs.foldl (addOperand m) n).pending = n.pending :=
  ⟨foldl_keeps functions fun _ _ _ => addValue_functions.1,
    foldl_keeps pending fun _ _ _ => addValue_functions.2⟩

/-! ### Functions -/

theorem widens_addFunction (n : Needed) (f : FunctionId) :
    Widens [f] n.functions n.pending (n.addFunction f).functions (n.addFunction f).pending := by
  unfold Needed.addFunction
  by_cases hf : f ∈ n.functions
  · rw [if_pos (by simpa using hf)]
    exact widens_known hf
  · rw [if_neg (by simpa using hf)]
    exact widens_new hf

theorem addFunction_globals (n : Needed) (f : FunctionId) :
    (n.addFunction f).globals = n.globals := by
  unfold Needed.addFunction
  split <;> rfl

/-- The function that an instruction calls. -/
def calleeOf (m : Module) (v : ValueId) : List FunctionId :=
  match m.instruction? v with
  | some (.call callee _) => [callee]
  | _ => []

theorem mem_calleeOf : f ∈ calleeOf m v ↔ ∃ args, m.instruction? v = some (.call f args) := by
  unfold calleeOf
  split
  · rename_i callee args hi
    rw [hi, List.mem_singleton]
    constructor
    · rintro rfl
      exact ⟨args, rfl⟩
    · rintro ⟨args', he⟩
      cases he
      rfl
  · rename_i hn
    simp only [List.not_mem_nil, false_iff, not_exists]
    exact fun args he => hn f args he

/-- What reading some code does to a search. -/
structure Collects (m : Module) (code : List ValueId) (n n' : Needed) : Prop where
  functions : Widens (code.flatMap (calleeOf m)) n.functions n.pending n'.functions n'.pending
  globals : Gathers m (code.flatMap (readOf m)) n.globals n'.globals

theorem addInstruction_collects (hs : m.Sound) (hg : m.Grounded) (hd : m.Distinct n.globals) :
    Collects m [v] n (addInstruction m n v) := by
  have plain {n₁ : Needed} {i : Instruction} (hi : m.instruction? v = some i)
      (hf : Widens (calleeOf m v) n.functions n.pending n₁.functions n₁.pending)
      (heq : n₁.globals = n.globals) :
      Collects m [v] n (i.operands.foldl (addOperand m) n₁) := by
    obtain ⟨hfunctions, hpending⟩ := addOperands_functions (m := m) (n := n₁) i.operands
    have hread : readOf m v = i.operands := by simp [readOf, hi]
    constructor
    · rw [hfunctions, hpending, List.flatMap_singleton]
      exact hf
    · rw [List.flatMap_singleton, hread, ← heq]
      exact addOperands_gathers hs hg (heq ▸ hd) (hs.operands_has hi)
  unfold addInstruction
  cases hi : m.instruction? v with
  | none =>
    have hcallee : calleeOf m v = [] := by simp [calleeOf, hi]
    have hread : readOf m v = [] := by simp [readOf, hi]
    constructor
    · rw [List.flatMap_singleton, hcallee]
      exact widens_nil _ _
    · rw [List.flatMap_singleton, hread]
      exact gathers_nil _
  | some i =>
    cases i with
    | call callee args =>
      refine plain hi ?_ (addFunction_globals n callee)
      have hcallee : calleeOf m v = [callee] := by simp [calleeOf, hi]
      rw [hcallee]
      exact widens_addFunction n callee
    | _ =>
      refine plain hi ?_ rfl
      have hcallee : calleeOf m v = [] := by simp [calleeOf, hi]
      rw [hcallee]
      exact widens_nil _ _

theorem addInstructions_collects (hs : m.Sound) (hg : m.Grounded) (hd : m.Distinct n.globals)
    (code : List ValueId) : Collects m code n (code.foldl (addInstruction m) n) := by
  induction code generalizing n with
  | nil => exact ⟨widens_nil _ _, gathers_nil _⟩
  | cons v code ih =>
    have hv := addInstruction_collects hs hg (v := v) hd
    have hcode := ih (hv.globals.distinct hd)
    have hf := hv.functions.trans hcode.functions
    have hgl := hv.globals.trans hcode.globals
    rw [← List.flatMap_append] at hf hgl
    exact ⟨hf, hgl⟩

/-! ### The search -/

/-- A search on its way: all that was found is needed, and what the bodies that are no longer pending
lead to was found. -/
structure Finding (m : Module) (n : Needed) : Prop where
  nodup : n.functions.Nodup
  pending : ∀ f ∈ n.pending, f ∈ n.functions
  distinct : m.Distinct n.globals
  functions : ∀ f ∈ n.functions, m.NeedsFunction f
  globals : ∀ v ∈ n.globals, m.NeedsValue v
  visibleFunctions : ∀ f ∈ m.definedFunctions, (m.linkage f).isVisible → f ∈ n.functions
  visibleGlobals : ∀ v ∈ m.globals, ∀ g, m.kindOf v = .global g → g.linkage.isVisible →
    g.initializer.isSome → v ∈ n.globals
  settled : ∀ v ∈ n.globals, m.Settled n.globals v
  called : ∀ f ∈ n.functions, f ∉ n.pending → ∀ v ∈ m.instructionsOf f,
    ∀ callee ∈ calleeOf m v, callee ∈ n.functions
  read : ∀ f ∈ n.functions, f ∉ n.pending → ∀ v ∈ m.instructionsOf f,
    ∀ w ∈ readOf m v, ∀ x, m.Exposes w x → x ∈ n.globals

theorem Gathers.settled_all (h : Gathers m vs globals globals')
    (hs : ∀ v ∈ globals, m.Settled globals v) : ∀ v ∈ globals', m.Settled globals' v := by
  intro v hv
  by_cases hold : v ∈ globals
  · exact fun w hw x hx => h.mono x (hs v hold w hw x hx)
  · exact h.settled v hv hold

theorem Finding.round {pending : List FunctionId} (hs : m.Sound) (hg : m.Grounded)
    (h : Finding m n) (hp : n.pending = f :: pending) :
    Finding m ((m.instructionsOf f).foldl (addInstruction m) { n with pending }) := by
  obtain ⟨hw, hgl⟩ := addInstructions_collects hs hg (n := { n with pending }) h.distinct
    (m.instructionsOf f)
  have hf : f ∈ n.functions := h.pending f (by simp [hp])
  have hneed := h.functions f hf
  have old : ∀ k, k ∈ ((m.instructionsOf f).foldl (addInstruction m) { n with pending }).functions →
      k ∉ ((m.instructionsOf f).foldl (addInstruction m) { n with pending }).pending →
      k = f ∨ k ∈ n.functions ∧ k ∉ n.pending := fun k hk hn => by
    rw [hw.mem_pending] at hn
    push Not at hn
    obtain ⟨hn, hnew⟩ := hn
    have hseen : k ∈ n.functions := ((hw.mem_seen k).mp hk).elim id hnew
    by_cases hkf : k = f
    · exact .inl hkf
    · exact .inr ⟨hseen, by rw [hp]; exact fun hmem => (List.mem_cons.mp hmem).elim hkf hn⟩
  refine ⟨hw.nodup h.nodup, fun k hk => ?_, hgl.distinct h.distinct, fun k hk => ?_, ?_,
    fun k hk hvis => (hw.mem_seen k).mpr (.inl (h.visibleFunctions k hk hvis)),
    fun v hv g hk hvis hinit => hgl.mono v (h.visibleGlobals v hv g hk hvis hinit),
    hgl.settled_all h.settled, fun k hk hn v hv callee hcallee => ?_,
    fun k hk hn v hv w hw' x hx => ?_⟩
  · rw [hw.mem_seen]
    rcases (hw.mem_pending k).mp hk with hk | ⟨hk, -⟩
    · exact .inl (h.pending k (by simp [hp, hk]))
    · exact .inr hk
  · rcases (hw.mem_seen k).mp hk with hk | hk
    · exact h.functions k hk
    · obtain ⟨v, hv, hk⟩ := List.mem_flatMap.mp hk
      obtain ⟨args, hi⟩ := mem_calleeOf.mp hk
      exact hneed.called hv hi
  · refine hgl.sound (fun w hw' => ?_) h.globals
    obtain ⟨v, hv, hw'⟩ := List.mem_flatMap.mp hw'
    obtain ⟨i, hi, hw'⟩ := mem_readOf.mp hw'
    exact .read hneed hv hi hw'
  · rcases old k hk hn with rfl | ⟨hk, hn⟩
    · exact (hw.mem_seen callee).mpr (.inr (List.mem_flatMap.mpr ⟨v, hv, hcallee⟩))
    · exact (hw.mem_seen callee).mpr (.inl (h.called k hk hn v hv callee hcallee))
  · rcases old k hk hn with rfl | ⟨hk, hn⟩
    · exact hgl.exposed w (List.mem_flatMap.mpr ⟨v, hv, hw'⟩) x hx
    · exact hgl.mono x (h.read k hk hn v hv w hw' x hx)

/-- A search with nothing pending has found all that is needed. -/
theorem Finding.complete_functions (h : Finding m n) (hp : n.pending = []) :
    f ∈ n.functions ↔ m.NeedsFunction f := by
  refine ⟨h.functions f, fun hf => ?_⟩
  induction hf with
  | visible hd hv => exact h.visibleFunctions _ hd hv
  | called _ hv hi ih => exact h.called _ ih (by simp [hp]) _ hv _ (mem_calleeOf.mpr ⟨_, hi⟩)

theorem Finding.exposes (h : Finding m n) (hp : n.pending = []) (hv : m.NeedsValue v) :
    ∀ w, m.Exposes v w → w ∈ n.globals := by
  induction hv with
  | visible hv hk hvis hinit =>
    intro w he
    cases he with
    | self _ => exact h.visibleGlobals _ hv _ hk hvis hinit
    | element hk' _ _ =>
      rw [hk] at hk'
      cases hk'
  | read hf hv hi hw =>
    exact h.read _ ((h.complete_functions hp).mpr hf) (by simp [hp]) _ hv _
      (mem_readOf.mpr ⟨_, hi, hw⟩)
  | @part v x _ hx ih =>
    intro w he
    have hx' := hx
    unfold HasPart ValueKind.parts at hx
    split at hx
    · rename_i elements hk
      exact ih w (.element hk hx he)
    · rename_i g hk
      exact h.settled v (ih v (.self hk)) x hx' w he
    · cases hx

theorem Finding.complete_globals {g : Global} (h : Finding m n) (hp : n.pending = [])
    (hk : m.kindOf v = .global g) : v ∈ n.globals ↔ m.NeedsValue v :=
  ⟨h.globals v, fun hv => h.exposes hp hv v (.self hk)⟩

theorem NeedsFunction.hasFunction (hs : m.Sound) (hf : m.NeedsFunction f) : m.HasFunction f := by
  cases hf with
  | visible hd _ => exact (mem_liveFunctions.mp (mem_definedFunctions.mp hd).1).1
  | called _ _ hi => exact (hs.instructionFits hi).1

/-- Every round takes one function off those that are pending, and only functions at hand are found. -/
theorem close_finding (hs : m.Sound) (hg : m.Grounded) (h : Finding m n)
    (hfuel : m.functions.size + 1 + n.pending.length ≤ fuel + n.functions.length) :
    Finding m (close m fuel n) ∧ (close m fuel n).pending = [] := by
  induction fuel generalizing n with
  | zero =>
    have hbound : n.functions.length ≤ m.functions.size :=
      Handle.length_le h.nodup fun f hf => NeedsFunction.hasFunction hs (h.functions f hf)
    omega
  | succ fuel ih =>
    unfold close
    split
    · rename_i hp
      exact ⟨h, hp⟩
    · rename_i f pending hp
      refine ih (h.round hs hg hp) ?_
      have hw := (addInstructions_collects hs hg (n := { n with pending }) h.distinct
        (m.instructionsOf f)).functions.length
      simp only [hp, List.length_cons] at hfuel
      dsimp only at hw
      omega

theorem widens_addFunctions (n : Needed) (fs : List FunctionId) :
    Widens fs n.functions n.pending (fs.foldl Needed.addFunction n).functions
      (fs.foldl Needed.addFunction n).pending := by
  induction fs generalizing n with
  | nil => exact widens_nil _ _
  | cons f fs ih => exact (widens_addFunction n f).trans (ih (n.addFunction f))

/-- The functions that a search starts with. -/
def visibleFunctions (m : Module) : List FunctionId :=
  m.definedFunctions.filter fun f => (m.linkage f).isVisible

/-- The globals that a search starts with. -/
def visibleGlobals (m : Module) : List ValueId :=
  m.globals.filter fun v =>
    (m.global? v).any fun g => g.linkage.isVisible && g.initializer.isSome

theorem mem_visibleFunctions :
    f ∈ visibleFunctions m ↔ f ∈ m.definedFunctions ∧ (m.linkage f).isVisible := by
  simp [visibleFunctions]

theorem mem_visibleGlobals : v ∈ visibleGlobals m ↔ v ∈ m.globals ∧
    ∃ g, m.kindOf v = .global g ∧ g.linkage.isVisible ∧ g.initializer.isSome := by
  simp [visibleGlobals, Option.any_eq_true, global?_eq_some]

/-- A search starts with what is visible, and with all of its functions pending. -/
theorem roots_collects (hs : m.Sound) (hg : m.Grounded) :
    Widens (visibleFunctions m) [] [] (roots m).functions (roots m).pending ∧
      Gathers m (visibleGlobals m) [] (roots m).globals := by
  have hfunctions := widens_addFunctions {} (visibleFunctions m)
  have hnone : ((visibleFunctions m).foldl Needed.addFunction {}).globals = [] :=
    foldl_keeps globals fun n f _ => addFunction_globals n f
  have hroots : roots m = (visibleGlobals m).foldl (addOperand m)
      ((visibleFunctions m).foldl Needed.addFunction {}) := rfl
  rw [hroots]
  generalize (visibleFunctions m).foldl Needed.addFunction {} = n at hfunctions hnone
  obtain ⟨hsame, hpending⟩ := addOperands_functions (m := m) (n := n) (visibleGlobals m)
  rw [hsame, hpending, ← hnone]
  refine ⟨hfunctions, addOperands_gathers hs hg ?_ fun v hv => ?_⟩
  · rw [hnone]
    exact ⟨.nil, by simp⟩
  · obtain ⟨-, g, hk, -⟩ := mem_visibleGlobals.mp hv
    exact has_of_kindOf (by simp [hk])

theorem roots_finding (hs : m.Sound) (hg : m.Grounded) :
    Finding m (roots m) ∧ (roots m).functions.length = (roots m).pending.length := by
  obtain ⟨hf, hv⟩ := roots_collects hs hg
  have mem_functions : ∀ f, f ∈ (roots m).functions ↔ f ∈ visibleFunctions m := fun f => by
    simp [hf.mem_seen]
  have mem_pending : ∀ f, f ∈ (roots m).pending ↔ f ∈ visibleFunctions m := fun f => by
    simp [hf.mem_pending]
  have all_pending {f : FunctionId} (hf : f ∈ (roots m).functions) : f ∈ (roots m).pending :=
    (mem_pending f).mpr ((mem_functions f).mp hf)
  refine ⟨⟨hf.nodup .nil, fun f hf => (mem_functions f).mpr ((mem_pending f).mp hf),
    hv.distinct ⟨.nil, by simp⟩, fun f hf => ?_, hv.sound (fun v hmem => ?_) (by simp),
    fun f hd hvis => (mem_functions f).mpr (mem_visibleFunctions.mpr ⟨hd, hvis⟩),
    fun v hmem g hk hvis hinit => ?_, hv.settled_all (by simp),
    fun f hf hn => absurd (all_pending hf) hn, fun f hf hn => absurd (all_pending hf) hn⟩,
    by simpa using hf.length⟩
  · obtain ⟨hd, hvis⟩ := mem_visibleFunctions.mp ((mem_functions f).mp hf)
    exact .visible hd hvis
  · obtain ⟨hmem, g, hk, hvis, hinit⟩ := mem_visibleGlobals.mp hmem
    exact .visible hmem hk hvis hinit
  · exact hv.exposed v (mem_visibleGlobals.mpr ⟨hmem, g, hk, hvis, hinit⟩) v (.self hk)

theorem ofModule_finding (hs : m.Sound) (hg : m.Grounded) :
    Finding m (ofModule m) ∧ (ofModule m).pending = [] := by
  obtain ⟨hroots, hlength⟩ := roots_finding hs hg
  exact close_finding hs hg hroots (by omega)

/-- The search finds exactly the needed functions. -/
theorem mem_functions_ofModule (hs : m.Sound) (hg : m.Grounded) :
    f ∈ (ofModule m).functions ↔ m.NeedsFunction f := by
  obtain ⟨h, hp⟩ := ofModule_finding hs hg
  exact h.complete_functions hp

/-- The search finds exactly the needed globals. -/
theorem mem_globals_ofModule {g : Global} (hs : m.Sound) (hg : m.Grounded)
    (hk : m.kindOf v = .global g) : v ∈ (ofModule m).globals ↔ m.NeedsValue v := by
  obtain ⟨h, hp⟩ := ofModule_finding hs hg
  exact h.complete_globals hp hk

end Transform
end SsaKit
