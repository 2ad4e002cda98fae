import SsaKit.Listing
import SsaKit.Proofs.DeletionGuard
import SsaKit.Proofs.Fixpoint
import SsaKit.Proofs.LoadedChains
import SsaKit.Proofs.TypeText

/-! The names that parameters and results are written with. Those without a name of their own get
numbers, no two of them the same one. But nobody looks whether a name is one of the numbers. -/
namespace SsaKit

namespace Module

variable {m m' : Module} {o : Order} {f : FunctionId} {v w : ValueId}
  {xs ys xs' ys' params : List ValueId} {i n : Nat}

/-! ### Parameters -/

/-- Each parameter is the argument of its position. -/
def Seated (m : Module) : Prop := ∀ f i v, (m.params f)[i]? = some v → m.kindOf v = .argument f i

theorem Extends.kindOf_argument (hx : m.Extends m') (hk : m.kindOf v = .argument f i) :
    m'.kindOf v = .argument f i := by
  have hv : m.values.Has v := has_of_kindOf (by simp [hk])
  obtain he | ⟨_, _, hg, -⟩ | ⟨_, _, hi, -⟩ := (hx.values v hv).2.2
  · exact he.trans hk
  · cases hk.symm.trans hg
  · cases hk.symm.trans hi

theorem Argues.kindOf_argument (ha : Argues f m params m') (h : params[i]? = some v) :
    m'.kindOf v = .argument f i := by
  induction ha with
  | nil => simp at h
  | snoc type ha _ ih =>
    rename_i params m₁ _
    by_cases hi : i < params.length
    · rw [List.getElem?_append_left hi] at h
      exact (extends_pushed type _).kindOf_argument (ih h)
    · rw [List.getElem?_append_right (by omega), List.getElem?_singleton] at h
      obtain ⟨hlast, rfl⟩ : i - params.length = 0 ∧ ⟨m₁.values.size⟩ = v := by simpa using h
      obtain rfl : params.length = i := by omega
      rw [kindOf, value_pushed_new]

theorem params_of_not_has (hf : ¬ m.HasFunction f) : m.params f = [] := by
  rw [params, function_of_not_has hf]
  rfl

/-- A change that brings a function brings its parameters. -/
theorem Change.kindOf_argument (hc : Change m m') (hf : ¬ m.HasFunction f)
    (h : (m'.params f)[i]? = some v) : m'.kindOf v = .argument f i := by
  have hf' : m'.HasFunction f := by
    by_contra hn
    simp [params_of_not_has hn] at h
  have hsize (he : m'.functions.size = m.functions.size) : False := hf (Nat.lt_of_lt_of_eq hf' he)
  obtain hq | hm := hc
  · cases hq with
    | addFunction m₁ name type params ha _ _ _ =>
      have hlast : f = ⟨m.functions.size⟩ := by
        have hlt : f.index < (m₁.functions.push { name, type, params }).size := hf'
        rw [Array.size_push, ha.functions_eq] at hlt
        exact congrArg Handle.mk (Nat.le_antisymm (Nat.le_of_lt_succ hlt) (Nat.le_of_not_lt hf))
      subst hlast
      have hparams : (m₁.declared name type params).params ⟨m.functions.size⟩ = params := by
        simp [Module.params, function_def, declared, ha.functions_eq]
      rw [hparams] at h
      exact ha.kindOf_argument h
    | prepare _ hp => cases hp <;> exact (hsize rfl).elim
    | link _ _ | removeFunction _ _ => exact (hsize (Array.size_modify ..)).elim
    | _ => exact (hsize rfl).elim
  · cases hm with
    | pushCode _ _ _ _ _ _ | insertCode _ _ _ _ _ _ _ | dropCode _ _ _ => exact (hsize rfl).elim
    | _ => exact (hsize (Array.size_modify ..)).elim

theorem Seated.change (h : m.Seated) (hc : Change m m') : m'.Seated := by
  intro f i v hv
  by_cases hf : m.HasFunction f
  · have hx : m.Extends m' := hc.elim Quiet.extends Move.extends
    have hparams := (hx.functions f hf).2.2
    exact hx.kindOf_argument (h f i v (hparams ▸ hv))
  · exact hc.kindOf_argument hf hv

theorem Seated.changed (h : m.Seated) (hc : Changed m m') : m'.Seated := by
  induction hc with
  | refl => exact h
  | tail _ hs ih => exact ih.change hs

theorem Seated.nodup_params (h : m.Seated) (f : FunctionId) : (m.params f).Nodup := by
  rw [List.nodup_iff_getElem?_ne_getElem?]
  intro i j hij hj he
  have hkind (k : Nat) (hk : k < (m.params f).length) :=
    h f k _ (List.getElem?_eq_getElem hk)
  have hi : i < (m.params f).length := Nat.lt_trans hij hj
  rw [List.getElem?_eq_getElem hi, List.getElem?_eq_getElem hj, Option.some_inj] at he
  have heq := (hkind i hi).symm.trans (he ▸ hkind j hj)
  have := (ValueKind.argument.inj heq).2
  omega

/-! ### Numbers in program order -/

/-- How many of the values have no name. -/
def unnamed (m : Module) (vs : List ValueId) : Nat := vs.countP fun v => (m.value v).name.isNone

/-- The name of a value with so many unnamed ones before it. -/
def localName (m : Module) (n : Nat) (v : ValueId) : String := (m.value v).name.getD (toString n)

theorem numbered_cons (n : Nat) (v : ValueId) (vs : List ValueId) :
    m.numbered n (v :: vs) = (v, m.localName n v) :: m.numbered (n + m.unnamed [v]) vs := by
  rw [numbered, localName]
  cases hn : (m.value v).name <;> simp [unnamed, hn]

theorem numbered_append (n : Nat) (xs ys : List ValueId) :
    m.numbered n (xs ++ ys) = m.numbered n xs ++ m.numbered (n + m.unnamed xs) ys := by
  induction xs generalizing n with
  | nil => rfl
  | cons v xs ih =>
    have hcount : m.unnamed (v :: xs) = m.unnamed [v] + m.unnamed xs := by
      simp [unnamed, List.countP_cons, Nat.add_comm]
    rw [List.cons_append, numbered_cons, numbered_cons, ih, hcount, Nat.add_assoc]
    rfl

theorem map_fst_numbered (n : Nat) (vs : List ValueId) : (m.numbered n vs).map Prod.fst = vs := by
  induction vs generalizing n with
  | nil => rfl
  | cons v vs ih => rw [numbered_cons, List.map_cons, ih]

theorem lookup_scope (h : m.namedValues f = xs ++ v :: ys) (hv : v ∉ ys) :
    (m.scope f).lookup v = some (m.localName (m.unnamed xs) v) := by
  have hbehind (n : Nat) : (m.numbered n ys).reverse.lookup v = none := by
    rw [List.lookup_eq_none_iff]
    intro p hp
    have hmem : p.1 ∈ (m.numbered n ys).map Prod.fst :=
      List.mem_map_of_mem (List.mem_reverse.mp hp)
    rw [map_fst_numbered] at hmem
    have hne : v ≠ p.1 := fun he => hv (he ▸ hmem)
    simpa using hne
  rw [scope, h, numbered_append, numbered_cons, Nat.zero_add, List.reverse_append,
    List.reverse_cons, List.lookup_append, List.lookup_append, hbehind]
  simp

/-- From one unnamed value to the next one the count goes on. -/
theorem unnamed_ne (h : xs ++ v :: ys = xs' ++ w :: ys') (hvw : v ≠ w)
    (hv : (m.value v).name = none) (hw : (m.value w).name = none) :
    m.unnamed xs ≠ m.unnamed xs' := by
  have hcount {u : ValueId} (hu : (m.value u).name = none) (xs zs : List ValueId) :
      m.unnamed xs < m.unnamed (xs ++ u :: zs) := by
    simp only [unnamed, List.countP_append, List.countP_cons, hu]
    simp
  obtain ⟨zs, rfl, hzs⟩ | ⟨zs, rfl, hzs⟩ := List.append_eq_append_iff.mp h
  · obtain _ | ⟨u, zs⟩ := zs
    · exact absurd (List.cons.inj hzs).1 hvw
    · obtain ⟨rfl, -⟩ := List.cons.inj hzs
      exact (hcount hv xs zs).ne
  · obtain _ | ⟨u, zs⟩ := zs
    · exact absurd (List.cons.inj hzs).1.symm hvw
    · obtain ⟨rfl, -⟩ := List.cons.inj hzs
      exact (hcount hw xs' zs).ne'

/-! ### Texts -/

/-- Arguments and instructions are written by their name in the function. -/
theorem operandText_local (h : (∃ i, m.kindOf v = .argument f i) ∨ m.isInstruction v)
    (names : Scope) : m.operandText names v = "%" ++ (names.lookup v).getD s!"<{v.index}>" := by
  rw [operandText, operandText.render]
  obtain ⟨i, hk⟩ | hi := h
  · rw [hk]
  · obtain ⟨i, hi⟩ := Option.isSome_iff_exists.mp hi
    rw [kindOf_of_instruction? hi]

theorem nodup_namedValues (h : m.Seated) (ho : m.Ordered o)
    (hcode : ∀ v ∈ m.instructionsOf f, m.isInstruction v) : (m.namedValues f).Nodup := by
  refine List.nodup_append.mpr ⟨h.nodup_params f, ho.nodup_instructionsOf.filter _, ?_⟩
  rintro v hv w hw rfl
  obtain ⟨i, hi⟩ := List.mem_iff_getElem?.mp hv
  have hinst := hcode v (List.mem_filter.mp hw).1
  simp [isInstruction, instruction?, h f i v hi, ValueKind.instruction?] at hinst

end Module

namespace Builder

variable {s : Builder} {f : FunctionId} {v w : ValueId}

theorem Attained.seated (h : s.Attained) : s.module.Seated := by
  obtain ⟨name, hc⟩ := h.changed
  refine Module.Seated.changed (fun f i v hv => ?_) hc
  have hf : ¬ Module.HasFunction { name } f := Nat.not_lt_zero _
  simp [Module.params_of_not_has hf] at hv

theorem Attained.isInstruction (h : s.Attained) (hv : v ∈ s.module.instructionsOf f) :
    s.module.isInstruction v := by
  have hs := h.sturdy
  obtain ⟨b, -, hv⟩ := hs.healthy.ordered.mem_instructionsOf.mp hv
  exact hs.kempt.code v b (hs.healthy.ordered.blockOf?_eq_some.mpr hv)

theorem Attained.nodup_namedValues (h : s.Attained) (f : FunctionId) :
    (s.module.namedValues f).Nodup :=
  Module.nodup_namedValues h.seated h.sturdy.healthy.ordered fun _ => h.isInstruction

theorem Attained.operandText_eq (h : s.Attained) {xs ys : List ValueId}
    (hsplit : s.module.namedValues f = xs ++ v :: ys) :
    s.module.operandText (s.module.scope f) v =
      "%" ++ s.module.localName (s.module.unnamed xs) v := by
  have hnodup := h.nodup_namedValues f
  rw [hsplit] at hnodup
  have hv : v ∉ ys := (List.nodup_cons.mp (List.nodup_append.mp hnodup).2.1).1
  have hlocal : (∃ i, s.module.kindOf v = .argument f i) ∨ s.module.isInstruction v := by
    have hmem : v ∈ s.module.namedValues f := hsplit ▸ by simp
    obtain hv | hv := List.mem_append.mp hmem
    · obtain ⟨i, hi⟩ := List.mem_iff_getElem?.mp hv
      exact .inl ⟨i, h.seated f i v hi⟩
    · exact .inr (h.isInstruction (List.mem_filter.mp hv).1)
  rw [Module.operandText_local hlocal, Module.lookup_scope hsplit hv]
  rfl

/-- An unnamed parameter or result is written with the number of unnamed ones before it, among all
that the function lists, each of them once. What is written for another one is the same exactly
if the other one has this number for a name. -/
theorem Attained.number_taken_iff (h : s.Attained) (hv : v ∈ s.module.namedValues f)
    (hn : (s.module.value v).name = none) :
    (s.module.namedValues f).Nodup ∧ ∃ xs ys, s.module.namedValues f = xs ++ v :: ys ∧
      s.module.operandText (s.module.scope f) v = "%" ++ toString (s.module.unnamed xs) ∧
      ∀ w ∈ s.module.namedValues f, w ≠ v →
        (s.module.operandText (s.module.scope f) w = s.module.operandText (s.module.scope f) v ↔
          (s.module.value w).name = some (toString (s.module.unnamed xs))) := by
  obtain ⟨xs, ys, hsplit⟩ := List.append_of_mem hv
  have htext : s.module.operandText (s.module.scope f) v =
      "%" ++ toString (s.module.unnamed xs) := by
    rw [h.operandText_eq hsplit, Module.localName, hn]
    rfl
  refine ⟨h.nodup_namedValues f, xs, ys, hsplit, htext, fun w hw hwv => ?_⟩
  obtain ⟨xs', ys', hsplit'⟩ := List.append_of_mem hw
  rw [htext, h.operandText_eq hsplit', String.append_right_inj, Module.localName]
  cases hname : (s.module.value w).name with
  | some name => simp
  | none =>
    have hne := Module.unnamed_ne (hsplit.symm.trans hsplit') hwv.symm hn hname
    have hnumber : (s.module.unnamed xs').repr ≠ (s.module.unnamed xs).repr := fun he =>
      hne.symm (Ty.toDigits_inj (by rw [← Nat.toList_repr, he, Nat.toList_repr]))
    simpa using hnumber

/-! ### An example -/

/-- A sum of two parameters. The first one is called like the number of the second one. -/
def posing : List Call :=
  [.types (.ofType (.int 32)),
    .symbol (.declareFunction "sum" ⟨0⟩ [⟨0⟩, ⟨0⟩] false),
    .symbol (.setParamNames ⟨0⟩ ["0"]),
    .layout (.appendBlock ⟨0⟩ "entry"),
    .setCursor (some { block := ⟨0⟩ }),
    .emission (.binary .add ⟨0⟩ ⟨1⟩),
    .emission (.ret ⟨2⟩)]

/-- The builder after those calls. -/
def posed : Builder := Builder.replay { module := { name := "posing" } } posing

example : posed.module.functionText ⟨0⟩ = "define i32 @sum(i32 %0, i32 %0) \x7b\nentry:\n" ++
    "  %1 = add i32 %0, %0\n" ++ "  ret i32 %1\n\x7d\n" := by decide +kernel

theorem attained_posed : posed.Attained :=
  (Builder.Replays.reachable (by decide +kernel) (Builder.reachable_empty "posing")).attained

/-- The sum is told from both parameters. -/
theorem posed_sum : posed.Attained ∧ (⟨2⟩ : ValueId) ∈ posed.module.namedValues ⟨0⟩ ∧
    (posed.module.value ⟨2⟩).name = none ∧ ∀ w ∈ posed.module.namedValues ⟨0⟩, w ≠ ⟨2⟩ →
      posed.module.operandText (posed.module.scope ⟨0⟩) w ≠ "%1" := by
  have hmem : (⟨2⟩ : ValueId) ∈ posed.module.namedValues ⟨0⟩ := by decide +kernel
  have hname : (posed.module.value ⟨2⟩).name = none := by decide +kernel
  have hone : posed.module.operandText (posed.module.scope ⟨0⟩) ⟨2⟩ = "%" ++ "1" := by
    decide +kernel
  have hnames : ∀ w ∈ posed.module.namedValues ⟨0⟩, (posed.module.value w).name ≠ some "1" := by
    decide +kernel
  obtain ⟨-, xs, ys, -, htext, hothers⟩ := attained_posed.number_taken_iff hmem hname
  have hnumber : toString (posed.module.unnamed xs) = "1" :=
    (String.append_right_inj "%").mp (htext.symm.trans hone)
  refine ⟨attained_posed, hmem, hname, fun w hw hne he => hnames w hw ?_⟩
  rw [← hnumber]
  exact (hothers w hw hne).mp (he.trans hone.symm)

/-- The two parameters are written alike. -/
theorem posed_alike : posed.Attained ∧ (⟨0⟩ : ValueId) ∈ posed.module.namedValues ⟨0⟩ ∧
    (⟨1⟩ : ValueId) ∈ posed.module.namedValues ⟨0⟩ ∧ (posed.module.value ⟨1⟩).name = none ∧
    posed.module.operandText (posed.module.scope ⟨0⟩) ⟨1⟩ = "%0" ∧
    posed.module.operandText (posed.module.scope ⟨0⟩) ⟨0⟩ = "%0" :=
  ⟨attained_posed, by decide +kernel, by decide +kernel, by decide +kernel, by decide +kernel,
    by decide +kernel⟩

end Builder

end SsaKit
