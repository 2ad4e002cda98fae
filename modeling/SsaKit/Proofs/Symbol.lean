import SsaKit.Proofs.Constant

/-! What happens to a module when its globals, functions and names change: no link is touched. -/
namespace SsaKit.Module

open Attempt

variable {m m' : Module} {α : Type} {v init : ValueId} {f : FunctionId}

/-- A step that leaves the order alone, whether it succeeds or fails. -/
def Quietly (step : Edit α) (m : Module) : Prop := Ends step m (fun _ => Quieted m) (Quieted m)

theorem global?_eq_some {g : Global} : m.global? v = some g ↔ m.kindOf v = .global g := by
  unfold global?
  cases m.kindOf v <;> simp [ValueKind.global?]

/-- Renaming a value is a single change, or refused: the name of a global is free, or its own. -/
theorem ends_setName {text : String} {ok : Unit → Module → Prop} {failed : Module → Prop}
    (hvalue : m.global? v = none → ok () (m.revalued v fun x => { x with name := nameOf text }))
    (hglobal : (m.global? v).isSome →
      (∀ new ∈ nameOf text, ∀ w ∈ m.globalNames.find? new, w = v) →
      ok () ({ m with globalNames := m.renamedTable v (nameOf text) }.revalued v
        fun x => { x with name := nameOf text }))
    (hfailed : failed m) : Ends (setName v text) m ok failed := by
  unfold setName
  simp only [ends_bind, ends_get]
  split
  · rename_i hg
    have done (hfree : ∀ new ∈ nameOf text, ∀ w ∈ m.globalNames.find? new, w = v) :
        Ends (Edit.setName v (nameOf text))
          { m with globalNames := m.renamedTable v (nameOf text) } ok failed :=
      hglobal hg hfree
    split
    · rename_i new hn
      split
      · exact hfailed
      · rename_i ha
        have := done fun new' hn' w hw => by
          obtain rfl : new = new' := by simpa [hn] using hn'
          by_contra hne
          have hw : m.globalNames.find? new = some w := hw
          simp [hw, hne] at ha
        cases hname : (m.value v).name <;> simpa [renamedTable, clearedTable, hn, hname] using this
    · rename_i hn
      have hn : nameOf text = none := by
        cases he : nameOf text with
        | none => rfl
        | some new => exact (hn new he).elim
      have := done (by simp [hn])
      cases hname : (m.value v).name <;> simpa [renamedTable, clearedTable, hn, hname] using this
  · rename_i hg
    exact hvalue (by simpa using hg)

theorem setName_quietly (v : ValueId) (text : String) : Quietly (setName v text) m :=
  ends_setName (fun hg => .single (.rename m v (nameOf text) hg))
    (fun hg hfree => .single (.renameGlobal m v (nameOf text) hg hfree)) .refl

/-! ### Globals -/

theorem ends_globalData {ok : Global → Module → Prop} {failed : Module → Prop}
    (h : ∀ g, m.kindOf v = .global g → ok g m) (hfailed : failed m) :
    Ends (globalData v) m ok failed := by
  unfold globalData
  simp only [ends_bind, ends_get]
  split
  · rename_i g hg
    exact h g (global?_eq_some.mp hg)
  · exact hfailed

/-- A global of a known name is handed back; one of a new name gets a type, a value, its name and its
places on the list and in the table. -/
theorem ends_addGlobal_change {valueType : TypeId} {name : String} {ok : ValueId → Module → Prop}
    {failed : Module → Prop} (hi : m.types.Indexed)
    (hknown : ∀ v, m.globalNames.find? name = some v → ok v m)
    (hnew : ∀ type t, m.types.Grown t → t.entry type = .pointer valueType → t.isSized valueType →
      m.globalNames.find? name = none → ok ⟨m.values.size⟩
        ((({ m with types := t }.pushed type (.global { valueType })).revalued ⟨m.values.size⟩
          fun x => { x with name := some name }).listed name ⟨m.values.size⟩))
    (hfailed : failed m) : Ends (addGlobal valueType name) m ok failed := by
  unfold addGlobal
  simp only [ends_bind, ends_get]
  split
  · rename_i hs
    split
    · rename_i v hv
      rw [ends_bind]
      refine ends_globalData (fun g hg => ?_) hfailed
      split
      · exact hknown v hv
      · exact hfailed
    · rename_i hn
      rw [ends_bind, ends_onTypes]
      refine TypeTable.ends_pointer hi (TypeTable.contains_of_isSized hs) fun type t hg hc he => ?_
      exact hnew type t hg he ((TypeTable.extends_of_grown hg).isSized_of hs) hn
  · exact hfailed

theorem ends_addGlobal {valueType : TypeId} {name : String} {ok : ValueId → Module → Prop}
    {failed : Module → Prop} (hi : m.types.Indexed) (h : ∀ v m', Quieted m m' → ok v m')
    (hfailed : ∀ m', Quieted m m' → failed m') :
    Ends (addGlobal valueType name) m ok failed := by
  refine ends_addGlobal_change hi (fun v _ => h v m .refl) (fun type t hg he hs hn => ?_)
    (hfailed m .refl)
  have hp : Quieted m { m with types := t } := (prepared_types hg).quieted
  exact h _ _ (hp.tail (.addGlobal { m with types := t } type valueType name he hs hn))

/-- A global that keeps its type and content may change otherwise. -/
theorem kindFits_global (h : m.Sound) {g g' : Global} (hg : m.kindOf v = .global g)
    (ht : g'.valueType = g.valueType) (hi : ∀ w ∈ g'.initializer,
      m.values.Has w ∧ m.isConstant w ∧ m.typeOf w = g.valueType) :
    m.KindFits (m.typeOf v) (.global g') := by
  have hk := (h.values v (has_of_kindOf (by simp [hg]))).2
  rw [hg] at hk
  exact ⟨ht ▸ hk.1, ht ▸ hk.2.1, ht ▸ hi⟩

theorem initializer_fits (h : m.Sound) {g : Global} (hg : m.kindOf v = .global g) :
    ∀ w ∈ g.initializer, m.values.Has w ∧ m.isConstant w ∧ m.typeOf w = g.valueType := by
  have hk := (h.values v (has_of_kindOf (by simp [hg]))).2
  rw [hg] at hk
  exact hk.2.2

theorem setInitializer_quietly (h : m.Sound) (hi : m.values.Has init) :
    Quietly (setInitializer v init) m := by
  unfold Quietly setInitializer
  rw [ends_bind]
  refine ends_globalData (fun g hg => ?_) .refl
  simp only [ends_bind, ends_get]
  split
  · rename_i hc
    split
    · rename_i ht
      refine .single (.changeGlobal m v g _ hg rfl (kindFits_global h hg rfl ?_))
      rintro w ⟨⟩
      exact ⟨hi, hc, ht⟩
    · exact .refl
  · exact .refl

theorem setGlobalLinkage_quietly (h : m.Sound) (linkage : Linkage) :
    Quietly (setGlobalLinkage v linkage) m := by
  unfold Quietly setGlobalLinkage
  rw [ends_bind]
  refine ends_globalData (fun g hg => ?_) .refl
  exact .single (.changeGlobal m v g _ hg rfl (kindFits_global h hg rfl
    fun w hw => initializer_fits h hg w hw))

theorem setGlobalConstant_quietly (h : m.Sound) (isConstant : Bool) :
    Quietly (setGlobalConstant v isConstant) m := by
  unfold Quietly setGlobalConstant
  rw [ends_bind]
  refine ends_globalData (fun g hg => ?_) .refl
  exact .single (.changeGlobal m v g _ hg rfl (kindFits_global h hg rfl
    fun w hw => initializer_fits h hg w hw))

theorem removeGlobal_quietly (v : ValueId) : Quietly (removeGlobal v) m := by
  unfold Quietly removeGlobal
  rw [ends_bind]
  refine ends_globalData (fun g hg => ?_) .refl
  exact .single (.removeGlobal m v (by simp [global?_eq_some.mpr hg]))

/-- Quiet steps one after the other. -/
theorem ends_quietly {step : Edit α} {ok : α → Module → Prop} {failed : Module → Prop}
    (hs : Quietly step m') (hq : Quieted m m') (h : ∀ a t, Quieted m t → ok a t)
    (hfailed : ∀ t, Quieted m t → failed t) : Ends step m' ok failed :=
  hs.mono (fun a t ht => h a t (hq.trans ht)) fun t ht => hfailed t (hq.trans ht)

theorem globalString_quietly (h : m.Sound) (name text : String) :
    Quietly (globalString name text) m := by
  unfold Quietly globalString
  rw [ends_bind]
  refine ends_constString h.types.indexed (fun init m1 hp hi => ?_) fun m1 hp => hp.quieted
  have h1 : Quieted m m1 := hp.quieted
  simp only [ends_bind, ends_get]
  refine ends_addGlobal ((Quieted.changed h1).sound h).types.indexed (fun v m2 hq => ?_) fun m2 hq => h1.trans hq
  have h2 := h1.trans hq
  refine ends_quietly (setInitializer_quietly ((Quieted.changed h2).sound h) (hq.extends.has hi)) h2
    (fun _ m3 h3 => ?_) fun _ h3 => h3
  refine ends_quietly (setGlobalLinkage_quietly ((Quieted.changed h3).sound h) .internal) h3
    (fun _ m4 h4 => ?_) fun _ h4 => h4
  exact ends_quietly (setGlobalConstant_quietly ((Quieted.changed h4).sound h) true) h4 (fun _ _ h5 => h5)
    fun _ h5 => h5

/-! ### Functions -/

/-- The arguments of a function, one for each type; the rest of the module stays. -/
theorem ends_pushParams {m₀ : Module} (before : List ValueId) {types : List TypeId}
    {ok : List ValueId → Module → Prop} {failed : Module → Prop} (ha : Argues f m₀ before m)
    (hc : ∀ type ∈ types, m.types.contains type)
    (h : ∀ params m', Argues f m₀ (before ++ params) m' → m.Extends m' → m'.types = m.types →
      m'.functionNames = m.functionNames →
      List.Forall₂ (fun v type => m'.values.Has v ∧ m'.typeOf v = type ∧
        ∃ n, m'.kindOf v = .argument f n) params types → ok params m') :
    Ends ((types.zipIdx before.length).mapM fun (type, index) =>
      Edit.pushValue type (.argument f index)) m ok failed := by
  induction types generalizing m before ok with
  | nil => exact h [] m (by simpa using ha) (.refl m) rfl rfl .nil
  | cons type types ih =>
    rw [List.zipIdx_cons, List.mapM_cons, ends_bind]
    change Ends _ (m.pushed type (.argument f before.length)) _ _
    have ha' := ha.snoc type (hc type (by simp))
    rw [ends_bind]
    have hnext := fun ok => @ih (m.pushed type _) (before ++ [⟨m.values.size⟩]) ok ha'
      fun type ht => hc type (by simp [ht])
    rw [List.length_append, List.length_singleton] at hnext
    refine hnext _ fun params m' hargs hx ht hn hfor => ?_
    refine h _ m' (by simpa using hargs) ((extends_pushed type _).trans hx) ht hn (.cons ?_ hfor)
    have hnew := has_pushed_new m type (.argument f before.length)
    obtain ⟨hhas, htype, hkind⟩ := hx.values _ hnew
    refine ⟨hhas, htype.trans (typeOf_pushed_new m type _), before.length, ?_⟩
    rw [kindOf, value_pushed_new] at hkind
    obtain hk | ⟨_, _, he, -⟩ | ⟨_, _, he, -⟩ := hkind
    · exact hk
    · cases he
    · cases he

theorem addFunction_quietly (h : m.Sound) (name : String) (type : TypeId) :
    Quietly (addFunction name type) m := by
  unfold Quietly addFunction
  simp only [ends_bind, ends_get]
  split
  · exact .refl
  · rename_i paramTypes hp
    obtain ⟨result, isVariadic, he⟩ :
        ∃ result isVariadic, m.types.entry type = .function result paramTypes isVariadic := by
      cases he : m.types.entry type <;> simp_all [Ty.params]
    split
    · split
      · exact .refl
      · exact .refl
    · rename_i hn
      split
      · exact .refl
      · rename_i hne
        have hfits := h.types.fits type (by
          by_contra hc
          simp [TypeTable.entry_of_not_contains hc] at he)
        rw [he] at hfits
        unfold pushParams
        rw [ends_bind]
        refine ends_pushParams [] .nil (fun t ht => ?_)
          fun params m1 ha _ ht hnames hfor => ?_
        · exact TypeTable.contains_of_isSized (hfits.2.2 t ht)
        · rw [List.nil_append] at ha
          have hf := ha.functions_eq
          have hadd : Quiet m (m1.declared name type params) := by
            refine .addFunction m m1 name type params ha hn (by simpa using hne)
              ⟨result, paramTypes, isVariadic, ?_, ?_⟩
            · simp [function_def, declared, hf, ht, he]
            · have hps : (m1.declared name type params).params ⟨m.functions.size⟩ = params := by
                simp [Module.params, function_def, declared, hf]
              rw [hps]
              exact hfor
          simp only [ends_bind, ends_modify, ends_pure]
          rw [← hf]
          exact .single hadd

theorem declareFunction_quietly (h : m.Sound) (name : String) {result : TypeId}
    (params : List TypeId) (isVariadic : Bool) (hr : m.types.contains result) :
    Quietly (declareFunction name result params isVariadic) m := by
  unfold Quietly declareFunction
  rw [ends_bind, ends_onTypes]
  refine TypeTable.ends_function h.types.indexed hr (fun type t hg _ _ => ?_) .refl
  have hq : Quieted m { m with types := t } := (prepared_types hg).quieted
  exact ends_quietly (addFunction_quietly ((Quieted.changed hq).sound h) name type) hq
    (fun _ _ ht => ht) fun _ ht => ht

theorem kindOf_of_mem_params (h : m.FunctionFits f) (hv : v ∈ m.params f) :
    ∃ n, m.kindOf v = .argument f n := by
  obtain ⟨result, params, isVariadic, -, hfor⟩ := h
  generalize m.params f = vs at hfor hv
  induction hfor with
  | nil => simp at hv
  | cons hw _ ih =>
    obtain rfl | hv := List.mem_cons.mp hv
    · exact hw.2.2
    · exact ih hv

theorem setParamNames_quietly (h : m.FunctionFits f) (names : List String) :
    Quietly (setParamNames f names) m := by
  unfold Quietly setParamNames
  simp only [ends_bind, ends_get]
  -- a parameter is no global, and stays none whatever is renamed before it
  let P : Module → Prop := fun t => Quieted m t ∧ ∀ v ∈ m.params f, t.global? v = none
  suffices hloop : Ends (((m.params f).zip names).forM fun p => Edit.setName p.1 (nameOf p.2)) m
      (fun _ => P) P from hloop.mono (fun _ _ ht => ht.1) fun _ ht => ht.1
  refine ends_forM (fun p hp t ht => ?_) ⟨.refl, fun v hv => ?_⟩
  · obtain ⟨v, name⟩ := p
    have hrename := Quiet.rename t v (nameOf name) (ht.2 v (List.of_mem_zip hp).1)
    refine ⟨ht.1.tail hrename, fun w hw => ?_⟩
    change (t.revalued v fun x => { x with name := nameOf name }).global? w = none
    have hold := ht.2 w hw
    by_cases hv : t.values.Has v
    · rw [global?, kindOf] at hold ⊢
      rw [value_revalued hv]
      split
      · rename_i he
        rw [← he]
        exact hold
      · exact hold
    · rwa [revalued_of_not_has hv]
  · obtain ⟨n, hk⟩ := kindOf_of_mem_params h hv
    simp [global?, hk, ValueKind.global?]

theorem setLinkage_quietly (f : FunctionId) (linkage : Linkage) :
    Quietly (setLinkage f linkage) m :=
  .single (.link m f linkage)

end SsaKit.Module
