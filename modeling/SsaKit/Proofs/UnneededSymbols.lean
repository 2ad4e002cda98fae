import SsaKit.Proofs.Necessity
import SsaKit.Transform.Pipeline

/-! Removal of unneeded symbols: it is never refused, leaves exactly what is needed, and no run of
what is left can tell. -/
namespace SsaKit

open Attempt SsaKit.Module Transform

variable {m m' : Module} {o : Order} {f g : FunctionId} {b : BlockId} {v w : ValueId}
  {gone : BlockId → Prop} {removed : FunctionId → Prop} {dropped : ValueId → Prop}

namespace SymbolTable

open Classical in
/-- A table without the entries of some names. -/
noncomputable def without {α : Type} (t : SymbolTable α) (names : String → Prop) : SymbolTable α :=
  ⟨t.entries.filter fun e => ¬ names e.1⟩

end SymbolTable

namespace Module

open Classical in
/-- A module without some blocks, with some functions marked as removed, and with some globals off
the list and their names freed. -/
structure Stripped (m : Module) (gone : BlockId → Prop) (removed : FunctionId → Prop)
    (dropped : ValueId → Prop) (m' : Module) : Prop where
  changed : Changed m m'
  ordered : m'.Ordered (m.order.without gone)
  types : m'.types = m.types
  value : ∀ v, m'.value v = m.value v
  values : m'.values.size = m.values.size
  blockName : ∀ b, (m'.block b).name = (m.block b).name
  functions : m'.functions.size = m.functions.size
  head : ∀ f, m'.head f = { m.head f with isRemoved := m.isRemoved f || decide (removed f) }
  globals : m'.globals = m.globals.filter fun v => ¬ dropped v
  globalNames : m'.globalNames =
    m.globalNames.without fun name => ∃ v, dropped v ∧ (m.value v).name = some name

theorem head_marked (hf : f.index < m.functions.size) (k : FunctionId) :
    (m.refunctioned f fun x => { x with isRemoved := true }).head k =
      { m.head k with isRemoved := m.isRemoved k || decide (k = f) } := by
  simp only [Module.head, Module.isRemoved, function_def, refunctioned, Array.getElem?_modify]
  by_cases hk : f.index = k.index
  · obtain rfl : f = k := Handle.index_inj.mp hk
    simp [Array.getElem?_eq_getElem hf]
  · have hne : k ≠ f := fun he => hk (by rw [he])
    simp [hk, hne]

namespace Stripped

open Classical in
theorem refl (ho : m.Ordered o) :
    m.Stripped (fun _ => False) (fun _ => False) (fun _ => False) m where
  changed := .refl
  ordered := by
    rw [Order.without_none, ho.order_eq]
    exact ho
  types := rfl
  value _ := rfl
  values := rfl
  blockName _ := rfl
  functions := rfl
  head f := by simp [Module.head, isRemoved]
  globals := by simp
  globalNames := by simp [SymbolTable.without]

theorem congr {gone' : BlockId → Prop} {removed' : FunctionId → Prop} {dropped' : ValueId → Prop}
    (h : m.Stripped gone removed dropped m') (hb : ∀ b, gone b ↔ gone' b)
    (hf : ∀ f, removed f ↔ removed' f) (hv : ∀ v, dropped v ↔ dropped' v) :
    m.Stripped gone' removed' dropped' m' := by
  obtain rfl : gone = gone' := funext fun b => propext (hb b)
  obtain rfl : removed = removed' := funext fun f => propext (hf f)
  obtain rfl : dropped = dropped' := funext fun v => propext (hv v)
  exact h

section

variable (h : m.Stripped gone removed dropped m')
include h

theorem kindOf (v : ValueId) : m'.kindOf v = m.kindOf v := congrArg Value.kind (h.value v)

theorem typeOf (v : ValueId) : m'.typeOf v = m.typeOf v := congrArg Value.type (h.value v)

theorem instruction? (v : ValueId) : m'.instruction? v = m.instruction? v :=
  congrArg ValueKind.instruction? (h.kindOf v)

theorem label (b : BlockId) : m'.label b = m.label b := by
  rw [Module.label, Module.label, h.blockName]

open Classical in
theorem isRemoved (f : FunctionId) :
    m'.isRemoved f = (m.isRemoved f || decide (removed f)) := by
  have := congrArg Function.isRemoved (h.head f)
  exact this

theorem mem_liveFunctions : f ∈ m'.liveFunctions ↔ f ∈ m.liveFunctions ∧ ¬ removed f := by
  rw [Module.mem_liveFunctions, Module.mem_liveFunctions, h.functions, h.isRemoved]
  simp [and_assoc]

theorem instructions_eq (hb : ¬ gone b) : m'.instructions b = m.instructions b := by
  rw [h.ordered.instructions_eq]
  simp [Order.without, hb, order]

/-- A function with all of its blocks has its whole body. -/
theorem blocksOf_eq (hf : ∀ b ∈ m.blocksOf f, ¬ gone b) : m'.blocksOf f = m.blocksOf f := by
  rw [h.ordered.blocksOf_eq]
  exact List.filter_eq_self.mpr fun b hb => by simpa using hf b hb

/-- A function without all of its blocks has no body. -/
theorem blocksOf_eq_nil (hf : ∀ b ∈ m.blocksOf f, gone b) : m'.blocksOf f = [] := by
  rw [h.ordered.blocksOf_eq]
  exact List.filter_eq_nil_iff.mpr fun b hb => by simpa using hf b hb

theorem instructionsOf_eq (hf : ∀ b ∈ m.blocksOf f, ¬ gone b) :
    m'.instructionsOf f = m.instructionsOf f := by
  unfold instructionsOf
  rw [h.blocksOf_eq hf]
  exact List.flatMap_congr fun b hb => h.instructions_eq (hf b hb)

/-! ### One step -/

theorem removeBlock (b : BlockId) :
    Ends (Module.removeBlock b) m' (fun _ => m.Stripped (fun k => gone k ∨ k = b) removed dropped)
      fun _ => False := by
  have horder : Ends (Module.removeBlock b) m' (fun _ t => ∃ o', Changed m' t ∧ t.Ordered o' ∧
      (m.order.without gone).RemovesBlock o' b) fun _ => False :=
    ends_removeBlock h.ordered fun t o' hc ho hr => ⟨o', hc, ho, hr⟩
  refine (horder.and (removeBlock_content b)).mono (fun _ t ht => ?_) fun _ ht => ht.1
  obtain ⟨⟨o', hc, ho, hr⟩, hcontent⟩ := ht
  refine ⟨h.changed.trans hc, ?_, hcontent.types.trans h.types,
    fun v => (hcontent.value v).trans (h.value v), hcontent.values.trans h.values,
    fun b => (hcontent.blockName b).trans (h.blockName b), hcontent.functions.trans h.functions,
    fun f => (hcontent.head f).trans (h.head f), hcontent.globals.trans h.globals,
    hcontent.globalNames.trans h.globalNames⟩
  rw [← Order.without_without, ← h.ordered.eq_without_of_removesBlock hr]
  exact ho

theorem removeBlocks (blocks : List BlockId) :
    Ends (blocks.forM Module.removeBlock) m'
      (fun _ => m.Stripped (fun k => gone k ∨ k ∈ blocks) removed dropped) fun _ => False := by
  refine ends_forM_stages
    (P := fun done => m.Stripped (fun k => gone k ∨ k ∈ done) removed dropped)
    (fun done b rest _ t ht => ?_) (h.congr (by simp) (fun _ => .rfl) fun _ => .rfl)
  refine (ht.removeBlock b).mono (fun _ u hu => hu.congr (fun k => ?_) (fun _ => .rfl)
    fun _ => .rfl) fun _ hu => hu
  rw [List.mem_append, List.mem_singleton]
  tauto

open Classical in
/-- A function that nobody calls and that has no body left is marked as removed. -/
theorem removeFunction (hf : f ∈ m'.liveFunctions) (hcallers : m'.callers f = [])
    (hempty : m'.blocksOf f = []) :
    Ends (Module.removeFunction f) m'
      (fun _ => m.Stripped gone (fun k => removed k ∨ k = f) dropped) fun _ => False := by
  obtain ⟨hhas, hlive⟩ := Module.mem_liveFunctions.mp hf
  unfold Module.removeFunction
  simp only [ends_bind, ends_get, hlive, Bool.false_eq_true, if_false, hcallers, List.find?_nil,
    hempty]
  change m.Stripped _ _ _ { m'.refunctioned f (fun x => { x with isRemoved := true }) with
    functionNames := m'.functionNames.erase
      ((m'.refunctioned f fun x => { x with isRemoved := true }).functionName f) }
  rw [functionName_refunctioned (g := fun x => { x with isRemoved := true }) fun _ => rfl]
  have hq := Quiet.removeFunction m' f hlive
  refine ⟨h.changed.tail (.inl hq), hq.ordered h.ordered, h.types, h.value, h.values, h.blockName,
    by simpa [refunctioned] using h.functions, fun k => ?_, h.globals, h.globalNames⟩
  change (m'.refunctioned f fun x => { x with isRemoved := true }).head k = _
  rw [head_marked hhas, h.head, h.isRemoved]
  simp [Bool.or_assoc]

open Classical in
theorem removeGlobal {g : Global} (hv : m.kindOf v = .global g) :
    Ends (Module.removeGlobal v) m'
      (fun _ => m.Stripped gone removed fun w => dropped w ∨ w = v) fun _ => False := by
  have hg : m'.global? v = some g := global?_eq_some.mpr ((h.kindOf v).trans hv)
  have hq := Quiet.removeGlobal m' v (by rw [hg]; rfl)
  unfold Module.removeGlobal globalData
  simp only [ends_bind, ends_get, hg, ends_pure]
  refine ⟨h.changed.tail (.inl hq), hq.ordered h.ordered, h.types, h.value, h.values, h.blockName,
    h.functions, h.head, ?_, ?_⟩
  · change m'.globals.filter _ = _
    rw [h.globals, List.filter_filter]
    refine List.filter_congr fun w _ => ?_
    by_cases hd : dropped w <;> by_cases hw : w = v <;> simp [hd, hw]
  · change m'.clearedTable v = _
    rw [clearedTable, h.value, h.globalNames]
    have hor : ∀ name, (∃ w, (dropped w ∨ w = v) ∧ (m.value w).name = some name) ↔
        (∃ w, dropped w ∧ (m.value w).name = some name) ∨ (m.value v).name = some name :=
      fun name => by simp [or_and_right, exists_or]
    simp only [hor]
    cases hname : (m.value v).name with
    | none => simp
    | some old =>
      simp only [SymbolTable.erase, SymbolTable.without, List.filter_filter]
      congr 1
      refine List.filter_congr fun e _ => ?_
      have hsame : some old = some e.1 ↔ e.1 = old := by rw [Option.some_inj, eq_comm]
      rw [Bool.eq_iff_iff]
      simp only [Bool.and_eq_true, bne_iff_ne, decide_eq_true_eq, hsame, ne_eq]
      rw [not_or, and_comm]

end

end Stripped
theorem isCallTo_iff {callee : FunctionId} :
    m.isCallTo callee v ↔ ∃ args, m.instruction? v = some (.call callee args) := by
  unfold isCallTo
  split
  · rename_i c args hi
    rw [hi, decide_eq_true_eq]
    constructor
    · rintro rfl
      exact ⟨args, rfl⟩
    · rintro ⟨args', he⟩
      cases he
      rfl
  · rename_i hn
    simp only [Bool.false_eq_true, false_iff, not_exists]
    exact fun args he => hn callee args he

/-! ### The pass -/

/-- A function that goes. -/
def Unneeded (m : Module) (f : FunctionId) : Prop := f ∈ m.liveFunctions ∧ ¬ m.NeedsFunction f

/-- A block of a function that goes. -/
def Orphaned (m : Module) (b : BlockId) : Prop := ∃ f, m.Unneeded f ∧ b ∈ m.blocksOf f

/-- A global that goes. -/
def Idle (m : Module) (v : ValueId) : Prop := v ∈ m.globals ∧ ¬ m.NeedsValue v

theorem Ordered.not_orphaned (ho : m.Ordered m.order) (hf : m.NeedsFunction f) :
    ∀ b ∈ m.blocksOf f, ¬ m.Orphaned b := by
  rintro b hb ⟨g, hg, hmem⟩
  obtain rfl : g = f := ho.blocks.disjoint hmem hb
  exact hg.2 hf

/-- Once the bodies of all unneeded functions are gone, nobody calls one of them. -/
theorem Stripped.callers_eq_nil (h : m.Stripped m.Orphaned removed dropped m')
    (ho : m.Ordered m.order) (hf : ¬ m.NeedsFunction f) : m'.callers f = [] := by
  unfold callers
  rw [List.filter_eq_nil_iff]
  intro g hg hcalls
  obtain ⟨v, hv, hcall⟩ := List.any_eq_true.mp hcalls
  obtain ⟨args, hi⟩ := isCallTo_iff.mp hcall
  rw [h.instruction?] at hi
  by_cases hneed : m.NeedsFunction g
  · rw [h.instructionsOf_eq (ho.not_orphaned hneed)] at hv
    exact hf (hneed.called hv hi)
  · have hempty : m'.blocksOf g = [] := h.blocksOf_eq_nil fun b hb =>
      ⟨g, ⟨(h.mem_liveFunctions.mp hg).1, hneed⟩, hb⟩
    simp [instructionsOf, hempty] at hv

/-- What is left once all that is unneeded went. -/
abbrev Pared (m m' : Module) : Prop := m.Stripped m.Orphaned m.Unneeded m.Idle m'

theorem nodup_liveFunctions (m : Module) : m.liveFunctions.Nodup :=
  List.Nodup.filter _ (List.nodup_range.map fun _ _ he => (Handle.mk.injEq _ _).mp he)

theorem ends_emptied {functions : List FunctionId} (ho : m.Ordered m.order)
    (hf : ∀ f, f ∈ functions ↔ m.Unneeded f) :
    Ends (functions.forM fun f => (m.blocksOf f).forM Module.removeBlock) m
      (fun _ => m.Stripped m.Orphaned (fun _ => False) fun _ => False) fun _ => False := by
  refine (ends_forM_stages (P := fun done => m.Stripped (fun b => ∃ f ∈ done, b ∈ m.blocksOf f)
    (fun _ => False) fun _ => False) (fun done f rest _ t ht => ?_)
    ((Stripped.refl ho).congr (by simp) (fun _ => .rfl) fun _ => .rfl)).mono
    (fun _ t ht => ht.congr (fun b => ?_) (fun _ => .rfl) fun _ => .rfl) fun _ ht => ht
  · refine (ht.removeBlocks (m.blocksOf f)).mono (fun _ u hu => hu.congr (fun b => ?_)
      (fun _ => .rfl) fun _ => .rfl) fun _ hu => hu
    simp [or_and_right, exists_or]
  · simp only [hf, Orphaned]

theorem Stripped.removeFunctions {functions : List FunctionId}
    (h : m.Stripped m.Orphaned (fun _ => False) dropped m') (ho : m.Ordered m.order)
    (hf : ∀ f, f ∈ functions ↔ m.Unneeded f) (hn : functions.Nodup) :
    Ends (functions.forM Module.removeFunction) m'
      (fun _ => m.Stripped m.Orphaned m.Unneeded dropped) fun _ => False := by
  refine (ends_forM_stages (P := fun done => m.Stripped m.Orphaned (· ∈ done) dropped)
    (fun done f rest hl t ht => ?_)
    (h.congr (fun _ => .rfl) (by simp) fun _ => .rfl)).mono
    (fun _ t ht => ht.congr (fun _ => .rfl) hf fun _ => .rfl) fun _ ht => ht
  have hunneeded := (hf f).mp (by simp [hl])
  have hnew : f ∉ done := fun hmem =>
    (List.nodup_cons.mp (List.nodup_middle.mp (hl ▸ hn))).1 (List.mem_append_left _ hmem)
  refine (ht.removeFunction (ht.mem_liveFunctions.mpr ⟨hunneeded.1, hnew⟩)
    (ht.callers_eq_nil ho hunneeded.2)
    (ht.blocksOf_eq_nil fun b hb => ⟨f, hunneeded, hb⟩)).mono
    (fun _ u hu => hu.congr (fun _ => .rfl) (fun k => ?_) fun _ => .rfl) fun _ hu => hu
  rw [List.mem_append, List.mem_singleton]

theorem Stripped.removeGlobals {globals : List ValueId}
    (h : m.Stripped gone removed (fun _ => False) m') (hl : m.ListsGlobals)
    (hg : ∀ v, v ∈ globals ↔ m.Idle v) :
    Ends (globals.forM Module.removeGlobal) m'
      (fun _ => m.Stripped gone removed m.Idle) fun _ => False := by
  refine (ends_forM_stages (P := fun done => m.Stripped gone removed (· ∈ done))
    (fun done v rest he t ht => ?_)
    (h.congr (fun _ => .rfl) (fun _ => .rfl) (by simp))).mono
    (fun _ t ht => ht.congr (fun _ => .rfl) (fun _ => .rfl) hg) fun _ ht => ht
  obtain ⟨g, hk⟩ := hl v ((hg v).mp (by simp [he])).1
  refine (ht.removeGlobal hk).mono
    (fun _ u hu => hu.congr (fun _ => .rfl) (fun _ => .rfl) fun w => ?_) fun _ hu => hu
  rw [List.mem_append, List.mem_singleton]

theorem ends_removeUnneeded (hs : m.Sound) (ho : m.Ordered m.order) (hg : m.Grounded)
    (hl : m.ListsGlobals) : Ends removeUnneeded m (fun _ => m.Pared) fun _ => False := by
  have hf : ∀ f, f ∈ m.liveFunctions.filter (fun f => !(Needed.ofModule m).functions.contains f) ↔
      m.Unneeded f := fun f => by
    simp [Unneeded, mem_functions_ofModule hs hg]
  have hv : ∀ v, v ∈ m.globals.filter (fun v => !(Needed.ofModule m).globals.contains v) ↔
      m.Idle v := fun v => by
    rw [List.mem_filter, Idle]
    refine and_congr_right fun hmem => ?_
    obtain ⟨g, hk⟩ := hl v hmem
    simp [mem_globals_ofModule hs hg hk]
  unfold removeUnneeded
  simp only [ends_bind, ends_get, ends_pure]
  refine (ends_forM (P := (· = m)) (fun v hmem t ht => ?_) rfl).mono (fun _ t ht => ?_)
    fun _ ht => ht
  · obtain ⟨g, hk⟩ := hl v hmem
    subst ht
    simp [globalData, global?_eq_some.mpr hk]
  · subst ht
    refine (ends_emptied ho hf).mono (fun _ u hu => ?_) fun _ hu => hu
    refine (hu.removeFunctions ho hf (List.Nodup.filter _ (nodup_liveFunctions t))).mono
      (fun _ u hu => ?_) fun _ hu => hu
    exact hu.removeGlobals hl hv

/-! ### What is left -/

/-- Needed functions are there: the verifier lets nobody call a removed one. -/
theorem NeedsFunction.live (hs : m.Sound) (hv : m.verify = .ok ())
    (hf : m.NeedsFunction f) : f ∈ m.liveFunctions := by
  induction hf with
  | visible hd _ => exact (mem_definedFunctions.mp hd).1
  | called _ hmem hi ih =>
    obtain ⟨b, hb, hmem⟩ := List.mem_flatMap.mp hmem
    obtain ⟨last, afterPhis, i, hplace⟩ := (verified_of_verify hv ih).inPlace hb hmem
    obtain rfl := Option.some_inj.mp (hi.symm.trans hplace.instruction)
    exact Module.mem_liveFunctions.mpr
      ⟨(hs.instructionFits hi).1, hplace.callee _ _ rfl⟩

namespace Pared

variable (h : m.Pared m')
include h

theorem mem_live (hlive : ∀ f, m.NeedsFunction f → f ∈ m.liveFunctions) :
    f ∈ m'.liveFunctions ↔ m.NeedsFunction f := by
  rw [Stripped.mem_liveFunctions h, Unneeded]
  constructor
  · rintro ⟨hf, hn⟩
    by_contra hneed
    exact hn ⟨hf, hneed⟩
  · exact fun hf => ⟨hlive f hf, fun hn => hn.2 hf⟩

open Classical in
theorem mem_globals : v ∈ m'.globals ↔ v ∈ m.globals ∧ m.NeedsValue v := by
  rw [Stripped.globals h, List.mem_filter, decide_eq_true_eq, Idle]
  refine and_congr_right fun hv => ?_
  simp [hv]

/-- Needed globals are on the list exactly when they were. -/
theorem isListed_eq (hv : m.NeedsValue v) : m'.isListed v = m.isListed v := by
  rw [Bool.eq_iff_iff]
  simp [isListed, h.mem_globals, hv]

/-- Runs of needed functions find all that they call and read. -/
theorem agreesOn (host : Host) (limits : Limits) (ho : m.Ordered m.order) (hv : m.verify = .ok ())
    (hlive : ∀ f, m.NeedsFunction f → f ∈ m.liveFunctions) :
    (⟨m, host, limits⟩ : Setting).AgreesOn ⟨m', host, limits⟩ m.NeedsFunction
      fun f b => m.NeedsFunction f ∧ b ∈ m.blocksOf f where
  host := rfl
  limits := rfl
  types := Stripped.types h
  head f hf := by
    have hblocks := Stripped.blocksOf_eq h (ho.not_orphaned hf)
    have hhead : m'.head f = m.head f := by
      rw [Stripped.head h]
      simp [Unneeded, hf, Module.head, Module.isRemoved]
    have hchain : m'.order.blocks f = m.order.blocks f := hblocks
    have ho' : m'.Ordered m'.order := (Stripped.ordered h).order_eq ▸ Stripped.ordered h
    refine Setting.sameHead_of_head hhead ?_ ?_
    · rw [ho'.isDeclaration_eq, ho.isDeclaration_eq, hchain]
    · rw [ho'.entry?_eq, ho.entry?_eq, hchain]
  entry f hf b hb := by
    refine ⟨hf, ?_⟩
    change m.entry? f = some b at hb
    rw [ho.entry?_eq] at hb
    exact List.mem_of_head? hb
  inside f b hb := hb.2
  closed f b hb s hs := by
    refine ⟨hb.1, ?_⟩
    rw [ho.blocksOf_eq]
    exact ho.functionOf?_eq_some.mp ((verified_of_verify hv (hlive f hb.1)).inside b hb.2 s hs)
  label f b _ := Stripped.label h b
  instructions f b hb := Stripped.instructions_eq h (ho.not_orphaned hb.1 b hb.2)
  code f b hb v hmem := by
    refine ⟨Stripped.typeOf h v, ?_⟩
    have hconstants : (⟨m, host, limits⟩ : Setting).SameConstants ⟨m', host, limits⟩
        m.NeedsValue :=
      { host := rfl
        types := Stripped.types h
        values := Stripped.values h
        typeOf := fun v _ => Stripped.typeOf h v
        kindOf := fun v _ => .inl (Stripped.kindOf h v)
        listed := fun v hv _ => h.isListed_eq hv
        closed := fun v hv w hw => hv.part hw }
    have hcode : v ∈ m.instructionsOf f := List.mem_flatMap.mpr ⟨b, hb.2, hmem⟩
    change Option.Rel _ (m.instruction? v) (m'.instruction? v)
    rw [Stripped.instruction? h]
    cases hi : m.instruction? v with
    | none => exact .none
    | some i =>
      have hread : ∀ w ∈ i.operands,
          Setting.SameRead ⟨m, host, limits⟩ ⟨m', host, limits⟩ w := fun w hw =>
        hconstants.sameRead (.read hb.1 hcode hi hw)
      exact .some (Setting.sameInstruction_self hread fun callee args hc =>
        hb.1.called hcode (hc ▸ hi))

end Pared
end Module

/-- Removal of unneeded symbols comes to its end, keeps exactly the needed functions and the needed
ones among the globals, and no run of a function that is kept can tell the difference, by its result,
its fault or the machine that it leaves behind. -/
theorem Module.Reachable.unneeded_symbols (h : m.Reachable) (hv : m.verify = .ok ()) :
    ∃ changed m', Pass.globalDce.run.outcome m = (.ok changed, m') ∧
      (∀ f, f ∈ m'.liveFunctions ↔ m.NeedsFunction f) ∧
      (∀ v, v ∈ m'.globals ↔ v ∈ m.globals ∧ m.NeedsValue v) ∧
      ∀ (host : Host) (limits : Limits), ∀ f ∈ m'.liveFunctions,
        (∀ levels args, (⟨m', host, limits⟩ : Setting).call levels f args =
          (⟨m, host, limits⟩ : Setting).call levels f args) ∧
        ∀ args, (⟨m', host, limits⟩ : Setting).runFunction f args =
          (⟨m, host, limits⟩ : Setting).runFunction f args := by
  have ho := h.ordered
  have hlive : ∀ f, m.NeedsFunction f → f ∈ m.liveFunctions := fun f hf => hf.live h.sound hv
  obtain ⟨changed, m', hrun, hp⟩ :=
    (ends_removeUnneeded h.sound ho h.grounded h.listsGlobals).exists_ok
  refine ⟨changed, m', hrun, fun f => hp.mem_live hlive, fun v => hp.mem_globals,
    fun host limits f hf => ?_⟩
  have hneed := (hp.mem_live hlive).mp hf
  have hagrees := hp.agreesOn host limits ho hv hlive
  exact ⟨fun levels args => congrFun (hagrees.call_eq ho hv levels hneed) args,
    hagrees.runFunction_eq ho hv hneed⟩

/-- A program in which a visible function calls an internal one, with a visible global that has a
content, and next to these a function and a global that nobody needs. -/
def cluttering : List Call :=
  [.types (.ofType (.int 32)),
    .symbol (.declareFunction "main" ⟨0⟩ [] false),
    .symbol (.declareFunction "helper" ⟨0⟩ [] false),
    .symbol (.declareFunction "spare" ⟨0⟩ [] false),
    .symbol (.setLinkage ⟨1⟩ .internal),
    .symbol (.setLinkage ⟨2⟩ .internal),
    .symbol (.addGlobal ⟨0⟩ "counter"),
    .symbol (.addGlobal ⟨0⟩ "waste"),
    .constant (.integer ⟨0⟩ 6),
    .symbol (.setInitializer ⟨0⟩ ⟨2⟩),
    .layout (.appendBlock ⟨0⟩ "entry"),
    .layout (.appendBlock ⟨1⟩ "entry"),
    .layout (.appendBlock ⟨2⟩ "entry"),
    .setCursor (some { block := ⟨0⟩ }),
    .emission (.call ⟨1⟩ []),
    .emission (.ret ⟨2⟩),
    .setCursor (some { block := ⟨1⟩ }),
    .emission (.ret ⟨2⟩),
    .setCursor (some { block := ⟨2⟩ }),
    .emission (.load ⟨1⟩),
    .emission (.call ⟨2⟩ []),
    .emission (.ret ⟨2⟩)]

/-- The builder after those calls. -/
def cluttered : Builder := Builder.replay { module := { name := "cluttering" } } cluttering

theorem reachable_cluttered : cluttered.Reachable :=
  Builder.Replays.reachable (by decide +kernel) (Builder.reachable_empty "cluttering")

/-- Without the clutter the program returns what it did, on as many steps. -/
theorem clutter_removed : cluttered.module.verify = .ok () ∧ ∃ changed m',
    Pass.globalDce.run.outcome cluttered.module = (.ok changed, m') ∧ ⟨0⟩ ∈ m'.liveFunctions ∧
      (⟨m', .standard, { steps := 3 }⟩ : Setting).runFunction ⟨0⟩ [] = .ok (.int 32 6) := by
  have hv : cluttered.module.verify = .ok () := by decide +kernel
  obtain ⟨changed, m', hrun, hfunctions, -, hruns⟩ :=
    Module.Reachable.unneeded_symbols reachable_cluttered.module hv
  have hlive : ⟨0⟩ ∈ m'.liveFunctions :=
    (hfunctions ⟨0⟩).mpr (.visible (by decide +kernel) (by decide +kernel))
  refine ⟨hv, changed, m', hrun, hlive, ?_⟩
  rw [(hruns .standard { steps := 3 } ⟨0⟩ hlive).2]
  decide +kernel

end SsaKit
