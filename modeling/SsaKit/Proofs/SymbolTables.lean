import SsaKit.Proofs.GlobalNames
import SsaKit.Proofs.RoundTrip
import SsaKit.Proofs.UnneededSymbols

/-! Names are kept twice, with the symbol and in a table. The two agree whatever calls and passes do:
a lookup finds the one listed symbol that bears the name. -/
namespace SsaKit

open SsaKit.Module

namespace SymbolTable

variable {α : Type} {t : SymbolTable α}

theorem Distinct.erase (h : t.Distinct) (name : String) : (t.erase name).Distinct :=
  List.Nodup.sublist (List.filter_sublist.map _) h

theorem Distinct.insert (h : t.Distinct) (name : String) (a : α) : (t.insert name a).Distinct := by
  unfold Distinct SymbolTable.insert
  rw [List.map_append, List.nodup_append]
  refine ⟨h.erase name, List.nodup_singleton _, fun n hn n' hn' => ?_⟩
  obtain ⟨e, he, rfl⟩ := List.mem_map.mp hn
  obtain rfl : n' = name := by simpa using hn'
  exact (mem_entries_erase.mp he).2

end SymbolTable

namespace Module

variable {m m' : Module} {f g : FunctionId}

/-- The table holds the name of every function that was not removed, and no other one. -/
structure FunctionsListed (m : Module) : Prop where
  distinct : m.functionNames.Distinct
  entry : ∀ n f, (n, f) ∈ m.functionNames.entries ↔ f ∈ m.liveFunctions ∧ m.functionName f = n
  named : ∀ f ∈ m.liveFunctions, m.functionName f ≠ ""

theorem functionsListed_empty (name : String) : FunctionsListed { name } where
  distinct := List.nodup_nil
  entry n f := by simp [liveFunctions]
  named f hf := by simp [liveFunctions] at hf

theorem FunctionsListed.congr (h : m.FunctionsListed) (hn : m'.functionNames = m.functionNames)
    (hs : m'.functions.size = m.functions.size) (hname : ∀ f, m'.functionName f = m.functionName f)
    (hr : ∀ f, m'.isRemoved f = m.isRemoved f) : m'.FunctionsListed := by
  have hlive : m'.liveFunctions = m.liveFunctions := by
    unfold liveFunctions
    rw [hs]
    exact List.filter_congr fun f _ => by rw [hr]
  refine ⟨hn ▸ h.distinct, fun n f => ?_, fun f hf => ?_⟩
  · rw [hn, hlive, hname, h.entry]
  · rw [hname]
    exact h.named f (hlive ▸ hf)

/-! ### A new function -/

theorem functionName_declared {name : String} {type : TypeId} {params : List ValueId} :
    (m.declared name type params).functionName f =
      if f.index = m.functions.size then name else m.functionName f := by
  simp only [functionName, function_def, declared, Array.getElem?_push]
  split <;> rfl

theorem mem_liveFunctions_declared {name : String} {type : TypeId} {params : List ValueId} :
    f ∈ (m.declared name type params).liveFunctions ↔
      f ∈ m.liveFunctions ∨ f = ⟨m.functions.size⟩ := by
  have hnew : m.isRemoved ⟨m.functions.size⟩ = false := by
    simp only [isRemoved, function_def, Array.getElem?_eq_none (Nat.le_refl _)]
    rfl
  rw [mem_liveFunctions, mem_liveFunctions, isRemoved_declared]
  have hsize : (m.declared name type params).functions.size = m.functions.size + 1 := by
    simp [declared]
  rw [hsize]
  constructor
  · rintro ⟨hlt, hr⟩
    rcases Nat.lt_succ_iff_lt_or_eq.mp hlt with hlt | he
    · exact .inl ⟨hlt, hr⟩
    · exact .inr (Handle.index_inj.mp he)
  · rintro (⟨hlt, hr⟩ | rfl)
    · exact ⟨Nat.lt_succ_of_lt hlt, hr⟩
    · exact ⟨Nat.lt_succ_self _, hnew⟩

theorem FunctionsListed.declared (h : m.FunctionsListed) {name : String}
    (hn : m.functionNames.find? name = none) (hne : name.isEmpty = false) (type : TypeId)
    (params : List ValueId) : (m.declared name type params).FunctionsListed := by
  have old {f : FunctionId} (hf : f ∈ m.liveFunctions) :
      (m.declared name type params).functionName f = m.functionName f := by
    rw [functionName_declared, if_neg (Nat.ne_of_lt (mem_liveFunctions.mp hf).1)]
  have new : (m.declared name type params).functionName ⟨m.functions.size⟩ = name := by
    rw [functionName_declared, if_pos rfl]
  refine ⟨h.distinct.insert _ _, fun n f => ?_, fun f hf => ?_⟩
  · change (n, f) ∈ (m.functionNames.insert name ⟨m.functions.size⟩).entries ↔ _
    rw [SymbolTable.mem_entries_insert_new hn, h.entry, mem_liveFunctions_declared, or_and_right]
    refine or_congr (and_congr_right fun hf => by rw [old hf]) ?_
    rw [and_comm]
    refine and_congr_right fun hf => ?_
    rw [hf, new, eq_comm]
  · rcases mem_liveFunctions_declared.mp hf with hf | rfl
    · rw [old hf]
      exact h.named f hf
    · rw [new]
      rintro rfl
      simp at hne

/-! ### A removed function -/

theorem mem_liveFunctions_marked :
    g ∈ (m.refunctioned f fun x => { x with isRemoved := true }).liveFunctions ↔
      g ∈ m.liveFunctions ∧ g ≠ f := by
  rw [mem_liveFunctions, mem_liveFunctions]
  simp only [isRemoved, function_def, refunctioned, Array.size_modify, Array.getElem?_modify]
  by_cases he : f.index = g.index
  · obtain rfl : f = g := Handle.index_inj.mp he
    cases hfound : m.functions[f.index]? with
    | none =>
      have hsize := Array.getElem?_eq_none_iff.mp hfound
      simp [hsize]
    | some data => simp
  · have hne : g ≠ f := fun h => he (by rw [h])
    simp [he, hne]

/-- The name of a function that is removed is free afterwards: no other live function bears it. -/
theorem FunctionsListed.removed (h : m.FunctionsListed) (hf : m.isRemoved f = false) :
    FunctionsListed { m.refunctioned f fun x => { x with isRemoved := true } with
      functionNames := m.functionNames.erase (m.functionName f) } := by
  have hname := functionName_refunctioned (m := m) (f := f)
    (g := fun x => { x with isRemoved := true }) fun _ => rfl
  have unshared {g : FunctionId} (hg : g ∈ m.liveFunctions)
      (he : m.functionName g = m.functionName f) : g = f := by
    by_cases hhas : m.HasFunction f
    · have hentry := (h.entry _ f).mpr ⟨mem_liveFunctions.mpr ⟨hhas, hf⟩, rfl⟩
      have hfound := h.distinct.find?_eq_some.mpr ((h.entry _ g).mpr ⟨hg, he⟩)
      rw [h.distinct.find?_eq_some.mpr hentry] at hfound
      exact (Option.some_inj.mp hfound).symm
    · -- a function that is not there has no name, and all live ones have one
      have hnone : m.functions[f.index]? = none := Array.getElem?_eq_none (Nat.le_of_not_lt hhas)
      refine absurd ?_ (h.named g hg)
      rw [he, functionName, function_def, hnone]
      rfl
  refine ⟨h.distinct.erase _, fun n g => ?_, fun g hg => ?_⟩
  · change (n, g) ∈ (m.functionNames.erase _).entries ↔
      g ∈ (m.refunctioned f _).liveFunctions ∧ (m.refunctioned f _).functionName g = n
    rw [SymbolTable.mem_entries_erase, h.entry, mem_liveFunctions_marked, hname,
      and_right_comm (b := g ≠ f)]
    refine and_congr_right fun hg => not_congr ⟨fun he => ?_, ?_⟩
    · exact unshared hg.1 (hg.2.trans he)
    · rintro rfl
      exact hg.2.symm
  · change (m.refunctioned f _).functionName g ≠ ""
    rw [hname]
    exact h.named g (mem_liveFunctions_marked.mp hg).1

/-! ### Every change -/

theorem Quiet.functionsListed (hq : Quiet m m') (h : m.FunctionsListed) : m'.FunctionsListed := by
  cases hq with
  | prepare _ hp => cases hp <;> exact h.congr rfl rfl (fun _ => rfl) fun _ => rfl
  | addFunction m₁ name type params ha hn hne _ =>
    have hfunctions := ha.functions_eq
    have hnames : m₁.functionNames = m.functionNames := by rw [ha.eq_values]
    have h₁ : m₁.FunctionsListed := h.congr hnames (by rw [hfunctions])
      (fun f => by rw [functionName, functionName, function_def, function_def, hfunctions])
      fun f => by rw [isRemoved, isRemoved, function_def, function_def, hfunctions]
    exact h₁.declared (hnames ▸ hn) hne type params
  | link f linkage =>
    exact h.congr rfl (by simp [refunctioned]) (functionName_refunctioned fun _ => rfl)
      (isRemoved_refunctioned fun _ => rfl)
  | removeFunction f hf => exact h.removed hf
  | _ => exact h.congr rfl rfl (fun _ => rfl) fun _ => rfl

theorem Move.functionsListed (hm : Move m m') (h : m.FunctionsListed) : m'.FunctionsListed := by
  have blocks {f : FunctionId} {r : Chain .block × Arena .block .function Block} :
      (m.withBlocks f r).FunctionsListed :=
    h.congr rfl (by simp [withBlocks])
      (functionName_refunctioned (m := m) (g := fun c => { c with chain := r.1 }) fun _ => rfl)
      isRemoved_withBlocks
  cases hm with
  | pushBlocks _ _ _ _ _ => exact blocks
  | insertBlocks _ _ _ _ _ _ => exact blocks
  | dropBlocks _ _ _ => exact blocks
  | _ => exact h.congr rfl rfl (fun _ => rfl) fun _ => rfl

theorem Changed.functionsListed (hc : Changed m m') (h : m.FunctionsListed) :
    m'.FunctionsListed := by
  induction hc with
  | refl => exact h
  | tail _ hs ih => exact hs.elim (fun hq => hq.functionsListed ih) fun hm => hm.functionsListed ih

/-- No global is listed twice, and all that are listed are there. -/
theorem Quiet.distinct_globals (hq : Quiet m m') (h : m.Distinct m.globals) :
    m'.Distinct m'.globals := by
  have kept (hg : m'.globals = m.globals) : m'.Distinct m'.globals := by
    rw [hg]
    exact ⟨h.nodup, fun v hv => hq.extends.has (h.has v hv)⟩
  cases hq with
  | prepare _ hp => cases hp <;> exact kept rfl
  | addFunction m₁ name type params ha _ _ _ =>
    have hglobals : m₁.globals = m.globals := by rw [ha.eq_values]
    exact kept hglobals
  | addGlobal type valueType name ht hs hn =>
    have hx := (Quiet.addGlobal m type valueType name ht hs hn).extends
    have hnew : ⟨m.values.size⟩ ∉ m.globals := fun hv => Nat.lt_irrefl _ (h.has _ hv)
    refine ⟨(List.nodup_append_comm).mpr (List.nodup_cons.mpr ⟨hnew, h.nodup⟩), fun v hv => ?_⟩
    rcases List.mem_append.mp hv with hv | hv
    · exact hx.has (h.has v hv)
    · obtain rfl := List.mem_singleton.mp hv
      simp [Arena.Has, listed, size_revalued, pushed]
  | removeGlobal v _ =>
    exact ⟨h.nodup.filter _, fun w hw => h.has w (List.mem_of_mem_filter hw)⟩
  | _ => exact kept rfl

theorem Move.distinct_globals (hm : Move m m') (h : m.Distinct m.globals) :
    m'.Distinct m'.globals := by
  have hglobals : m'.globals = m.globals := by cases hm <;> rfl
  rw [hglobals]
  exact ⟨h.nodup, fun v hv => hm.extends.has (h.has v hv)⟩

theorem Changed.distinct_globals (hc : Changed m m') (h : m.Distinct m.globals) :
    m'.Distinct m'.globals := by
  induction hc with
  | refl => exact h
  | tail _ hs ih => exact hs.elim (fun hq => hq.distinct_globals ih) fun hm => hm.distinct_globals ih

/-! ### What lookups find -/

namespace FunctionsListed

variable (h : m.FunctionsListed)
include h

theorem findFunction?_eq_some {n : String} :
    m.findFunction? n = some f ↔ f ∈ m.liveFunctions ∧ m.functionName f = n :=
  h.distinct.find?_eq_some.trans (h.entry n f)

theorem nodup_names : (m.liveFunctions.map m.functionName).Nodup := by
  refine (nodup_liveFunctions m).map_on fun f hf g hg he => ?_
  have hfound := h.findFunction?_eq_some.mpr ⟨hf, he⟩
  rw [h.findFunction?_eq_some.mpr ⟨hg, rfl⟩] at hfound
  exact (Option.some_inj.mp hfound).symm

theorem functionCount_eq : m.functionCount = m.liveFunctions.length := by
  have hperm : (m.functionNames.entries.map (·.1)).Perm (m.liveFunctions.map m.functionName) := by
    refine (List.perm_ext_iff_of_nodup h.distinct h.nodup_names).mpr fun n => ?_
    simp only [List.mem_map, Prod.exists, exists_and_right, exists_eq_right, h.entry]
  simpa [functionCount, SymbolTable.size] using hperm.length_eq

end FunctionsListed

/-- No two places on the list of globals have the same name. -/
theorem NamesListed.nodup_names (h : m.NamesListed) (hd : m.globals.Nodup) :
    (m.globals.filterMap fun v => (m.value v).name).Nodup := by
  refine List.pairwise_filterMap.mpr (hd.imp_of_mem fun hv hw hne n hn n' hn' he => hne ?_)
  subst he
  exact h.unique n _ _ ((h.entry n _).mpr ⟨hv, hn⟩) ((h.entry n _).mpr ⟨hw, hn'⟩)

theorem NamesListed.findGlobal?_eq_some (h : m.NamesListed) {n : String} {v : ValueId} :
    m.findGlobal? n = some v ↔ v ∈ m.globals ∧ (m.value v).name = some n := by
  rw [← h.entry]
  refine ⟨fun hv => ?_, fun hv => SymbolTable.find?_of_mem hv fun w hw => h.unique n w v hw hv⟩
  obtain ⟨l, r, he, -⟩ := List.lookup_eq_some_iff.mp hv
  simp [he]

end Module

namespace Builder

variable {s : Builder}

theorem Attained.functionsListed (h : s.Attained) : s.module.FunctionsListed := by
  obtain ⟨name, hc⟩ := h.changed
  exact Changed.functionsListed hc (functionsListed_empty name)

theorem Attained.distinct_globals (h : s.Attained) : s.module.Distinct s.module.globals := by
  obtain ⟨name, hc⟩ := h.changed
  exact Changed.distinct_globals hc ⟨List.nodup_nil, by simp⟩

/-- Both tables say what the lists say. A function is found under a name exactly if it was not
removed and bears it, so live functions have different names and there are as many as names; a
global is found exactly if it is listed and bears the name, and no name is borne twice. -/
theorem Heeded.symbols_listed (h : s.Heeded) :
    (∀ n f, s.module.findFunction? n = some f ↔
      f ∈ s.module.liveFunctions ∧ s.module.functionName f = n) ∧
    (s.module.liveFunctions.map s.module.functionName).Nodup ∧
    s.module.functionCount = s.module.liveFunctions.length ∧
    (∀ n v, s.module.findGlobal? n = some v ↔
      v ∈ s.module.globals ∧ (s.module.value v).name = some n) ∧
    (s.module.globals.filterMap fun v => (s.module.value v).name).Nodup := by
  have hf := h.attained.functionsListed
  have hg := h.namesListed
  exact ⟨fun n f => hf.findFunction?_eq_some, hf.nodup_names, hf.functionCount_eq,
    fun n v => hg.findGlobal?_eq_some, hg.nodup_names h.attained.distinct_globals.nodup⟩

/-- Names are refused, kept, given up and taken over, of globals and of functions, and a function and
a global come back under the name of a removed one. -/
def trading : List Call :=
  [.types (.ofType (.int 32)),
    .symbol (.addGlobal ⟨0⟩ "one"),
    .symbol (.addGlobal ⟨0⟩ "two"),
    .symbol (.setName ⟨1⟩ "one"),
    .symbol (.setName ⟨0⟩ "one"),
    .symbol (.setName ⟨1⟩ "three"),
    .symbol (.removeGlobal ⟨0⟩),
    .symbol (.addGlobal ⟨0⟩ "one"),
    .symbol (.setName ⟨1⟩ ""),
    .symbol (.addGlobal ⟨0⟩ "three"),
    .symbol (.declareFunction "f" ⟨0⟩ [⟨0⟩] false),
    .symbol (.declareFunction "g" ⟨0⟩ [] false),
    .symbol (.removeFunction ⟨0⟩),
    .symbol (.declareFunction "f" ⟨0⟩ [] false),
    .symbol (.removeFunction ⟨0⟩)]

/-- The builder after those calls. -/
def traded : Builder := replay { module := { name := "trading" } } trading

theorem heeded_traded : traded.Heeded :=
  Heeding.heeded (by decide +kernel) (by decide +kernel) (heeded_empty "trading")

theorem traded_listed : traded.Heeded ∧ traded.module.liveFunctions = [⟨1⟩, ⟨2⟩] ∧
    traded.module.findFunction? "f" = some ⟨2⟩ ∧ traded.module.functionCount = 2 ∧
    traded.module.globals = [⟨1⟩, ⟨2⟩, ⟨3⟩] ∧ traded.module.findGlobal? "one" = some ⟨2⟩ ∧
    ∀ v, traded.module.findGlobal? "two" ≠ some v := by
  obtain ⟨hfind, -, hcount, hglobal, -⟩ := Heeded.symbols_listed heeded_traded
  have hlive : traded.module.liveFunctions = [⟨1⟩, ⟨2⟩] := by decide +kernel
  have hglobals : traded.module.globals = [⟨1⟩, ⟨2⟩, ⟨3⟩] := by decide +kernel
  refine ⟨heeded_traded, hlive, (hfind _ _).mpr ⟨by decide +kernel, by decide +kernel⟩,
    by rw [hcount, hlive]; rfl, hglobals, (hglobal _ _).mpr ⟨by decide +kernel, by decide +kernel⟩,
    fun v hv => ?_⟩
  obtain ⟨hlisted, hname⟩ := (hglobal _ _).mp hv
  rw [hglobals] at hlisted
  revert v
  decide +kernel

end Builder
end SsaKit
