import SsaKit.Proofs.Acceptance
import SsaKit.Proofs.Framing

/-! The list of globals and the table of their names say the same as long as no global that was
taken off the list is named or removed again. -/
namespace SsaKit

open Attempt SsaKit.Module Transform

/-! ### Tables of names -/

namespace SymbolTable

variable {α : Type} {t : SymbolTable α} {name n : String} {a b : α}

theorem mem_entries_erase :
    (n, a) ∈ (t.erase name).entries ↔ (n, a) ∈ t.entries ∧ n ≠ name := by
  simp [erase]

theorem mem_entries_insert : (n, a) ∈ (t.insert name b).entries ↔
    ((n, a) ∈ t.entries ∧ n ≠ name) ∨ (n = name ∧ a = b) := by
  simp [insert, mem_entries_erase]

theorem mem_values : a ∈ t.values ↔ ∃ name, (name, a) ∈ t.entries := by
  simp [values]

theorem not_mem_of_find?_eq_none (h : t.find? name = none) : (name, a) ∉ t.entries :=
  fun ha => by simpa using List.lookup_eq_none_iff.mp h _ ha

/-- A new name gets its entry, and all others stay. -/
theorem mem_entries_insert_new (h : t.find? name = none) :
    (n, a) ∈ (t.insert name b).entries ↔ (n, a) ∈ t.entries ∨ n = name ∧ a = b := by
  rw [mem_entries_insert]
  refine or_congr_left (and_iff_left_of_imp ?_)
  rintro hn rfl
  exact not_mem_of_find?_eq_none h hn

theorem find?_of_mem (h : (name, a) ∈ t.entries) (hu : ∀ b, (name, b) ∈ t.entries → b = a) :
    t.find? name = some a := by
  cases hf : t.find? name with
  | none => exact (not_mem_of_find?_eq_none hf h).elim
  | some b =>
    obtain ⟨l, r, he, -⟩ := List.lookup_eq_some_iff.mp hf
    rw [hu b (by simp [he])]

end SymbolTable

namespace Module

variable {m m' : Module} {v w : ValueId} {name : Option String}

/-- The table holds the name of every listed global, and no other name. -/
structure NamesListed (m : Module) : Prop where
  entry : ∀ n v, (n, v) ∈ m.globalNames.entries ↔ v ∈ m.globals ∧ (m.value v).name = some n
  unique : ∀ n v w, (n, v) ∈ m.globalNames.entries → (n, w) ∈ m.globalNames.entries → v = w

theorem namesListed_empty (name : String) : NamesListed { name } where
  entry n v := by simp
  unique n v w h := by simp at h

/-- A global is in the table exactly if it is on the list and has a name. -/
theorem NamesListed.contains_values (h : m.NamesListed) :
    m.globalNames.values.contains v ↔ v ∈ m.globals ∧ (m.value v).name.isSome := by
  rw [List.contains_iff_mem, SymbolTable.mem_values, Option.isSome_iff_exists]
  simp only [h.entry, exists_and_left]

/-! ### What leaves the names of globals alone -/

/-- The second module lists the globals of the first one, by the same names. -/
structure SameListing (m m' : Module) : Prop where
  globals : m'.globals = m.globals
  globalNames : m'.globalNames = m.globalNames
  names : ∀ v ∈ m.globals, (m'.value v).name = (m.value v).name

instance : Std.Refl SameListing := ⟨fun _ => ⟨rfl, rfl, fun _ _ => rfl⟩⟩

instance : IsTrans Module SameListing := ⟨fun _ _ _ h h' => {
  globals := h'.globals.trans h.globals
  globalNames := h'.globalNames.trans h.globalNames
  names := fun v hv => (h'.names v (h.globals ▸ hv)).trans (h.names v hv) }⟩

theorem SameListing.namesListed (hs : m.SameListing m') (h : m.NamesListed) : m'.NamesListed where
  entry n v := by
    rw [hs.globalNames, hs.globals, h.entry]
    exact and_congr_right fun hv => by rw [hs.names v hv]
  unique := by
    rw [hs.globalNames]
    exact h.unique

theorem name_pushed (type : TypeId) (kind : ValueKind) (w : ValueId) :
    ((m.pushed type kind).value w).name = (m.value w).name := by
  by_cases hw : m.values.Has w
  · rw [value_pushed hw]
  · rw [value_of_not_has hw]
    by_cases hnew : w = ⟨m.values.size⟩
    · rw [hnew, value_pushed_new]
      rfl
    · rw [value_of_not_has fun h => (has_pushed.mp h).elim hw hnew]

theorem name_revalued {g : Value → Value} (hg : (g (m.value v)).name = (m.value v).name)
    (w : ValueId) : ((m.revalued v g).value w).name = (m.value w).name := by
  by_cases hv : m.values.Has v
  · rw [value_revalued hv]
    split
    · rename_i he
      rw [he, hg]
    · rfl
  · rw [revalued_of_not_has hv]

theorem sameListing_pushed (m : Module) (type : TypeId) (kind : ValueKind) :
    m.SameListing (m.pushed type kind) := ⟨rfl, rfl, fun w _ => name_pushed type kind w⟩

theorem sameListing_framed : Framed SameListing where
  kept hv _ hg hn := ⟨hg, hn, fun v _ => by rw [hv]⟩
  pushed m type kind _ := sameListing_pushed m type kind
  rekinded _ _ _ _ := ⟨rfl, rfl, fun w _ => name_revalued rfl w⟩

theorem sameListing_replaced (m : Module) (old new : ValueId) :
    m.SameListing (m.replaced old new) := by
  refine ⟨rfl, rfl, fun v _ => ?_⟩
  rw [value_replaced, replaceIn]
  split <;> rfl

theorem Prepared.sameListing (h : Prepared m m') : m.SameListing m' := by
  induction h with
  | refl => exact Std.Refl.refl m
  | tail _ hs ih =>
    cases hs with
    | types t _ => exact IsTrans.trans _ _ _ ih (sameListing_framed.kept (fun _ => rfl) (fun _ => rfl) rfl rfl)
    | constant type kind _ _ _ _ => exact IsTrans.trans _ _ _ ih (sameListing_pushed _ type kind)

theorem replaceAllUses_sameListing (old new : ValueId) :
    Stays SameListing (replaceAllUses old new) := by
  rw [replaceAllUses_eq]
  exact stays_get.bind fun _ => Stays.guard fun _ =>
    stays_modifyGet fun m => sameListing_replaced m old new

/-- Parameters are not on the list of globals. -/
theorem setParamNames_sameListing {f : FunctionId} (names : List String) (hl : m.ListsGlobals)
    (hf : m.FunctionFits f) :
    Ends (setParamNames f names) m (fun _ => m.SameListing) m.SameListing := by
  unfold setParamNames
  rw [ends_bind, ends_get]
  refine ends_forM (fun p hp t ht => ?_) (Std.Refl.refl m)
  have hparam : p.1 ∉ m.globals := fun hlisted => by
    obtain ⟨g, hg⟩ := hl p.1 hlisted
    obtain ⟨n, hn⟩ := kindOf_of_mem_params hf (List.of_mem_zip hp).1
    rw [hg] at hn
    cases hn
  refine IsTrans.trans _ _ _ ht ⟨rfl, rfl, fun w hw => ?_⟩
  change ((t.revalued p.1 fun x => { x with name := nameOf p.2 }).value w).name = _
  by_cases hhas : t.values.Has p.1
  · rw [value_revalued hhas, if_neg]
    rintro rfl
    exact hparam (ht.globals ▸ hw)
  · rw [revalued_of_not_has hhas]

/-! ### What changes them -/

theorem ListsGlobals.has (hl : m.ListsGlobals) (hv : v ∈ m.globals) : m.values.Has v := by
  obtain ⟨g, hg⟩ := hl v hv
  exact has_of_kindOf (by simp [hg])

namespace NamesListed

variable (h : m.NamesListed)
include h

/-- With the name of a listed global, its entry goes and no other one. -/
theorem mem_clearedTable (hv : v ∈ m.globals) {n : String} :
    (n, w) ∈ (m.clearedTable v).entries ↔ (n, w) ∈ m.globalNames.entries ∧ w ≠ v := by
  unfold clearedTable
  cases hname : (m.value v).name with
  | none =>
    refine (and_iff_left_of_imp fun hw => ?_).symm
    rintro rfl
    simpa [hname] using ((h.entry n w).mp hw).2
  | some old =>
    rw [SymbolTable.mem_entries_erase]
    refine and_congr_right fun hw => not_congr ⟨?_, ?_⟩
    · rintro rfl
      exact h.unique n w v hw ((h.entry n v).mpr ⟨hv, hname⟩)
    · rintro rfl
      simpa [hname, eq_comm] using ((h.entry n w).mp hw).2

theorem unlisted (hv : v ∈ m.globals) : (m.unlisted v).NamesListed where
  entry n w := by
    change (n, w) ∈ (m.clearedTable v).entries ↔
      w ∈ m.globals.filter (· ≠ v) ∧ (m.value w).name = some n
    rw [h.mem_clearedTable hv, h.entry, List.mem_filter, decide_eq_true_eq]
    exact and_right_comm
  unique n w u hw hu :=
    h.unique n w u ((h.mem_clearedTable hv).mp hw).1 ((h.mem_clearedTable hv).mp hu).1

/-- The entries of a table in which a listed global has a new name, which is free. -/
theorem mem_renamedTable (hv : v ∈ m.globals)
    (hfree : ∀ new ∈ name, ∀ w ∈ m.globalNames.find? new, w = v) {n : String} :
    (n, w) ∈ (m.renamedTable v name).entries ↔
      (n, w) ∈ m.globalNames.entries ∧ w ≠ v ∨ name = some n ∧ w = v := by
  cases name with
  | none => simp [renamedTable, h.mem_clearedTable hv]
  | some new =>
    rw [renamedTable, SymbolTable.mem_entries_insert, h.mem_clearedTable hv, Option.some_inj,
      eq_comm (a := new)]
    refine or_congr_left (and_iff_left_of_imp ?_)
    rintro ⟨hw, hne⟩ rfl
    exact hne (hfree n rfl w (SymbolTable.find?_of_mem hw fun u hu => h.unique n u w hu hw))

theorem renamed (hl : m.ListsGlobals) (hv : v ∈ m.globals)
    (hfree : ∀ new ∈ name, ∀ w ∈ m.globalNames.find? new, w = v) :
    ({ m with globalNames := m.renamedTable v name }.revalued v
      fun x => { x with name }).NamesListed := by
  have hname (w : ValueId) : (({ m with globalNames := m.renamedTable v name }.revalued v
      fun x => { x with name }).value w).name = if w = v then name else (m.value w).name := by
    have hhas : ({ m with globalNames := m.renamedTable v name } : Module).values.Has v := hl.has hv
    rw [value_revalued hhas]
    split <;> rfl
  refine ⟨fun n w => ?_, fun n w u hw hu => ?_⟩
  · change (n, w) ∈ (m.renamedTable v name).entries ↔ w ∈ m.globals ∧ _
    rw [h.mem_renamedTable hv hfree, hname, h.entry]
    by_cases hw : w = v
    · simp [hw, hv]
    · simp [hw]
  · rcases (h.mem_renamedTable hv hfree).mp hw with ⟨hold, -⟩ | ⟨hnew, rfl⟩ <;>
      rcases (h.mem_renamedTable hv hfree).mp hu with ⟨hold', -⟩ | ⟨hnew', rfl⟩
    · exact h.unique n w u hold hold'
    · exact hfree n hnew' w (SymbolTable.find?_of_mem hold fun x hx => h.unique n x w hx hold)
    · exact (hfree n hnew u (SymbolTable.find?_of_mem hold' fun x hx =>
        h.unique n x u hx hold')).symm
    · rfl

theorem added (hl : m.ListsGlobals) {new : String} (hn : m.globalNames.find? new = none)
    (type : TypeId) (kind : ValueKind) :
    (((m.pushed type kind).revalued ⟨m.values.size⟩ fun x => { x with name := some new }).listed new
      ⟨m.values.size⟩).NamesListed := by
  have hfresh : ⟨m.values.size⟩ ∉ m.globals := fun hv => Nat.lt_irrefl _ (hl.has hv)
  have hname (w : ValueId) : (((m.pushed type kind).revalued ⟨m.values.size⟩
      fun x => { x with name := some new }).value w).name =
        if w = ⟨m.values.size⟩ then some new else (m.value w).name := by
    rw [value_revalued (has_pushed_new m type kind)]
    split
    · rfl
    · rw [name_pushed]
  have hentry {n : String} {w : ValueId} :
      (n, w) ∈ (m.globalNames.insert new ⟨m.values.size⟩).entries ↔
        (n, w) ∈ m.globalNames.entries ∨ n = new ∧ w = ⟨m.values.size⟩ :=
    SymbolTable.mem_entries_insert_new hn
  refine ⟨fun n w => ?_, fun n w u hw hu => ?_⟩
  · change (n, w) ∈ (m.globalNames.insert new _).entries ↔
      w ∈ m.globals ++ [⟨m.values.size⟩] ∧
        (((m.pushed type kind).revalued ⟨m.values.size⟩ fun x =>
          { x with name := some new }).value w).name = some n
    rw [hentry, hname, h.entry, List.mem_append, List.mem_singleton]
    by_cases hw : w = ⟨m.values.size⟩
    · simp [hw, hfresh, eq_comm]
    · simp [hw]
  · rcases hentry.mp hw with hold | ⟨hnew, rfl⟩ <;> rcases hentry.mp hu with hold' | ⟨hnew', rfl⟩
    · exact h.unique n w u hold hold'
    · exact (SymbolTable.not_mem_of_find?_eq_none hn (hnew' ▸ hold)).elim
    · exact (SymbolTable.not_mem_of_find?_eq_none hn (hnew ▸ hold')).elim
    · rfl

end NamesListed

/-! ### Symbols -/

theorem setName_namesListed (h : m.NamesListed) (hl : m.ListsGlobals) (text : String)
    (hv : (m.global? v).isSome → v ∈ m.globals) :
    Ends (setName v text) m (fun _ => NamesListed) NamesListed := by
  refine ends_setName (fun hg => ?_) (fun hg hfree => h.renamed hl (hv hg) hfree) h
  have hsame : m.SameListing (m.revalued v fun x => { x with name := nameOf text }) := by
    refine ⟨rfl, rfl, fun w hw => ?_⟩
    by_cases hhas : m.values.Has v
    · rw [value_revalued hhas, if_neg]
      rintro rfl
      obtain ⟨g, hk⟩ := hl w hw
      simp [global?_eq_some.mpr hk] at hg
    · rw [revalued_of_not_has hhas]
  exact hsame.namesListed h

theorem addGlobal_namesListed (h : m.NamesListed) (hl : m.ListsGlobals) (valueType : TypeId)
    (name : String) (hi : m.types.Indexed) :
    Ends (addGlobal valueType name) m (fun _ => NamesListed) NamesListed := by
  refine ends_addGlobal_change hi (fun _ _ => h) (fun type t _ _ _ hn => ?_) h
  have ht : NamesListed { m with types := t } := ⟨h.entry, h.unique⟩
  exact ht.added hl hn type _

theorem removeGlobal_namesListed (h : m.NamesListed) (hv : (m.global? v).isSome → v ∈ m.globals) :
    Ends (removeGlobal v) m (fun _ => NamesListed) NamesListed := by
  unfold removeGlobal
  rw [ends_bind]
  exact ends_globalData (fun g hg => h.unlisted (hv (by simp [global?_eq_some.mpr hg]))) h

/-- A text gets its global, which is then given its content and marks. -/
theorem globalString_namesListed (h : m.NamesListed) (hl : m.ListsGlobals) (hs : m.Sound)
    (name text : String) :
    Ends (globalString name text) m (fun _ => NamesListed) NamesListed := by
  unfold globalString
  rw [ends_bind]
  refine ends_constString hs.types.indexed (fun init m₁ hp _ => ?_) fun m₁ hp =>
    (Prepared.sameListing hp).namesListed h
  have h₁ := (Prepared.sameListing hp).namesListed h
  have hl₁ := Changed.listsGlobals (Quieted.changed (Prepared.quieted hp)) hl
  rw [ends_bind, ends_get, ends_bind]
  have hi := (Changed.sound (Quieted.changed (Prepared.quieted hp)) hs).types.indexed
  refine (addGlobal_namesListed h₁ hl₁ _ name hi).mono (fun v m₂ h₂ => ?_) fun _ h₂ => h₂
  have hmarks : Stays SameListing (do
      setInitializer v init
      setGlobalLinkage v .internal
      setGlobalConstant v true
      return v) :=
    (setInitializer_framed sameListing_framed v init).bind fun _ =>
      (setGlobalLinkage_framed sameListing_framed v _).bind fun _ =>
        (setGlobalConstant_framed sameListing_framed v _).bind fun _ => stays_pure v
  exact (hmarks m₂).mono (fun _ _ hm => hm.namesListed h₂) fun _ hm => hm.namesListed h₂

/-! ### Passes -/

open Classical in
/-- With some listed globals, their names leave the table and no other one. -/
theorem Stripped.namesListed {gone : BlockId → Prop} {removed : FunctionId → Prop}
    {dropped : ValueId → Prop} (hs : m.Stripped gone removed dropped m') (h : m.NamesListed)
    (hd : ∀ v, dropped v → v ∈ m.globals) : m'.NamesListed := by
  have hentry (n : String) (v : ValueId) : (n, v) ∈ m'.globalNames.entries ↔
      (n, v) ∈ m.globalNames.entries ∧ ¬ dropped v := by
    rw [hs.globalNames, SymbolTable.without, List.mem_filter, decide_eq_true_eq]
    refine and_congr_right fun hv => not_congr ⟨?_, fun hdrop => ⟨v, hdrop, ((h.entry n v).mp hv).2⟩⟩
    rintro ⟨w, hdrop, hw⟩
    obtain rfl := h.unique n v w hv ((h.entry n w).mpr ⟨hd w hdrop, hw⟩)
    exact hdrop
  refine ⟨fun n v => ?_, fun n v w hv hw =>
    h.unique n v w ((hentry n v).mp hv).1 ((hentry n w).mp hw).1⟩
  rw [hentry, h.entry, hs.globals, hs.value, List.mem_filter, decide_eq_true_eq]
  exact and_right_comm

theorem pass_namesListed (hm : m.Healthy) (h : m.NamesListed) (p : Pass) :
    Ends p.run m (fun _ => NamesListed) NamesListed := by
  have stays {α : Type} {step : Edit α} (hs : Stays SameListing step) :
      Ends step m (fun _ => NamesListed) NamesListed :=
    (hs m).mono (fun _ _ hm => hm.namesListed h) fun _ hm => hm.namesListed h
  have erase := eraseInstruction_framed sameListing_framed
  cases p with
  | globalDce =>
    exact (ends_removeUnneeded hm.sound hm.ordered hm.grounded hm.listsGlobals).mono
      (fun _ _ hs => Stripped.namesListed hs h fun _ hv => hv.1) nofun
  | dce => exact stays (eraseDead_stays erase)
  | unreachableBlockElim =>
    exact stays (removeUnreachable_stays (removeIncoming_framed sameListing_framed)
      (removeBlock_framed sameListing_framed))
  | constProp =>
    exact stays (foldConstants_stays (constWord_framed sameListing_framed)
      replaceAllUses_sameListing erase)

end Module

/-! ### Calls -/

/-- The value that a call renames or takes away by its handle. -/
def Call.renamed? : Call → Option ValueId
  | symbol (.setName v _) | symbol (.removeGlobal v) => some v
  | _ => none

/-- A call renames and takes away no global that is off the list already. -/
def Call.Heeds (m : Module) (c : Call) : Prop :=
  ∀ v ∈ c.renamed?, (m.global? v).isSome → v ∈ m.globals

instance (m : Module) (c : Call) : Decidable (c.Heeds m) :=
  inferInstanceAs (Decidable (∀ v ∈ c.renamed?, (m.global? v).isSome → v ∈ m.globals))

namespace Builder

variable {s s' : Builder} {c : Call} {v : ValueId}

theorem Emitted.sameListing (he : Emitted s v s') : s.module.SameListing s'.module := by
  obtain ⟨-, m, p, type, i, hm, -, -, -, -, -, -, rfl, hmodule⟩ := he
  have hlinked : (m.pushed type (.instruction i)).SameListing s'.module := by
    rw [hmodule]
    exact linkInstruction_framed sameListing_framed p.block p.before ⟨m.values.size⟩ _
  exact IsTrans.trans _ _ _ (IsTrans.trans _ _ _ hm.sameListing (sameListing_pushed m type _)) hlinked

theorem perform_namesListed (hs : s.Sturdy) (h : s.module.NamesListed) (hv : c.Valid s.module)
    (hc : c.Heeds s.module) :
    Ends c.perform s (fun _ s' => s'.module.NamesListed) fun s' => s'.module.NamesListed := by
  have hsound := hs.healthy.sound
  have hl := hs.healthy.listsGlobals
  have stays {α : Type} {step : Edit α} (hstep : Stays SameListing step) :
      Ends (onModule step) s (fun _ s' => s'.module.NamesListed) fun s' => s'.module.NamesListed := by
    rw [ends_onModule]
    exact (hstep s.module).mono (fun _ _ hm => hm.namesListed h) fun _ hm => hm.namesListed h
  cases c with
  | types c => exact stays (onTypes_framed sameListing_framed _)
  | constant c =>
    simp only [Call.perform, ends_map, ends_onModule]
    exact (ConstantCall.run_prepared hsound.types.indexed hv.1 hv.2).mono
      (fun _ _ hp => (Module.Prepared.sameListing hp).namesListed h)
      fun _ hp => (Module.Prepared.sameListing hp).namesListed h
  | symbol c =>
    obtain ⟨-, -, hf⟩ := hv
    cases c with
    | setName v text =>
      simp only [Call.perform, SymbolCall.run, ends_onModule, ends_map]
      exact setName_namesListed h hl text (hc v rfl)
    | addGlobal valueType name =>
      simp only [Call.perform, SymbolCall.run, ends_onModule, ends_map]
      exact addGlobal_namesListed h hl valueType name hsound.types.indexed
    | removeGlobal v =>
      simp only [Call.perform, SymbolCall.run, ends_onModule, ends_map]
      exact removeGlobal_namesListed h (hc v rfl)
    | globalString name text =>
      simp only [Call.perform, SymbolCall.run, ends_onModule, ends_map]
      exact globalString_namesListed h hl hsound name text
    | setParamNames f names =>
      simp only [Call.perform, SymbolCall.run, ends_onModule, ends_map]
      have hfits := hsound.functions f (hf f (by simp [SymbolCall.functions]))
      exact (setParamNames_sameListing names hl hfits).mono (fun _ _ hm => hm.namesListed h)
        fun _ hm => hm.namesListed h
    | removeFunction f =>
      exact stays ((removeFunction_framed sameListing_framed
        (fun _ _ => ⟨rfl, rfl, fun _ _ => rfl⟩) f).map _)
    | _ => exact stays (SymbolCall.run_framed sameListing_framed rfl (by simp))
  | layout c =>
    cases c with
    | replaceAllUses old new => exact stays ((replaceAllUses_sameListing old new).map _)
    | _ => exact stays (LayoutCall.run_framed sameListing_framed (by simp))
  | setCursor p =>
    simp only [Call.perform, ends_map, Builder.setCursor, ends_modify]
    exact h
  | atInstruction v =>
    simp only [Call.perform, ends_map, Builder.atInstruction, ends_bind, ends_readModule]
    split
    · exact h
    · exact h
  | emission e =>
    simp only [Call.perform, ends_map]
    refine (emission_emits hsound hs.healthy.ordered hv).mono (fun v s' hv => ?_) fun s' hp => ?_
    · obtain ⟨rfl, -⟩ | he := hv
      · exact h
      · exact he.sameListing.namesListed h
    · exact hp.2.sameListing.namesListed h

/-- One call that heeds the list of globals, successful or not, or one pass. -/
def Heeds (s s' : Builder) : Prop :=
  (∃ c : Call, c.Heeds s.module ∧ c.Valid s.module ∧ s' = (c.perform.outcome s).2) ∨
    ∃ p : Pass, s' = s.pass p

/-- Every state that such calls and passes lead to from an empty module. -/
def Heeded (s : Builder) : Prop :=
  ∃ name, Relation.ReflTransGen Heeds { module := { name } } s

theorem Heeds.advances (h : s.Heeds s') : s.Advances s' := by
  obtain ⟨c, -, hv, he⟩ | hp := h
  · exact .inl ⟨c, hv, he⟩
  · exact .inr hp

theorem Heeded.attained (h : s.Heeded) : s.Attained := by
  obtain ⟨name, h⟩ := h
  exact ⟨name, Relation.ReflTransGen.mono (fun _ _ => Heeds.advances) _ _ h⟩

theorem Heeded.namesListed (h : s.Heeded) : s.module.NamesListed := by
  obtain ⟨name, h⟩ := h
  induction h with
  | refl => exact namesListed_empty name
  | tail hsteps hstep ih =>
    have hs := (Heeded.attained ⟨name, hsteps⟩).sturdy
    obtain ⟨c, hc, hv, rfl⟩ | ⟨p, rfl⟩ := hstep
    · exact (perform_namesListed hs ih hv hc).state
    · exact (pass_namesListed hs.healthy ih p).state

/-- Every one of the calls heeds the list of globals when its turn comes. -/
def Heeding (s : Builder) : List Call → Prop
  | [] => True
  | c :: calls => c.Heeds s.module ∧ Heeding (c.perform.outcome s).2 calls

instance decidableHeeding : (s : Builder) → (calls : List Call) → Decidable (s.Heeding calls)
  | _, [] => .isTrue trivial
  | s, c :: calls => @instDecidableAnd _ _ _ (decidableHeeding (c.perform.outcome s).2 calls)

theorem Heeding.heeded {calls : List Call} (h : s.Heeding calls) (hv : s.Replays calls)
    (hs : s.Heeded) : (s.replay calls).Heeded := by
  induction calls generalizing s with
  | nil => exact hs
  | cons c calls ih =>
    obtain ⟨hc, h⟩ := h
    obtain ⟨hvalid, hv⟩ := hv
    obtain ⟨name, hs⟩ := hs
    exact ih h hv ⟨name, hs.tail (.inl ⟨c, hc, hvalid, rfl⟩)⟩

theorem heeded_empty (name : String) : Heeded { module := { name } } := ⟨name, .refl⟩

end Builder

end SsaKit
