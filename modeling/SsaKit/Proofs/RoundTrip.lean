import SsaKit.Proofs.Canonical
import SsaKit.Proofs.Stored

/-! A module that was stored is loaded again as it was. -/
namespace SsaKit

open Stored

/-! ### Nodes and functions -/

section Nodes

variable {kind owner : Entity} {α : Type} {n : Node kind owner α}

/-- The links of a node fit the fields they are stored in. -/
structure Node.Narrow (n : Node kind owner α) : Prop where
  parent : ∀ q ∈ n.parent, q.index < 2 ^ 32
  prev : ∀ k ∈ n.prev, k.index < 2 ^ 32
  next : ∀ k ∈ n.next, k.index < 2 ^ 32

theorem Node.Narrow.plain (h : n.Narrow) : n.writePlace.Plain :=
  plain_record (by simpa using
    ⟨(kept_link h.parent).plain, (kept_link h.prev).plain, (kept_link h.next).plain⟩)

theorem Node.Narrow.reads {β : Type} (h : n.Narrow) (content : β) :
    Node.readPlace content n.writePlace = some { n with content } :=
  reads₃ (f := Node.mk content) (kept_link h.parent).reads (kept_link h.prev).reads
    (kept_link h.next).reads

/-- A value is read as what its kind is read as, with everything else as it was. -/
theorem rereads_value {n : Node .value .block Value} {kind? : Option ValueKind} (h : n.Narrow)
    (ht : n.content.type.index < 2 ^ 32) (hk : Rereads n.content.kind kind?) :
    Rereads n (kind?.map fun kind => { n with content := { n.content with kind } }) := by
  refine ⟨plain_record (by simpa using ⟨(kept_handle ht).plain, (kept_name n.content.name).plain,
    hk.plain, h.plain⟩), ?_⟩
  show (do
    Node.readPlace (Value.mk (← Stored.read (write n.content.type))
      (← Stored.read (write n.content.name)) (← Stored.read (write n.content.kind)))
      n.writePlace) = _
  rw [(kept_handle ht).reads, (kept_name n.content.name).reads, hk.reads]
  cases kind? with
  | none => rfl
  | some kind => exact h.reads { n.content with kind }

theorem kept_value {n : Node .value .block Value} (h : n.Narrow)
    (ht : n.content.type.index < 2 ^ 32) (hk : n.content.kind.Narrow) : Kept n :=
  (rereads_value h ht (ValueKind.kept hk).rereads).kept

theorem kept_block {n : Node .block .function Block} (h : n.Narrow) (hc : Kept n.content.chain) :
    Kept n := by
  refine ⟨plain_record (by simpa using ⟨(kept_name n.content.name).plain, h.plain, hc.plain⟩), ?_⟩
  show (do
    Node.readPlace (Block.mk (← Stored.read (write n.content.name))
      (← Stored.read (write n.content.chain))) n.writePlace) = _
  rw [(kept_name n.content.name).reads, hc.reads]
  exact h.reads n.content

end Nodes

theorem kept_function {f : Function} (ht : f.type.index < 2 ^ 32)
    (hp : ∀ v ∈ f.params, v.index < 2 ^ 32) (hc : Kept f.chain) : Kept f := by
  have hp := kept_handles hp
  refine ⟨plain_record (by simpa using ⟨(kept_string f.name).plain, (kept_handle ht).plain,
    hp.plain, f.linkage.kept.plain, hc.plain, .bool f.isRemoved⟩), ?_⟩
  show (do
    return Function.mk (← Stored.read (write f.name)) (← Stored.read (write f.type))
      (← Stored.read (write f.params)) (← Stored.read (write f.linkage))
      (← Stored.read (write f.chain)) (← Stored.read (write f.isRemoved))) = _
  rw [(kept_string f.name).reads, (kept_handle ht).reads, hp.reads, f.linkage.kept.reads, hc.reads,
    (kept_bool f.isRemoved).reads]
  rfl

/-! ### Symbol tables -/

namespace SymbolTable

variable {α : Type} {t : SymbolTable α}

/-- No name has two entries. -/
def Distinct (t : SymbolTable α) : Prop := (t.entries.map (·.1)).Nodup

instance : Decidable t.Distinct := List.nodupDecidable _

/-- The entries in the order of their names. -/
def sorted (t : SymbolTable α) : SymbolTable α :=
  ⟨t.entries.mergeSort fun a b => decide (a.1 ≤ b.1)⟩

theorem sorted_perm (t : SymbolTable α) : t.sorted.entries.Perm t.entries :=
  List.mergeSort_perm _ _

theorem Distinct.sorted (h : t.Distinct) : t.sorted.Distinct :=
  (t.sorted_perm.map _).nodup_iff.mpr h

/-- Entries under new names are put behind the others. -/
theorem foldl_insert {es : List (String × α)} (done : List (String × α))
    (h : ((done ++ es).map (·.1)).Nodup) :
    es.foldl (fun t e => t.insert e.1 e.2) (⟨done⟩ : SymbolTable α) = ⟨done ++ es⟩ := by
  induction es generalizing done with
  | nil => simp
  | cons e es ih =>
    have hnew : done.filter (·.1 != e.1) = done := by
      refine List.filter_eq_self.mpr fun d hd => ?_
      rw [List.map_append, List.nodup_append] at h
      simpa using h.2.2 d.1 (List.mem_map_of_mem hd) e.1 (by simp)
    rw [List.foldl_cons, insert, erase, hnew, ih _ (by simpa using h)]
    simp

theorem reads_write [Stored α] (h : t.Distinct) (hv : ∀ a ∈ t.values, Kept a) :
    Stored.read (write t) = some t.sorted := by
  have hkept : ∀ e ∈ t.sorted.entries, Kept e.2 := fun e he =>
    hv e.2 (List.mem_map_of_mem (t.sorted_perm.mem_iff.mp he))
  have hmembers : ∀ es : List (String × α), (∀ e ∈ es, Kept e.2) →
      ((es.map fun e => (e.1, write e.2)).mapM fun m =>
        (Stored.read m.2).map fun a => (m.1, a)) = some es := by
    intro es hes
    induction es with
    | nil => rfl
    | cons e es ih =>
      rw [List.map_cons, List.mapM_cons, ih fun d hd => hes d (List.mem_cons_of_mem _ hd)]
      simp [(hes e List.mem_cons_self).reads]
  show ((Json.record (t.sorted.entries.map fun e => (e.1, write e.2))).members?.bind fun members => do
    let entries ← members.mapM fun m => (Stored.read m.2).map fun a => (m.1, a)
    return entries.foldl (fun t e => t.insert e.1 e.2) {}) = some t.sorted
  rw [members?_record, Option.bind_some, hmembers _ hkept]
  exact congrArg some (foldl_insert [] h.sorted)

theorem plain_write [Stored α] (hv : ∀ a ∈ t.values, Kept a) : (write t : Json).Plain := by
  refine plain_record fun j hj => ?_
  obtain ⟨m, hm, rfl⟩ := List.mem_map.mp hj
  obtain ⟨e, he, rfl⟩ := List.mem_map.mp hm
  exact (hv e.2 (List.mem_map_of_mem (t.sorted_perm.mem_iff.mp he))).plain

theorem Distinct.find?_eq_some (h : t.Distinct) {name : String} {a : α} :
    t.find? name = some a ↔ (name, a) ∈ t.entries := by
  obtain ⟨entries⟩ := t
  simp only [find?]
  induction entries with
  | nil => simp
  | cons e es ih =>
    obtain ⟨hnew, hrest⟩ := List.nodup_cons.mp h
    rw [List.lookup_cons, List.mem_cons]
    by_cases hname : name = e.1
    · subst hname
      have hmem : (e.1, a) ∉ es := fun hm => hnew (List.mem_map.mpr ⟨_, hm, rfl⟩)
      simp [hmem, Prod.ext_iff, eq_comm]
    · have hne : (name, a) ≠ e := fun he => hname (congrArg Prod.fst he)
      rw [beq_eq_false_iff_ne.mpr hname, or_iff_right hne]
      exact ih hrest

/-- Tables with the same entries find the same under every name. -/
theorem Distinct.find?_perm {u : SymbolTable α} (h : t.Distinct) (hp : u.entries.Perm t.entries)
    (name : String) : u.find? name = t.find? name := by
  have hu : u.Distinct := (hp.map _).nodup_iff.mpr h
  ext a
  rw [hu.find?_eq_some, h.find?_eq_some, hp.mem_iff]

end SymbolTable

/-! ### Modules -/

namespace Module

variable {m : Module} {v : ValueId} {b : BlockId} {f : FunctionId}

/-- A module as machine words and maps can hold it: handles and lengths are no longer than the words
that they are stored in, and a name has one entry. -/
structure Storable (m : Module) : Prop where
  types : m.types.size ≤ 2 ^ 32
  values : m.values.size ≤ 2 ^ 32
  blocks : m.blocks.size ≤ 2 ^ 32
  functions : m.functions.size ≤ 2 ^ 32
  lengths : ∀ ty ∈ m.types.entries.toList, ty.lengthFits
  positions : ∀ n ∈ m.values.toList, n.content.kind.positionFits
  chains : ∀ n ∈ m.blocks.toList, n.content.chain.length < 2 ^ 64
  functionNames : m.functionNames.Distinct
  globalNames : m.globalNames.Distinct

instance : Decidable m.Storable :=
  decidable_of_iff ((m.types.size ≤ 2 ^ 32 ∧ m.values.size ≤ 2 ^ 32 ∧ m.blocks.size ≤ 2 ^ 32 ∧
      m.functions.size ≤ 2 ^ 32) ∧ (∀ ty ∈ m.types.entries.toList, ty.lengthFits) ∧
      (∀ n ∈ m.values.toList, n.content.kind.positionFits) ∧
      (∀ n ∈ m.blocks.toList, n.content.chain.length < 2 ^ 64) ∧
      m.functionNames.Distinct ∧ m.globalNames.Distinct)
    ⟨fun ⟨⟨ht, hv, hb, hf⟩, hl, hp, hc, hfs, hgs⟩ => ⟨ht, hv, hb, hf, hl, hp, hc, hfs, hgs⟩,
      fun ⟨ht, hv, hb, hf, hl, hp, hc, hfs, hgs⟩ => ⟨⟨ht, hv, hb, hf⟩, hl, hp, hc, hfs, hgs⟩⟩

/-- No value is a number that is not an integer. -/
def FloatFree (m : Module) : Prop := ∀ n ∈ m.values.toList, n.content.kind.isFloat = false

instance : Decidable m.FloatFree :=
  inferInstanceAs (Decidable (∀ n ∈ m.values.toList, n.content.kind.isFloat = false))

/-- The module with its symbols in the order of their names, and the maps of its types made anew. -/
def restored (m : Module) : Module :=
  { m with
    types := .ofEntries m.types.entries
    functionNames := m.functionNames.sorted
    globalNames := m.globalNames.sorted }

/-- The links of a node that lead to where they should fit. -/
theorem LinksIntact.narrow {kind owner : Entity} {α : Type} {a : Arena kind owner α}
    {has : Handle owner → Prop} {i : Nat} {hi : i < a.size} (h : LinksIntact a has ⟨i⟩)
    (ha : a.size ≤ 2 ^ 32) (hhas : ∀ q, has q → q.index < 2 ^ 32) : a[i].Narrow := by
  obtain ⟨hp, hv, hn⟩ := (linksIntact_iff (k := ⟨i⟩) hi).mp h
  exact ⟨fun q hq => hhas q (hp q hq), fun k hk => Nat.lt_of_lt_of_le (hv k hk) ha,
    fun k hk => Nat.lt_of_lt_of_le (hn k hk) ha⟩

namespace Storable

variable (hs : m.Storable)
include hs

theorem type_lt {t : TypeId} (ht : m.types.contains t) : t.index < 2 ^ 32 := by
  have hlt : t.index < m.types.size := by simpa [TypeTable.contains] using ht
  exact Nat.lt_of_lt_of_le hlt hs.types

theorem value_lt (hv : m.values.Has v) : v.index < 2 ^ 32 := Nat.lt_of_lt_of_le hv hs.values

theorem block_lt (hb : m.blocks.Has b) : b.index < 2 ^ 32 := Nat.lt_of_lt_of_le hb hs.blocks

theorem function_lt (hf : m.HasFunction f) : f.index < 2 ^ 32 :=
  Nat.lt_of_lt_of_le hf hs.functions

theorem kept_types (h : m.types.Intact) : Kept m.types.entries := by
  refine kept_array fun ty hty => Ty.kept ?_
  have hlength := hs.lengths ty hty
  obtain ⟨i, hi, rfl⟩ := Array.mem_iff_getElem.mp (Array.mem_toList_iff.mp hty)
  have hentry : m.types.entry ⟨i⟩ = m.types.entries[i] := by simp [TypeTable.entry, hi]
  have hin : m.types.contains ⟨i⟩ := TypeTable.contains_iff.mpr hi
  refine ⟨fun t ht => ?_, fun n hn => ?_, hlength⟩
  · rw [← hentry] at ht
    exact hs.type_lt ((h ⟨i⟩ hin).children t ht)
  · rw [← hentry] at hn
    have hwide := ((h ⟨i⟩ hin).width n hn).2
    simp only [maxIntBits] at hwide
    omega

theorem kind_narrow (h : m.ValueIntact v) (hp : (m.kindOf v).positionFits)
    (hx : (m.kindOf v).isFloat = false) : (m.kindOf v).Narrow where
  types t ht := hs.type_lt (h.mentioned t ht)
  operands w hw := hs.value_lt (h.operands w hw)
  blocks b hb := hs.block_lt (h.blocks b hb)
  functions f hf := hs.function_lt (h.functions f hf)
  position := hp
  exact := hx

theorem kept_values (h : m.Intact) (hx : m.FloatFree) : Kept m.values := by
  refine kept_array fun n hn => ?_
  have hposition := hs.positions n hn
  have hfloat := hx n hn
  obtain ⟨i, hi, rfl⟩ := Array.mem_iff_getElem.mp (Array.mem_toList_iff.mp hn)
  have hvalue : m.values[i].content = m.value ⟨i⟩ := by simp [value, hi]
  have hv := h.values ⟨i⟩ hi
  rw [hvalue] at hposition hfloat
  refine kept_value (hv.links.narrow hs.values fun q => hs.block_lt) ?_ ?_
  · rw [hvalue]
    exact hs.type_lt hv.type
  · rw [hvalue]
    exact hs.kind_narrow hv hposition hfloat

theorem kept_blocks (h : m.Intact) : Kept m.blocks := by
  refine kept_array fun n hn => ?_
  have hlength := hs.chains n hn
  obtain ⟨i, hi, rfl⟩ := Array.mem_iff_getElem.mp (Array.mem_toList_iff.mp hn)
  have hblock : m.block ⟨i⟩ = m.blocks[i].content := by simp [block, hi]
  have hb := h.blocks ⟨i⟩ hi
  refine kept_block (hb.links.narrow hs.blocks fun q => hs.function_lt) ?_
  rw [← hblock] at hlength ⊢
  exact kept_chain (fun k hk => hs.value_lt (hb.ends.first k hk))
    (fun k hk => hs.value_lt (hb.ends.last k hk)) hlength

theorem kept_functions (h : m.Intact) : Kept m.functions := by
  refine kept_array fun f hf => ?_
  obtain ⟨i, hi, rfl⟩ := Array.mem_iff_getElem.mp (Array.mem_toList_iff.mp hf)
  have hfunction : m.function ⟨i⟩ = m.functions[i] := by simp [function, hi]
  have hf := h.functions ⟨i⟩ hi
  obtain ⟨body, hruns, -⟩ := h.bodies ⟨i⟩ hi
  rw [← hfunction]
  refine kept_function (hs.type_lt hf.type) (fun v hv => hs.value_lt (hf.params v hv)) ?_
  refine kept_chain (fun k hk => hs.block_lt (hf.ends.first k hk))
    (fun k hk => hs.block_lt (hf.ends.last k hk)) ?_
  have hfits := hruns.fits
  have hlength := hruns.length
  have := hs.blocks
  omega

theorem kept_symbols (h : m.Intact) : (∀ f ∈ m.functionNames.values, Kept f) ∧
    Kept m.globals ∧ ∀ v ∈ m.globalNames.values, Kept v :=
  ⟨fun f hf => kept_handle (hs.function_lt (h.functionNames f hf)),
    kept_handles fun v hv => hs.value_lt (h.globals v hv),
    fun v hv => kept_handle (hs.value_lt (h.globalNames v hv))⟩

variable {values? : Option (Arena .value .block Value)}

theorem plain_write (h : m.Intact) (hv : Rereads m.values values?) : (write m : Json).Plain := by
  obtain ⟨hfs, hgs, hvs⟩ := hs.kept_symbols h
  exact plain_record (by
    simpa using ⟨(kept_string m.name).plain, (hs.kept_types h.types).plain, hv.plain,
      (hs.kept_blocks h).plain, (hs.kept_functions h).plain, SymbolTable.plain_write hfs,
      hgs.plain, SymbolTable.plain_write hvs⟩)

/-- A module is read as what its values are read as, with everything else as it was. -/
theorem reads_write (h : m.Intact) (hv : Rereads m.values values?) :
    Stored.read (write m) = values?.map fun values => { m.restored with values } := by
  obtain ⟨hfs, hgs, hvs⟩ := hs.kept_symbols h
  show (do
    return Module.mk (← Stored.read (write m.name))
      (← (Stored.read (write m.types.entries)).map TypeTable.ofEntries) (← Stored.read (write m.values))
      (← Stored.read (write m.blocks)) (← Stored.read (write m.functions))
      (← Stored.read (write m.functionNames)) (← Stored.read (write m.globals))
      (← Stored.read (write m.globalNames))) = _
  rw [(kept_string m.name).reads, (hs.kept_types h.types).reads, hv.reads,
    (hs.kept_blocks h).reads, (hs.kept_functions h).reads,
    SymbolTable.reads_write hs.functionNames hfs, hgs.reads,
    SymbolTable.reads_write hs.globalNames hvs]
  cases values? <;> rfl

/-- What the document of a module is taken for, once its text and its header have been read. -/
theorem load_eq (h : m.Intact) (hv : Rereads m.values values?) :
    load m.store = match values?.map fun values => { m.restored with values } with
      | none => .error unreadable
      | some m' => match m'.checkIntegrity with
        | .ok () => .ok m'
        | .error e => .error (.bitcode s!"corrupt module: {e.text}") := by
  have hplain : m.document.Plain := plain_record (by
    simpa [formatVersion] using
      ⟨.text magic, .number (Json.literal_toString 1), hs.plain_write h hv⟩)
  have hheader : header? m.document = some (magic, formatVersion) := by
    show (do return (magic, ← narrow? (.ofNat formatVersion))) = some (magic, formatVersion)
    rw [narrow?_ofNat (by decide)]
    rfl
  have hbody : body? m.document = values?.map fun values => { m.restored with values } :=
    hs.reads_write h hv
  rw [load, store, Json.ofBytes?_bytes hplain]
  simp only [ofDocument, hheader, hbody]
  cases values? <;> rfl

theorem load_of_rereads (h : m.Intact) {values : Arena .value .block Value}
    (hv : Rereads m.values (some values))
    (hc : ({ m.restored with values } : Module).checkIntegrity = .ok ()) :
    load m.store = .ok { m.restored with values } := by
  rw [hs.load_eq h hv]
  simp only [Option.map_some, hc]

end Storable

/-- Neither the order of the symbols nor a map of the types is anything that the check looks at. -/
theorem restored_checkIntegrity (h : m.checkIntegrity = .ok ()) :
    m.restored.checkIntegrity = .ok () := by
  unfold checkIntegrity at h ⊢
  simp only [then_eq_ok, checkSymbols_eq_ok] at h ⊢
  obtain ⟨htypes, hvalues, hblocks, hfunctions, ⟨hglobals, hvs, hfs⟩, hbodies⟩ := h
  have htable : m.restored.types.checkHandles = m.types.checkHandles := by
    simp only [TypeTable.checkHandles, TypeTable.size, restored, TypeTable.entries_ofEntries,
      TypeTable.entry_ofEntries]
    rfl
  have hvalue : m.restored.checkValue = m.checkValue := by
    unfold checkValue
    simp only [restored, TypeTable.contains_ofEntries]
    rfl
  have hfunction : m.restored.checkFunctionData = m.checkFunctionData := by
    unfold checkFunctionData
    simp only [restored, TypeTable.contains_ofEntries, TypeTable.kind, TypeTable.entry_ofEntries]
    rfl
  exact ⟨htable ▸ htypes, hvalue ▸ hvalues, hblocks, hfunction ▸ hfunctions,
    ⟨hglobals, fun v hv => hvs v ((m.globalNames.sorted_perm.map _).mem_iff.mp hv),
      fun f hf => hfs f ((m.functionNames.sorted_perm.map _).mem_iff.mp hf)⟩, hbodies⟩

theorem load_store (h : m.checkIntegrity = .ok ()) (hs : m.Storable) (hx : m.FloatFree) :
    load m.store = .ok m.restored := by
  have hi := checkIntegrity_eq_ok.mp h
  exact hs.load_of_rereads hi (hs.kept_values hi hx).rereads (restored_checkIntegrity h)

/-- The same entries under the same names, in whatever order. -/
structure SameSymbols {α : Type} (t u : SymbolTable α) : Prop where
  entries : u.entries.Perm t.entries
  find? : ∀ name, u.find? name = t.find? name

theorem sameSymbols_sorted {α : Type} {t : SymbolTable α} (h : t.Distinct) :
    SameSymbols t t.sorted :=
  ⟨t.sorted_perm, h.find?_perm t.sorted_perm⟩

/-- Modules that do not differ in anything that can be asked of them. -/
structure Same (m m' : Module) : Prop where
  name : m'.name = m.name
  types : m'.types.entries = m.types.entries
  maps : m'.types.Indexed
  values : m'.values = m.values
  blocks : m'.blocks = m.blocks
  functions : m'.functions = m.functions
  globals : m'.globals = m.globals
  functionNames : SameSymbols m.functionNames m'.functionNames
  globalNames : SameSymbols m.globalNames m'.globalNames

theorem Storable.same_restored (hs : m.Storable) : m.Same m.restored :=
  ⟨rfl, TypeTable.entries_ofEntries _, TypeTable.indexed_ofEntries _, rfl, rfl, rfl, rfl,
    sameSymbols_sorted hs.functionNames, sameSymbols_sorted hs.globalNames⟩

/-- Storing a module that passes the check and loading it again gives it back. If it was made by
calls and passes, the maps that its types are read into are those that it has, so that asking the
loaded one for a type that the module has gives the handle that it has there. -/
theorem stored_loaded (h : m.checkIntegrity = .ok ()) (hs : m.Storable) (hx : m.FloatFree) :
    ∃ m', load m.store = .ok m' ∧ m.Same m' ∧
      ∀ s : Builder, s.Attained → s.module = m → m'.types = m.types ∧ m'.types.Canonical := by
  refine ⟨m.restored, load_store h hs hx, hs.same_restored, fun s ha hm => ?_⟩
  have hi : m.types.Indexed := hm ▸ ha.sturdy.healthy.sound.types.indexed
  have htypes : m.restored.types = m.types := hi
  rw [htypes, ← hm]
  exact ⟨rfl, ha.canonical⟩

end Module

/-- A program with a named struct, constants of most kinds and a function whose name has to be
escaped. -/
def packing : List Call :=
  [.types (.ofType (.int 32)),
    .types (.namedStruct "pair" [⟨0⟩, ⟨0⟩] false),
    .constant (.integer ⟨0⟩ 7),
    .constant (.namedStruct ⟨1⟩ [⟨0⟩, ⟨0⟩]),
    .symbol (.addGlobal ⟨1⟩ "origin"),
    .symbol (.setInitializer ⟨2⟩ ⟨1⟩),
    .symbol (.declareFunction "first \"of\" é\n" ⟨0⟩ [⟨1⟩] false),
    .layout (.appendBlock ⟨0⟩ "entry"),
    .setCursor (some { block := ⟨0⟩ }),
    .emission (.extractValue ⟨3⟩ 0),
    .emission (.ret ⟨4⟩)]

def packed : Builder := Builder.replay { module := { name := "packing" } } packing

theorem reachable_packed : packed.Reachable :=
  Builder.Replays.reachable (by decide +kernel) (Builder.reachable_empty "packing")

/-- The module that those calls make is stored and loaded, and its struct and its integer type are
found again. -/
theorem packed_loaded : packed.module.checkIntegrity = .ok () ∧ packed.module.Storable ∧
    packed.module.FloatFree ∧ ∃ m, Module.load packed.module.store = .ok m ∧
      packed.module.Same m ∧ m.types.findStruct? "pair" = some ⟨1⟩ ∧
      (TypeTable.ofTy (.int 32)).outcome m.types = (.ok ⟨0⟩, m.types) := by
  have ha := reachable_packed.attained
  have hi := ha.integrity_checked
  have hs : packed.module.Storable :=
    ⟨by decide +kernel, by decide +kernel, by decide +kernel, by decide +kernel, by decide +kernel,
      by decide +kernel, by decide +kernel, by decide +kernel, by decide +kernel⟩
  have hx : packed.module.FloatFree := by decide +kernel
  obtain ⟨m, hload, hsame, hcanonical⟩ := Module.stored_loaded hi hs hx
  obtain ⟨htypes, hc⟩ := hcanonical packed ha rfl
  have hpair : m.types.contains ⟨1⟩ ∧ (m.types.entry ⟨1⟩).structName = some "pair" := by
    rw [htypes]
    decide +kernel
  have hint : m.types.contains ⟨0⟩ ∧ m.types.entry ⟨0⟩ = .int 32 := by
    rw [htypes]
    decide +kernel
  refine ⟨hi, hs, hx, m, hload, hsame, (hc.findStruct "pair" ⟨1⟩).mpr hpair, ?_⟩
  have hask := hc.ask m.types .refl ⟨0⟩ hint.1 (by rw [hint.2]; rfl)
  rwa [hint.2] at hask

end SsaKit
