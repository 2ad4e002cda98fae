import SsaKit.Proofs.Rereading
import SsaKit.Proofs.RoundTrip

/-! What storing a module and loading it again makes of the doubles in it. -/
namespace SsaKit

open Stored

/-- What a double is read as once it was written, if it is finite. -/
def Double.reloaded (x : Double) : Double := x.reread.getD x

theorem Double.reread_eq_some {x : Double} (h : x.isFinite) : x.reread = some x.reloaded := by
  obtain ⟨y, hy, -⟩ := Double.reread_of_isFinite h
  rw [reloaded, hy]
  rfl

theorem Double.recalls_reloaded {x : Double} (h : x.isFinite) : x.Recalls x.reloaded := by
  obtain ⟨y, hy, hrecalls⟩ := Double.reread_of_isFinite h
  rw [reloaded, hy]
  exact hrecalls

theorem Double.plain_write (x : Double) : (write x : Json).Plain := by
  show (if x.isFinite then Json.number (x.text Number.Layout.stored) else Json.null).Plain
  split
  · rename_i h
    obtain ⟨n, k, hliteral, -⟩ := Json.stored_isFinite h
    exact .number hliteral
  · exact .null

theorem mapM_ite {α β : Type} {as : List α} {p : α → Bool} {f : α → β} :
    (as.mapM fun a => if p a then some (f a) else none) =
      if as.all p then some (as.map f) else none := by
  induction as with
  | nil => rfl
  | cons a as ih =>
    rw [List.mapM_cons, ih, List.all_cons]
    cases p a <;> cases as.all p <;> rfl

/-! ### Kinds and values -/

namespace ValueKind

/-- A double changed, anything else as it is. -/
def mapFloat (f : Double → Double) : ValueKind → ValueKind
  | float x => float (f x)
  | k => k

def isFinite : ValueKind → Bool
  | float x => x.isFinite
  | _ => true

variable {f : Double → Double} (k : ValueKind)

@[simp] theorem operands_mapFloat : (k.mapFloat f).operands = k.operands := by cases k <;> rfl

@[simp] theorem instruction?_mapFloat : (k.mapFloat f).instruction? = k.instruction? := by
  cases k <;> rfl

@[simp] theorem mentionedTypes_mapFloat :
    Module.mentionedTypes (k.mapFloat f) = Module.mentionedTypes k := by cases k <;> rfl

@[simp] theorem mentionedBlocks_mapFloat :
    Module.mentionedBlocks (k.mapFloat f) = Module.mentionedBlocks k := by cases k <;> rfl

@[simp] theorem mentionedFunctions_mapFloat :
    Module.mentionedFunctions (k.mapFloat f) = Module.mentionedFunctions k := by cases k <;> rfl

/-- A double is read as what it is reloaded as, if it is finite, and anything else as it was. -/
theorem rereads {k : ValueKind} (h : k.isFloat = false → k.Narrow) :
    Rereads k (if k.isFinite then some (k.mapFloat Double.reloaded) else none) := by
  cases k with
  | float x =>
    refine ⟨plain_holding x.plain_write, ?_⟩
    show x.reread.map float = if x.isFinite then some (float x.reloaded) else none
    split
    · rename_i hx
      rw [Double.reread_eq_some hx]
      rfl
    · rename_i hx
      rw [Double.reread_eq_none (by simpa using hx)]
      rfl
  | _ => exact (kept (h rfl)).rereads

end ValueKind

/-! ### Modules -/

/-- A value whose double, if it is one, has changed. -/
def Node.mapFloat (f : Double → Double) (n : Node .value .block Value) : Node .value .block Value :=
  { n with content := { n.content with kind := n.content.kind.mapFloat f } }

namespace Module

variable {m : Module} {v : ValueId}

/-- The module with all its doubles changed. -/
def mapFloats (f : Double → Double) (m : Module) : Module :=
  { m with values := m.values.map (Node.mapFloat f) }

/-- No value is a double that is infinite or no number. -/
def FloatsFinite (m : Module) : Prop := ∀ n ∈ m.values.toList, n.content.kind.isFinite

instance : Decidable m.FloatsFinite :=
  inferInstanceAs (Decidable (∀ n ∈ m.values.toList, n.content.kind.isFinite))

section MapFloats

variable {f : Double → Double}

@[simp] theorem types_mapFloats : (m.mapFloats f).types = m.types := rfl

@[simp] theorem blocks_mapFloats : (m.mapFloats f).blocks = m.blocks := rfl

@[simp] theorem functions_mapFloats : (m.mapFloats f).functions = m.functions := rfl

theorem value_mapFloats (v : ValueId) : (m.mapFloats f).value v =
    { m.value v with kind := (m.value v).kind.mapFloat f } := by
  unfold value mapFloats
  rw [Array.getElem?_map]
  cases m.values[v.index]? <;> rfl

@[simp] theorem kindOf_mapFloats : (m.mapFloats f).kindOf v = (m.kindOf v).mapFloat f := by
  rw [kindOf, value_mapFloats]
  rfl

@[simp] theorem typeOf_mapFloats : (m.mapFloats f).typeOf v = m.typeOf v := by
  rw [typeOf, value_mapFloats]
  rfl

theorem constFloat?_mapFloats : (m.mapFloats f).constFloat? v = (m.constFloat? v).map f := by
  rw [constFloat?, kindOf_mapFloats, constFloat?]
  cases m.kindOf v <;> rfl

@[simp] theorem operands_mapFloats : (m.mapFloats f).operands v = m.operands v := by
  simp [operands]

@[simp] theorem isInstruction_mapFloats : (m.mapFloats f).isInstruction v = m.isInstruction v := by
  simp [isInstruction, instruction?]

@[simp] theorem has_mapFloats : (m.mapFloats f).values.Has v ↔ m.values.Has v := by
  simp [Arena.Has, mapFloats]

@[simp] theorem parent?_mapFloats : (m.mapFloats f).values.parent? v = m.values.parent? v := by
  simp only [Arena.parent?, mapFloats, Array.getElem?_map, Option.bind_map]
  rfl

@[simp] theorem prev?_mapFloats : (m.mapFloats f).values.prev? v = m.values.prev? v := by
  simp only [Arena.prev?, mapFloats, Array.getElem?_map, Option.bind_map]
  rfl

@[simp] theorem next?_mapFloats : (m.mapFloats f).values.next? v = m.values.next? v := by
  simp only [Arena.next?, mapFloats, Array.getElem?_map, Option.bind_map]
  rfl

theorem runs_mapFloats {c : Chain .value} {l : List ValueId} (h : c.Runs m.values l) :
    c.Runs (m.mapFloats f).values l := by
  have hnext : (m.mapFloats f).values.next? = m.values.next? := funext fun _ => next?_mapFloats
  exact ⟨hnext ▸ h.walk, h.length, h.last, by simpa [mapFloats] using h.fits⟩

theorem ValueIntact.mapFloats (h : m.ValueIntact v) : (m.mapFloats f).ValueIntact v where
  type := by simpa using h.type
  mentioned := by simpa using h.mentioned
  operands w hw := has_mapFloats.mpr (h.operands w (operands_mapFloats ▸ hw))
  blocks := by simpa using h.blocks
  functions := by simpa [HasFunction] using h.functions
  argument g n hk := h.argument g n (by
    rw [kindOf_mapFloats] at hk
    cases hv : m.kindOf v <;> rw [hv] at hk <;> first | exact hk | cases hk)
  links := ⟨fun q hq => h.links.parent q (parent?_mapFloats ▸ hq),
    fun j hj => has_mapFloats.mpr (h.links.prev j (prev?_mapFloats ▸ hj)),
    fun j hj => has_mapFloats.mpr (h.links.next j (next?_mapFloats ▸ hj))⟩

/-- What the check asks for has nothing to do with doubles. -/
theorem Intact.mapFloats (h : m.Intact) : (m.mapFloats f).Intact where
  types := h.types
  values v hv := (h.values v (has_mapFloats.mp hv)).mapFloats
  blocks b hb := ⟨(h.blocks b hb).links,
    fun k hk => has_mapFloats.mpr ((h.blocks b hb).ends.first k hk),
    fun k hk => has_mapFloats.mpr ((h.blocks b hb).ends.last k hk)⟩
  functions g hg :=
    let hf := h.functions g hg
    ⟨hf.type, hf.kind, hf.arity, fun v hv => has_mapFloats.mpr (hf.params v hv), hf.ends⟩
  globals v hv := has_mapFloats.mpr (h.globals v hv)
  globalNames v hv := has_mapFloats.mpr (h.globalNames v hv)
  functionNames := h.functionNames
  bodies g hg := by
    obtain ⟨body, hruns, hcode⟩ := h.bodies g hg
    refine ⟨body, hruns, fun b hb => ⟨(hcode b hb).1, ?_⟩⟩
    obtain ⟨code, hruns, hcode⟩ := (hcode b hb).2
    exact ⟨code, runs_mapFloats hruns, fun v hv =>
      ⟨parent?_mapFloats.trans (hcode v hv).1, isInstruction_mapFloats.trans (hcode v hv).2⟩⟩

end MapFloats

/-- The values are read again with their doubles reloaded, if those are all finite. -/
theorem Storable.rereads_values (hs : m.Storable) (h : m.Intact) : Rereads m.values
    (if m.FloatsFinite then some (m.mapFloats Double.reloaded).values else none) := by
  have hnode : ∀ n ∈ m.values.toList, Rereads n
      (if n.content.kind.isFinite then some (n.mapFloat Double.reloaded) else none) := by
    intro n hn
    have hposition := hs.positions n hn
    obtain ⟨i, hi, rfl⟩ := Array.mem_iff_getElem.mp (Array.mem_toList_iff.mp hn)
    have hvalue : m.values[i].content = m.value ⟨i⟩ := by simp [value, hi]
    have hv := h.values ⟨i⟩ hi
    have hkind : Rereads m.values[i].content.kind _ :=
      ValueKind.rereads fun hx => by
        rw [hvalue] at hposition hx ⊢
        exact hs.kind_narrow hv hposition hx
    have hread := rereads_value (hv.links.narrow hs.values fun q => hs.block_lt)
      (hvalue ▸ hs.type_lt hv.type) hkind
    rwa [apply_ite (Option.map _)] at hread
  have hread := rereads_array hnode
  rw [mapM_ite, apply_ite (Option.map _)] at hread
  have hfinite : m.values.toList.all (·.content.kind.isFinite) ↔ m.FloatsFinite := List.all_eq_true
  simpa only [hfinite, mapFloats, ← Array.toList_map, Option.map_some, Option.map_none] using hread

theorem FloatsFinite.isFinite {x : Double} (h : m.FloatsFinite) (hx : m.constFloat? v = some x) :
    x.isFinite := by
  rw [constFloat?, kindOf, value] at hx
  cases hv : m.values[v.index]? with
  | none =>
    rw [hv] at hx
    cases hx
  | some n =>
    rw [hv] at hx
    have hn := h n (Array.mem_toList_iff.mpr (Array.mem_of_getElem? hv))
    dsimp only at hx
    split at hx
    · rename_i hkind
      rw [hkind] at hn
      exact Option.some_inj.mp hx ▸ hn
    · cases hx

section Load

variable (h : m.checkIntegrity = .ok ()) (hs : m.Storable)
include h hs

theorem load_floats (hx : m.FloatsFinite) :
    load m.store = .ok (m.mapFloats Double.reloaded).restored := by
  have hi := checkIntegrity_eq_ok.mp h
  have hread := hs.rereads_values hi
  rw [if_pos hx] at hread
  exact hs.load_of_rereads hi hread (restored_checkIntegrity (checkIntegrity_eq_ok.mpr hi.mapFloats))

theorem load_unreadable (hx : ¬ m.FloatsFinite) : load m.store = .error unreadable := by
  have hi := checkIntegrity_eq_ok.mp h
  have hread := hs.rereads_values hi
  rw [if_neg hx] at hread
  exact hs.load_eq hi hread

end Load

/-- A double in the precision of a type. -/
def precise (m : Module) (type : TypeId) (x : Double) : Double :=
  if m.types.entry type = .float then x.toSinglePrecision else x

theorem ends_constFloat_precise (type : TypeId) (x : Double) : Attempt.Ends (constFloat type x) m
    (fun c m' => m'.constFloat? c = some (m.precise type x)) fun _ => True := by
  unfold constFloat
  simp only [Attempt.ends_bind, Attempt.ends_get]
  refine ends_expectKind (fun _ => ?_) trivial
  show (m.pushed type (.float (m.precise type x))).constFloat? ⟨m.values.size⟩ = _
  rw [constFloat?, kindOf, value_pushed_new]

/-- A float constant holds its number in the precision of its type. Storing a module with a constant
that is not finite leaves a text that is never loaded again. Any other module is loaded with nothing
but its float constants changed: each of them is finite and keeps its sign, is no more than three
steps from what it was, and is what it was if it is short. -/
theorem floats_reloaded (h : m.checkIntegrity = .ok ()) (hs : m.Storable) :
    (∀ m₀ type x c, (constFloat type x).outcome m₀ = (.ok c, m) →
      m.constFloat? c = some (m₀.precise type x)) ∧
    (¬ m.FloatsFinite → load m.store = .error unreadable) ∧
    (m.FloatsFinite → ∃ m', load m.store = .ok m' ∧ (m.mapFloats Double.reloaded).Same m' ∧
      ∀ c x, m.constFloat? c = some x → ∃ y, m'.constFloat? c = some y ∧ x.Recalls y) := by
  refine ⟨fun m₀ type x c hmade => ?_, load_unreadable h hs,
    fun hx => ⟨_, load_floats h hs hx, ?_, fun c x hc => ?_⟩⟩
  · have hends := ends_constFloat_precise (m := m₀) type x
    rwa [Attempt.Ends, hmade] at hends
  · exact ⟨rfl, TypeTable.entries_ofEntries _, TypeTable.indexed_ofEntries _, rfl, rfl, rfl, rfl,
      sameSymbols_sorted hs.functionNames, sameSymbols_sorted hs.globalNames⟩
  · refine ⟨x.reloaded, ?_, Double.recalls_reloaded (hx.isFinite hc)⟩
    exact constFloat?_mapFloats.trans (congrArg (Option.map _) hc)

end Module

/-- A program with constants of both types, the last of them with a full significand. -/
def spelling : List Call :=
  [.types (.ofType .double),
    .types (.ofType .float),
    .constant (.float ⟨0⟩ ⟨0x3ff8000000000000⟩),
    .constant (.float ⟨1⟩ ⟨0x3fb999999999999a⟩),
    .constant (.float ⟨0⟩ ⟨0x433fffffffffffff⟩)]

def spelled : Builder := Builder.replay { module := { name := "spelling" } } spelling

theorem reachable_spelled : spelled.Reachable :=
  Builder.Replays.reachable (by decide +kernel) (Builder.reachable_empty "spelling")

/-- One and a half comes back as it was, a tenth in single precision next to what it was if not so,
and the largest odd number that a double can be as the even number below it. -/
theorem spelled_reloaded : spelled.module.checkIntegrity = .ok () ∧ spelled.module.Storable ∧
    spelled.module.FloatsFinite ∧ ∃ m, Module.load spelled.module.store = .ok m ∧
      m.constFloat? ⟨0⟩ = some ⟨0x3ff8000000000000⟩ ∧
      (∃ y, m.constFloat? ⟨1⟩ = some y ∧ (⟨0x3fb99999a0000000⟩ : Double).Recalls y) ∧
      m.constFloat? ⟨2⟩ = some ⟨0x433ffffffffffffe⟩ := by
  have hi := reachable_spelled.attained.integrity_checked
  have hs : spelled.module.Storable := by decide +kernel
  have hx : spelled.module.FloatsFinite := by decide +kernel
  obtain ⟨m, hload, hsame, hrecalls⟩ := (Module.floats_reloaded hi hs).2.2 hx
  have hvalue (c : ValueId) : m.constFloat? c =
      (spelled.module.constFloat? c).map Double.reloaded := by
    rw [← Module.constFloat?_mapFloats, Module.constFloat?, Module.kindOf, Module.value,
      hsame.values]
    rfl
  refine ⟨hi, hs, hx, m, hload, ?_, hrecalls ⟨1⟩ _ (by decide +kernel), ?_⟩
  · rw [hvalue]
    decide +kernel
  · rw [hvalue]
    decide +kernel

/-- A program with an infinite constant. -/
def overreaching : List Call :=
  [.types (.ofType .double), .constant (.float ⟨0⟩ ⟨0x7ff0000000000000⟩)]

def overreached : Builder := Builder.replay { module := { name := "overreaching" } } overreaching

theorem reachable_overreached : overreached.Reachable :=
  Builder.Replays.reachable (by decide +kernel) (Builder.reachable_empty "overreaching")

/-- The constant is accepted, and the module that holds it is stored and never loaded again. -/
theorem overreached_unreadable : overreached.Reachable ∧
    overreached.module.constFloat? ⟨0⟩ = some ⟨0x7ff0000000000000⟩ ∧
    Module.load overreached.module.store = .error Module.unreadable := by
  have hs : overreached.module.Storable := by decide +kernel
  exact ⟨reachable_overreached, by decide +kernel, Module.load_unreadable
    reachable_overreached.attained.integrity_checked hs (by decide +kernel)⟩

end SsaKit
