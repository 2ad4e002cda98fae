import Mathlib.Data.List.Nodup
import SsaKit.TypeTable

/-! The maps of a table of types are those that its entries are read into: growth keeps them so,
and what they find is what the entries say. -/
namespace SsaKit

/-! ### Maps -/

section Lookup

variable {κ α : Type} [DecidableEq κ] {key x : κ}

theorem lookup_filter_ne (h : x ≠ key) (l : List (κ × α)) :
    (l.filter (·.1 ≠ key)).lookup x = l.lookup x := by
  induction l with
  | nil => rfl
  | cons e l ih =>
    by_cases he : e.1 = key
    · have hx : (x == e.1) = false := beq_eq_false_iff_ne.mpr (he ▸ h)
      rw [List.filter_cons_of_neg (by simpa using he), ih, List.lookup_cons, hx]
    · rw [List.filter_cons_of_pos (by simpa using he), List.lookup_cons, List.lookup_cons, ih]

namespace Dictionary

variable {d : Dictionary κ α} {a : α}

theorem find?_insert (d : Dictionary κ α) (key : κ) (a : α) (x : κ) :
    (d.insert key a).find? x = if x = key then some a else d.find? x := by
  by_cases h : x = key
  · simp [find?, insert, h]
  · rw [if_neg h, find?, insert, List.lookup_cons, beq_eq_false_iff_ne.mpr h]
    exact lookup_filter_ne h d.entries

theorem insertNew_of_none (h : d.find? key = none) : d.insertNew key a = d.insert key a := by
  rw [insertNew, h]
  rfl

theorem insertNew_of_some {b : α} (h : d.find? key = some b) : d.insertNew key a = d := by
  rw [insertNew, h]
  rfl

end Dictionary

end Lookup

theorem SymbolTable.find?_insert {α : Type} (t : SymbolTable α) (name : String) (a : α)
    (x : String) : (t.insert name a).find? x = if x = name then some a else t.find? x := by
  have herase : (t.erase name).entries = t.entries.filter (·.1 ≠ name) :=
    List.filter_congr fun e _ => by by_cases h : e.1 = name <;> simp [h]
  rw [find?, insert, herase, List.lookup_append]
  by_cases h : x = name
  · subst h
    have hnone : (t.entries.filter (·.1 ≠ x)).lookup x = none :=
      List.lookup_eq_none_iff.mpr fun e he => by
        have hne : e.1 ≠ x := of_decide_eq_true (List.mem_filter.mp he).2
        simpa using hne.symm
    rw [hnone, Option.none_or, if_pos rfl]
    simp
  · rw [lookup_filter_ne h, if_neg h, List.lookup_cons, beq_eq_false_iff_ne.mpr h]
    simp [find?]

namespace TypeTable

variable {t u : TypeTable} {id : TypeId} {ty : Ty} {name : String}

/-! ### Entries -/

theorem contains_iff : t.contains id ↔ id.index < t.entries.size := by
  rw [contains, decide_eq_true_iff]
  rfl

theorem entry_of_not_contains (h : ¬ t.contains id) : t.entry id = .void := by
  have : t.entries.size ≤ id.index := Nat.le_of_not_lt (mt contains_iff.mpr h)
  rw [entry, Array.getD_eq_getD_getElem?, Array.getElem?_eq_none this]
  rfl

section Push

/-! A further entry leaves the others where they are. -/

variable (hu : u.entries = t.entries.push ty)
include hu

theorem contains_push : u.contains id ↔ t.contains id ∨ id = ⟨t.size⟩ := by
  obtain ⟨i⟩ := id
  rw [contains_iff, contains_iff, hu, Array.size_push, Handle.mk.injEq, Nat.lt_succ_iff_lt_or_eq]
  rfl

theorem entry_push (h : t.contains id) : u.entry id = t.entry id := by
  have h := contains_iff.mp h
  simp [entry, hu, Array.getElem?_push, Nat.ne_of_lt h]

theorem entry_push_size : u.entry ⟨t.size⟩ = ty := by
  simp [entry, hu, size]

end Push

@[simp] theorem entries_withType : (t.withType ty).entries = t.entries.push ty := rfl

@[simp] theorem entries_withStruct :
    (t.withStruct name).entries = t.entries.push (.struct (some name) none false) := rfl

theorem entries_readEntry (t : TypeTable) (ty : Ty) : (t.readEntry ty).entries = t.entries.push ty := by
  unfold readEntry
  split <;> rfl

/-! ### Agreement -/

/-- Whatever a map finds is there, and whatever is there is found. -/
structure Agrees (t : TypeTable) : Prop where
  found : ∀ ty id, t.find? ty = some id → t.contains id ∧ t.entry id = ty ∧ ty.structName = none
  finds : ∀ id, t.contains id → (t.entry id).structName = none → ∃ k, t.find? (t.entry id) = some k
  named : ∀ name id, t.findStruct? name = some id →
    t.contains id ∧ (t.entry id).structName = some name
  names : ∀ id name, t.contains id → (t.entry id).structName = some name →
    ∃ k, t.findStruct? name = some k

theorem agrees_empty : Agrees {} where
  found _ _ := nofun
  finds id hid := by simp [contains_iff] at hid
  named _ _ := nofun
  names id _ hid := by simp [contains_iff] at hid

theorem find?_readEntry (t : TypeTable) (ty x : Ty) : (t.readEntry ty).find? x =
    if ty.structName = none ∧ x = ty then some ((t.find? ty).getD ⟨t.size⟩) else t.find? x := by
  unfold readEntry
  cases hn : ty.structName with
  | some name => rw [if_neg (by simp)]; rfl
  | none =>
    change (t.interned.insertNew ty ⟨t.size⟩).find? x = _
    cases hk : t.find? ty with
    | some k =>
      rw [Dictionary.insertNew_of_some hk]
      split
      · rename_i hx
        rw [hx.2]
        exact hk
      · rfl
    | none =>
      rw [Dictionary.insertNew_of_none hk, Dictionary.find?_insert]
      simp only [true_and, Option.getD_none]
      rfl

theorem findStruct?_readEntry (t : TypeTable) (ty : Ty) (x : String) : (t.readEntry ty).findStruct? x =
    if ty.structName = some x then some ⟨t.size⟩ else t.findStruct? x := by
  unfold readEntry
  cases hn : ty.structName with
  | none => rw [if_neg (by simp)]; rfl
  | some name =>
    change (t.named.insert name ⟨t.size⟩).find? x = _
    rw [SymbolTable.find?_insert]
    simp only [Option.some_inj, eq_comm (a := x)]
    rfl

theorem Agrees.readEntry (h : t.Agrees) (ty : Ty) : (t.readEntry ty).Agrees := by
  have hu := entries_readEntry t ty
  have hnew : (t.readEntry ty).contains ⟨t.size⟩ := (contains_push hu).mpr (.inr rfl)
  have hold {k : TypeId} (hk : t.contains k) :
      (t.readEntry ty).contains k ∧ (t.readEntry ty).entry k = t.entry k :=
    ⟨(contains_push hu).mpr (.inl hk), entry_push hu hk⟩
  constructor
  · intro x k hx
    rw [find?_readEntry] at hx
    split at hx
    · rename_i hty
      obtain rfl := hty.2
      cases hf : t.find? x with
      | none =>
        obtain rfl : ⟨t.size⟩ = k := by simpa [hf] using hx
        exact ⟨hnew, entry_push_size hu, hty.1⟩
      | some j =>
        obtain rfl : j = k := by simpa [hf] using hx
        obtain ⟨hj, he, hn⟩ := h.found x j hf
        exact ⟨(hold hj).1, (hold hj).2.trans he, hn⟩
    · obtain ⟨hk, he, hn⟩ := h.found x k hx
      exact ⟨(hold hk).1, (hold hk).2.trans he, hn⟩
  · intro k hk hn
    rw [find?_readEntry]
    split
    · exact ⟨_, rfl⟩
    · rename_i hother
      obtain hk | rfl := (contains_push hu).mp hk
      · rw [(hold hk).2] at hn ⊢
        exact h.finds k hk hn
      · rw [entry_push_size hu] at hn hother
        exact absurd ⟨hn, rfl⟩ hother
  · intro x k hx
    rw [findStruct?_readEntry] at hx
    split at hx
    · rename_i hn
      obtain rfl : ⟨t.size⟩ = k := by simpa using hx
      exact ⟨hnew, (entry_push_size hu).symm ▸ hn⟩
    · obtain ⟨hk, he⟩ := h.named x k hx
      exact ⟨(hold hk).1, (hold hk).2.symm ▸ he⟩
  · intro k x hk hn
    rw [findStruct?_readEntry]
    split
    · exact ⟨_, rfl⟩
    · rename_i hother
      obtain hk | rfl := (contains_push hu).mp hk
      · rw [(hold hk).2] at hn
        exact h.names k x hk hn
      · rw [entry_push_size hu] at hn
        exact absurd hn hother

/-! ### Reading entries -/

theorem ofEntries_push (entries : Array Ty) (ty : Ty) :
    ofEntries (entries.push ty) = (ofEntries entries).readEntry ty := Array.foldl_push ..

theorem ofEntries_eq (entries : Array Ty) :
    ofEntries entries = entries.toList.foldl readEntry {} := by
  rw [ofEntries, ← Array.foldl_toList]

theorem entries_foldl_readEntry (l : List Ty) (t : TypeTable) :
    (l.foldl readEntry t).entries = t.entries ++ l.toArray := by
  induction l generalizing t with
  | nil => simp
  | cons ty l ih =>
    rw [List.foldl_cons, ih, entries_readEntry]
    simp

@[simp] theorem entries_ofEntries (entries : Array Ty) : (ofEntries entries).entries = entries := by
  rw [ofEntries_eq, entries_foldl_readEntry]
  simp

@[simp] theorem entry_ofEntries (t : TypeTable) : (ofEntries t.entries).entry = t.entry := by
  funext id
  simp [entry]

@[simp] theorem contains_ofEntries (t : TypeTable) :
    (ofEntries t.entries).contains = t.contains := by
  funext id
  rw [contains, contains, size, size, entries_ofEntries]

theorem agrees_ofEntries (entries : Array Ty) : (ofEntries entries).Agrees := by
  have step : ∀ (l : List Ty) (t : TypeTable), t.Agrees → (l.foldl readEntry t).Agrees := by
    intro l
    induction l with
    | nil => exact fun _ h => h
    | cons ty l ih => exact fun t h => ih (t.readEntry ty) (h.readEntry ty)
  rw [ofEntries_eq]
  exact step _ _ agrees_empty

/-- The maps of a table are those that its entries are read into. -/
def Indexed (t : TypeTable) : Prop := ofEntries t.entries = t

theorem Indexed.agrees (h : t.Indexed) : t.Agrees := h ▸ agrees_ofEntries t.entries

theorem indexed_ofEntries (entries : Array Ty) : (ofEntries entries).Indexed := by
  rw [Indexed, entries_ofEntries]

theorem indexed_empty : Indexed {} := rfl

/-! ### Growth -/

theorem Indexed.withType (h : t.Indexed) (hn : ty.structName = none) (hf : t.find? ty = none) :
    (t.withType ty).Indexed := by
  rw [Indexed, entries_withType, ofEntries_push, h, TypeTable.readEntry, hn]
  show ({ t with entries := _, interned := t.interned.insertNew ty ⟨t.size⟩ } : TypeTable) = _
  rw [Dictionary.insertNew_of_none hf]
  rfl

theorem Indexed.withStruct (h : t.Indexed) (name : String) : (t.withStruct name).Indexed := by
  rw [Indexed, entries_withStruct, ofEntries_push, h]
  rfl

/-- Tables with as many entries and the same maps. -/
structure SameMaps (t u : TypeTable) : Prop where
  size : u.size = t.size
  interned : u.interned = t.interned
  named : u.named = t.named

theorem SameMaps.readEntry (h : t.SameMaps u) {ty ty' : Ty} (hn : ty'.structName = ty.structName)
    (he : ty.structName = none → ty' = ty) : (t.readEntry ty).SameMaps (u.readEntry ty') := by
  have hsize : (u.readEntry ty').size = (t.readEntry ty).size := by
    simpa [TypeTable.size, entries_readEntry] using h.size
  refine ⟨hsize, ?_, ?_⟩ <;> unfold TypeTable.readEntry <;> rw [hn] <;> cases hs : ty.structName
  · simp [h.size, h.interned, he hs]
  · exact h.interned
  · exact h.named
  · simp [h.size, h.named]

theorem SameMaps.foldl (h : t.SameMaps u) (l : List Ty) :
    (l.foldl TypeTable.readEntry t).SameMaps (l.foldl TypeTable.readEntry u) := by
  induction l generalizing t u with
  | nil => exact h
  | cons ty l ih => exact ih (h.readEntry rfl fun _ => rfl)

theorem eq_of_maps (he : u.entries = t.entries) (hi : u.interned = t.interned)
    (hn : u.named = t.named) : u = t := by
  obtain ⟨_, _, _⟩ := u
  obtain ⟨_, _, _⟩ := t
  obtain rfl := he
  obtain rfl := hi
  obtain rfl := hn
  rfl

/-- A body changes nothing that the maps depend on. -/
theorem Indexed.withBody (h : t.Indexed) {fields : List TypeId} {wasPacked isPacked : Bool}
    (he : t.entry id = .struct (some name) none wasPacked) :
    (t.withBody id name fields isPacked).Indexed := by
  have hid : id.index < t.entries.toList.length := by
    by_contra hn
    simp [entry_of_not_contains (mt contains_iff.mp hn)] at he
  have hin : t.entries.toList[id.index] = .struct (some name) none wasPacked := by
    have hlt : id.index < t.entries.size := hid
    simpa [entry, hlt] using he
  -- the entries before this one are read alike, this one by its name, and so the entries behind it
  let before := (t.entries.toList.take id.index).foldl TypeTable.readEntry {}
  let rest := t.entries.toList.drop (id.index + 1)
  have hold : rest.foldl TypeTable.readEntry
      (before.readEntry (.struct (some name) none wasPacked)) = t := by
    rw [← List.foldl_cons, ← hin, ← List.drop_eq_getElem_cons hid, ← List.foldl_append,
      List.take_append_drop, ← ofEntries_eq]
    exact h
  have hnew : rest.foldl TypeTable.readEntry
      (before.readEntry (.struct (some name) (some fields) isPacked)) =
        ofEntries (t.withBody id name fields isPacked).entries := by
    rw [← List.foldl_cons, ← List.foldl_append, ofEntries_eq]
    congr 1
    rw [TypeTable.withBody, Array.toList_setIfInBounds, List.set_eq_take_append_cons_drop,
      if_pos hid]
  have hsame : (before.readEntry (.struct (some name) none wasPacked)).SameMaps
      (before.readEntry (.struct (some name) (some fields) isPacked)) :=
    SameMaps.readEntry ⟨rfl, rfl, rfl⟩ rfl nofun
  have hmaps := hsame.foldl rest
  rw [hold, hnew] at hmaps
  exact eq_of_maps (entries_ofEntries _) hmaps.interned hmaps.named

end TypeTable
end SsaKit
