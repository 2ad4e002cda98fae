import Mathlib.Data.Finset.Card
import Mathlib.Data.Finset.Filter
import Mathlib.Order.WellFounded
import SsaKit.Proofs.StableTypes
import SsaKit.Proofs.Unrolling

/-! Types that hold other types by value. The operations of a table never make one that holds itself,
so a recursion over the parts of a type comes to one answer. -/
namespace SsaKit

namespace TypeTable

open Attempt Relation

variable {t u : TypeTable} {p k id : TypeId} {ty : Ty} {α : Type}
  {level : (TypeId → α) → TypeId → α}

/-- Values of the second type have values of the first one in them: it is the element of an array or
vector, or a field of a struct. -/
def Holds (t : TypeTable) (p id : TypeId) : Prop := p ∈ (t.entry id).parts

theorem contains_of_holds (h : t.Holds p id) : t.contains id := by
  by_contra hn
  simp [Holds, entry_of_not_contains hn, Ty.parts] at h

/-! ### Recursion over parts -/

/-- The recursion with these levels has one answer at a type, whatever is tried as its answers below,
and this is it. -/
def Resolves (t : TypeTable) (level : (TypeId → α) → TypeId → α) (f : TypeId → α)
    (id : TypeId) : Prop :=
  f id = level f id ∧ ∀ g, (∀ k, ReflTransGen t.Holds k id → g k = level g k) → g id = f id

open Classical in
/-- How many types are held by one, directly or not. -/
noncomputable def rank (t : TypeTable) (id : TypeId) : Nat :=
  ((Finset.range t.size).filter fun i => TransGen t.Holds ⟨i⟩ id).card

theorem rank_le_size (t : TypeTable) (id : TypeId) : t.rank id ≤ t.size := by
  classical
  exact (Finset.card_filter_le _ _).trans (Finset.card_range t.size).le

theorem rank_lt (hin : t.contains p) (hp : t.Holds p id) (hself : ¬ TransGen t.Holds p p) :
    t.rank p < t.rank id := by
  classical
  have hsub : ((Finset.range t.size).filter fun i => TransGen t.Holds ⟨i⟩ p) ⊆
      (Finset.range t.size).filter fun i => TransGen t.Holds ⟨i⟩ id := by
    intro i hi
    rw [Finset.mem_filter] at hi ⊢
    exact ⟨hi.1, hi.2.tail hp⟩
  refine Finset.card_lt_card (Finset.ssubset_iff_of_subset hsub |>.mpr ⟨p.index, ?_, ?_⟩)
  · exact Finset.mem_filter.mpr ⟨Finset.mem_range.mpr (contains_iff.mp hin), .single hp⟩
  · exact fun hi => hself (Finset.mem_filter.mp hi).2

/-- In a finite table nothing but a cycle keeps a recursion from its end. -/
theorem acc_of_acyclic (hin : ∀ p id, t.Holds p id → t.contains p)
    (h : ∀ k, ReflTransGen t.Holds k id → ¬ TransGen t.Holds k k) : Acc t.Holds id := by
  induction hn : t.rank id using Nat.strong_induction_on generalizing id with
  | _ n ih =>
    subst hn
    refine Acc.intro id fun p hp => ?_
    have hself := h p (.single hp)
    exact ih (t.rank p) (rank_lt (hin p id hp) hp hself) (fun k hk => h k (hk.tail hp)) rfl

theorem not_holds_itself (h : Acc t.Holds id) : ¬ TransGen t.Holds id id := by
  induction h with
  | intro id _ ih =>
    intro hself
    obtain ⟨p, hreach, hp⟩ := TransGen.tail'_iff.mp hself
    exact ih p hp (.head' hp hreach)

theorem resolves_of_acc (hlocal : ∀ f g id, (∀ p ∈ (t.entry id).parts, f p = g p) →
      level f id = level g id)
    (hin : ∀ p id, t.Holds p id → t.contains p) (h : Acc t.Holds id) (below : TypeId → α) :
    t.Resolves level (level^[t.size + 1] below) id := by
  have hrank : ∀ id, Acc t.Holds id → ∀ p ∈ (t.entry id).parts,
      Acc t.Holds p ∧ t.rank p < t.rank id := fun id hid p hp =>
    ⟨hid.inv hp, rank_lt (hin p id hp) hp (not_holds_itself (hid.inv hp))⟩
  have hagree (f g : TypeId → α) : level^[t.size + 1] f id = level^[t.size + 1] g id :=
    iterate_levels hlocal hrank f g h (Nat.lt_succ_of_le (t.rank_le_size id))
  refine ⟨?_, fun g hg => ?_⟩
  · rw [← Function.iterate_succ_apply' level, Function.iterate_succ_apply]
    exact hagree below (level below)
  · have hfixed (n : Nat) : ∀ k, ReflTransGen t.Holds k id → level^[n] g k = g k := by
      induction n with
      | zero => exact fun k _ => rfl
      | succ n ih =>
        intro k hk
        rw [Function.iterate_succ_apply', hg k hk]
        exact hlocal _ _ k fun p hp => ih p (hk.head hp)
    rw [← hfixed (t.size + 1) id .refl]
    exact hagree g below

theorem zero_resolves (hin : ∀ p id, t.Holds p id → t.contains p) (h : Acc t.Holds id) :
    t.Resolves t.zeroLevel t.zero id := by
  rw [show t.zero = _ from funext t.zero_eq_iterate]
  exact resolves_of_acc (fun _ _ _ => zeroLevel_congr) hin h _

theorem footprint_resolves (hin : ∀ p id, t.Holds p id → t.contains p) (h : Acc t.Holds id) :
    t.Resolves t.footprintLevel t.footprint id := by
  rw [show t.footprint = _ from funext t.footprint_eq_iterate]
  exact resolves_of_acc (fun _ _ _ => footprintLevel_congr) hin h _

/-! ### One write -/

/-- Types hold sized types only, and none of them itself. A type gets its parts when it gets its
size, so the parts were there first: this order, and not that of the handles, carries the proofs. -/
structure Contained (t : TypeTable) : Prop where
  isSized : ∀ p id, t.Holds p id → t.isSized p
  wellFounded : WellFounded t.Holds

theorem contained_empty : Contained {} where
  isSized p id h := by simp [Holds, entry, Ty.parts] at h
  wellFounded := ⟨fun id => .intro id fun p h => by simp [Holds, entry, Ty.parts] at h⟩

/-- One entry without a size is written, with parts that have one. -/
theorem Contained.written (h : t.Contained) (hk : t.isSized k = false)
    (hrest : ∀ id, id ≠ k → u.entry id = t.entry id)
    (hparts : ∀ p ∈ (u.entry k).parts, t.isSized p) : u.Contained := by
  have hne : ∀ p, t.isSized p → p ≠ k := fun p hp hpk => by simp [← hpk, hp] at hk
  have hsized : ∀ p, t.isSized p → u.isSized p := fun p hp => by
    rwa [TypeTable.isSized, hrest p (hne p hp)]
  have hold : ∀ p id, u.Holds p id → t.isSized p := by
    intro p id hp
    by_cases hid : id = k
    · subst hid
      exact hparts p hp
    · rw [Holds, hrest id hid] at hp
      exact h.isSized p id hp
  have hacc : ∀ p, t.isSized p → Acc u.Holds p := by
    intro p
    induction p using h.wellFounded.induction with
    | _ p ih =>
      intro hp
      refine Acc.intro p fun q hq => ?_
      have hq' : t.Holds q p := by rwa [Holds, hrest p (hne p hp)] at hq
      exact ih q hq' (h.isSized q p hq')
  exact ⟨fun p id hp => hsized p (hold p id hp),
    ⟨fun id => .intro id fun p hp => hacc p (hold p id hp)⟩⟩

theorem isSized_eq_false_of_not_contains (h : ¬ t.contains id) : t.isSized id = false :=
  Bool.eq_false_iff.mpr fun hs => h (contains_of_isSized hs)

theorem Contained.push (h : t.Contained) (hu : u.entries = t.entries.push ty)
    (hp : ∀ p ∈ ty.parts, t.isSized p) : u.Contained := by
  have hnew : ¬ t.contains ⟨t.size⟩ := by simp [contains]
  refine h.written (isSized_eq_false_of_not_contains hnew) (fun id hid => ?_) ?_
  · by_cases hold : t.contains id
    · exact entry_push hu hold
    · rw [entry_of_not_contains hold]
      exact entry_of_not_contains fun hin => ((contains_push hu).mp hin).elim hold hid
  · rwa [entry_push_size hu]

theorem Contained.body (h : t.Contained) {name : String} {fields : List TypeId} {wasPacked : Bool}
    (isPacked : Bool) (he : t.entry id = .struct (some name) none wasPacked)
    (hf : ∀ f ∈ fields, t.isSized f) : (t.withBody id name fields isPacked).Contained := by
  have hid : t.contains id := by
    by_contra hn
    simp [entry_of_not_contains hn] at he
  refine h.written (k := id) (by simp [TypeTable.isSized, he, Ty.isSized]) (fun k hk => ?_) ?_
  · rw [entry_withBody hid, if_neg hk]
  · rw [entry_withBody hid, if_pos rfl]
    exact hf

/-! ### Operations -/

theorem Contained.intern (h : t.Contained) (hp : ∀ p ∈ ty.parts, t.isSized p) :
    Ends (intern ty) t (fun _ => Contained) Contained := by
  unfold TypeTable.intern
  rw [ends_bind, ends_get]
  split
  · exact h
  · exact h.push entries_withType hp

theorem Contained.declareStruct (h : t.Contained) (name : String) :
    Ends (declareStruct name) t (fun _ => Contained) Contained := by
  unfold TypeTable.declareStruct
  simp only [ends_bind, ends_get]
  split
  · simpa using h
  · exact h.push entries_withStruct (by simp [Ty.parts])

theorem Contained.setBody (h : t.Contained) (id : TypeId) (fields : List TypeId) (isPacked : Bool) :
    Ends (setBody id fields isPacked) t (fun _ => Contained) Contained := by
  unfold TypeTable.setBody
  simp only [ends_bind, ends_get]
  split
  · rename_i name body wasPacked he
    split
    · simpa using h
    · rw [ends_bind]
      refine ends_checkFields (fun hf => ?_) h
      split
      · simpa using h
      · rename_i hb
        obtain rfl : body = none := by simpa using hb
        exact h.body isPacked he hf
  · simpa using h

theorem Contained.ofTy (h : t.Contained) (ty : Ty) : Ends (ofTy ty) t (fun _ => Contained) Contained := by
  cases ty with
  | void | float | double | pointer _ => exact h.intern (by simp [Ty.parts])
  | int bits =>
    change Ends (TypeTable.int bits) t _ _
    unfold TypeTable.int
    split
    · exact h
    · exact h.intern (by simp [Ty.parts])
  | array element length =>
    change Ends (array element length) t _ _
    unfold array
    simp only [ends_bind, ends_get]
    split
    · rename_i hs
      exact h.intern (by simpa [Ty.parts] using hs)
    · simpa using h
  | vector element length =>
    change Ends (vector element length) t _ _
    unfold vector
    simp only [ends_bind, ends_get]
    have hasked (hk : t.kind element ∈ [Ty.Kind.integer, .float, .pointer]) :
        Ends (TypeTable.intern (.vector element length)) t (fun _ => Contained) Contained :=
      h.intern (by simpa [Ty.parts] using isSized_of_kind hk)
    split
    · simpa using h
    · split
      · rename_i hk
        exact hasked (by simp [hk])
      · rename_i hk
        exact hasked (by simp [hk])
      · rename_i hk
        exact hasked (by simp [hk])
      · simpa using h
  | struct name fields isPacked =>
    cases name with
    | some name => exact h
    | none =>
      change Ends (struct (fields.getD []) isPacked) t _ _
      unfold struct
      rw [ends_bind]
      exact ends_checkFields (fun hf => h.intern hf) h
  | function result params isVariadic =>
    change Ends (function result params isVariadic) t _ _
    unfold function
    simp only [ends_bind, ends_get]
    split
    · simpa using h
    · split
      · simpa using h
      · exact h.intern (by simp [Ty.parts])

/-- One operation, on whatever handles, successful or not. -/
def Step (t u : TypeTable) : Prop := ∃ c : TypeCall, u = (c.run.outcome t).2

/-- The operations keep what is asked of every table. -/
theorem Contained.step (h : t.Contained) (hstep : Step t u) : u.Contained := by
  obtain ⟨c, rfl⟩ := hstep
  apply Ends.state
  cases c with
  | ofType ty =>
    rw [TypeCall.run, ends_map]
    exact h.ofTy ty
  | declareStruct name =>
    rw [TypeCall.run, ends_map]
    exact h.declareStruct name
  | namedStruct name fields isPacked =>
    rw [TypeCall.run, ends_map, TypeTable.namedStruct, ends_bind]
    refine (h.declareStruct name).mono (fun id u hu => ?_) fun _ hu => hu
    rw [ends_bind]
    exact hu.setBody id fields isPacked
  | setBody id fields isPacked =>
    rw [TypeCall.run, ends_map]
    exact h.setBody id fields isPacked

/-- Every table that operations on whatever handles lead to from nothing. -/
def Built (t : TypeTable) : Prop := ReflTransGen Step {} t

theorem Built.contained (h : t.Built) : t.Contained := by
  induction h with
  | refl => exact contained_empty
  | tail _ hstep ih => exact ih.step hstep

/-- No type holds itself by value, through whatever chain of arrays, vectors and structs, in a table
that operations led to. So the recursions over the parts of types are well-founded: the zero of a type
and the number of its nodes are the one answer to their equations. -/
theorem Built.holds_nothing_itself (h : t.Built) :
    (∀ id, ¬ TransGen t.Holds id id) ∧ WellFounded t.Holds ∧
      ∀ id, t.Resolves t.zeroLevel t.zero id ∧ t.Resolves t.footprintLevel t.footprint id := by
  obtain ⟨hsized, hwell⟩ := h.contained
  have hin (p id : TypeId) (hp : t.Holds p id) : t.contains p := contains_of_isSized (hsized p id hp)
  exact ⟨fun id => not_holds_itself (hwell.apply id), hwell, fun id =>
    ⟨zero_resolves hin (hwell.apply id), footprint_resolves hin (hwell.apply id)⟩⟩

/-! ### An example -/

theorem built_replay (calls : List TypeCall) (h : t.Built) : (t.replay calls).Built := by
  induction calls generalizing t with
  | nil => exact h
  | cons c calls ih => exact ih (h.tail ⟨c, rfl⟩)

/-- The first struct declared is the last one filled, with a chain that leads to the second one.
Bodies that would close the chain are refused at every stage. -/
def chaining : List TypeCall :=
  [.declareStruct "outer",
    .declareStruct "inner",
    .ofType (.int 32),
    .setBody ⟨0⟩ [⟨1⟩] false,
    .ofType (.array ⟨0⟩ 0),
    .setBody ⟨1⟩ [⟨2⟩, ⟨2⟩] false,
    .ofType (.array ⟨1⟩ 3),
    .ofType (.struct none (some [⟨2⟩, ⟨3⟩]) true),
    .setBody ⟨0⟩ [⟨4⟩, ⟨0⟩] false,
    .setBody ⟨0⟩ [⟨4⟩] false,
    .setBody ⟨1⟩ [⟨0⟩] false]

theorem chained_unlooped : (replay {} chaining).Built ∧
    TransGen (replay {} chaining).Holds ⟨1⟩ ⟨0⟩ ∧ ¬ TransGen (replay {} chaining).Holds ⟨1⟩ ⟨1⟩ ∧
    (replay {} chaining).footprint ⟨0⟩ = some 13 := by
  have hbuilt : (replay {} chaining).Built := built_replay chaining .refl
  obtain ⟨hself, -, -⟩ := hbuilt.holds_nothing_itself
  have harray : (replay {} chaining).Holds ⟨1⟩ ⟨3⟩ := by
    unfold Holds
    decide +kernel
  have hstruct : (replay {} chaining).Holds ⟨3⟩ ⟨4⟩ := by
    unfold Holds
    decide +kernel
  have houter : (replay {} chaining).Holds ⟨4⟩ ⟨0⟩ := by
    unfold Holds
    decide +kernel
  exact ⟨hbuilt, .tail (.tail (.single harray) hstruct) houter, hself ⟨1⟩, by decide +kernel⟩

end TypeTable
end SsaKit
