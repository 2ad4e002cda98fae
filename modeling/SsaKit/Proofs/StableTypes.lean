import SsaKit.Proofs.Canonical

/-! Whatever is done to a table of types, its entries stay under their handles: only a named struct
without a body may be given one, and that once. -/
namespace SsaKit

namespace TypeTable

open Attempt

variable {t u : TypeTable} {id : TypeId} {ty : Ty} {name : String} {fields : List TypeId}
  {isPacked : Bool}

/-- The operation that is there for the types of one kind. -/
def method : Ty → Attempt TypeTable TypeId
  | .void => void
  | .int bits => int bits
  | .pointer pointee => pointer pointee
  | .array element length => array element length
  | .vector element length => vector element length
  | .struct _ fields isPacked => struct (fields.getD []) isPacked
  | .function result params isVariadic => function result params isVariadic
  | ty => intern ty

theorem method_eq (h : ty.structName = none) : method ty = ofTy ty := by
  cases ty with
  | struct name fields isPacked =>
    obtain rfl : name = none := h
    rfl
  | _ => rfl

/-! ### Operations that only add -/

/-- The second table has the entries of the first one, as they were. -/
def Keeps (t u : TypeTable) : Prop :=
  ∀ id, t.contains id → u.contains id ∧ u.entry id = t.entry id

theorem Keeps.refl (t : TypeTable) : t.Keeps t := fun _ h => ⟨h, rfl⟩

theorem keeps_push (hu : u.entries = t.entries.push ty) : t.Keeps u :=
  fun id h => ⟨(extends_push hu).contains id h, entry_push hu h⟩

theorem intern_keeps (t : TypeTable) (ty : Ty) :
    Ends (intern ty) t (fun _ => t.Keeps) t.Keeps := by
  unfold intern
  rw [ends_bind, ends_get]
  split
  · exact .refl t
  · exact keeps_push entries_withType

theorem checkFields_keeps {ok : Unit → TypeTable → Prop} (h : ok () t) :
    Ends (checkFields fields) t ok t.Keeps :=
  ends_checkFields (fun _ => h) (.refl t)

theorem ofTy_keeps (t : TypeTable) (ty : Ty) : Ends (ofTy ty) t (fun _ => t.Keeps) t.Keeps := by
  have hrefused : t.Keeps t := .refl t
  have hasked := intern_keeps t ty
  cases ty with
  | void | float | double | pointer _ => exact hasked
  | int bits =>
    change Ends (int bits) t _ _
    unfold int
    split
    · exact hrefused
    · exact hasked
  | array element length =>
    change Ends (array element length) t _ _
    unfold array
    rw [ends_bind, ends_get]
    split
    · exact hasked
    · exact hrefused
  | vector element length =>
    change Ends (vector element length) t _ _
    unfold vector
    simp only [ends_bind, ends_get]
    split
    · simpa using hrefused
    · split
      · exact hasked
      · exact hasked
      · exact hasked
      · simpa using hrefused
  | struct name fields isPacked =>
    cases name with
    | some name => exact hrefused
    | none =>
      change Ends (struct (fields.getD []) isPacked) t _ _
      unfold struct
      rw [ends_bind]
      exact checkFields_keeps (intern_keeps t _)
  | function result params isVariadic =>
    change Ends (function result params isVariadic) t _ _
    unfold function
    simp only [ends_bind, ends_get]
    split
    · simpa using hrefused
    · split
      · simpa using hrefused
      · exact hasked

theorem declareStruct_keeps (t : TypeTable) (name : String) :
    Ends (declareStruct name) t (fun id u => t.Keeps u ∧ ¬ t.contains id ∧ u.contains id ∧
      (u.entry id).structName = some name) t.Keeps := by
  unfold declareStruct
  simp only [ends_bind, ends_get]
  split
  · simpa using Keeps.refl t
  · simp only [ends_bind, ends_set, ends_pure]
    refine ⟨keeps_push entries_withStruct, ?_, ?_, ?_⟩
    · simp [contains]
    · exact (contains_push entries_withStruct).mpr (.inr rfl)
    · rw [entry_push_size entries_withStruct]
      rfl

/-! ### Bodies -/

/-- A struct that had no body got this one, and nothing else changed. -/
def Fills (t : TypeTable) (id : TypeId) (fields : List TypeId) (isPacked : Bool)
    (u : TypeTable) : Prop :=
  ∃ name wasPacked, t.entry id = .struct (some name) none wasPacked ∧
    u.entry id = .struct (some name) (some fields) isPacked ∧
    ∀ k, t.contains k → u.contains k ∧ (k ≠ id → u.entry k = t.entry k)

theorem setBody_fills (t : TypeTable) (id : TypeId) (fields : List TypeId) (isPacked : Bool) :
    Ends (setBody id fields isPacked) t (fun _ => t.Fills id fields isPacked) (· = t) := by
  unfold setBody
  simp only [ends_bind, ends_get]
  split
  · rename_i name body wasPacked he
    split
    · simp
    · rw [ends_bind]
      refine ends_checkFields (fun _ => ?_) rfl
      split
      · simp
      · rename_i hb
        obtain rfl : body = none := by simpa using hb
        have hid : t.contains id := by
          by_contra hn
          simp [entry_of_not_contains hn] at he
        change t.Fills id fields isPacked (t.withBody id name fields isPacked)
        refine ⟨name, wasPacked, he, ?_, fun k hk => ⟨?_, fun hne => ?_⟩⟩
        · rw [entry_withBody hid, if_pos rfl]
        · exact contains_withBody.mpr hk
        · rw [entry_withBody hid, if_neg hne]
  · rfl

theorem namedStruct_keeps (t : TypeTable) (name : String) (fields : List TypeId)
    (isPacked : Bool) : Ends (namedStruct name fields isPacked) t (fun _ => t.Keeps) t.Keeps := by
  unfold namedStruct
  rw [ends_bind]
  refine (declareStruct_keeps t name).mono (fun id u hu => ?_) fun _ hu => hu
  obtain ⟨hkeeps, hnew, -, -⟩ := hu
  rw [ends_bind]
  refine (setBody_fills u id fields isPacked).mono (fun _ w hw => ?_) fun w hw => ?_
  · obtain ⟨_, _, -, -, hrest⟩ := hw
    intro k hk
    obtain ⟨hin, he⟩ := hkeeps k hk
    have hne : k ≠ id := by
      rintro rfl
      exact hnew hk
    obtain ⟨hw, hew⟩ := hrest k hin
    exact ⟨hw, (hew hne).trans he⟩
  · rw [hw]
    exact hkeeps

/-! ### All that can be done to a table -/

/-- One operation on handles of the table, successful or not. -/
def Called (t u : TypeTable) : Prop :=
  ∃ c : TypeCall, (∀ id ∈ c.types, t.contains id) ∧ u = (c.run.outcome t).2

/-- Every table that operations lead to from nothing. -/
def Reachable (t : TypeTable) : Prop := Relation.ReflTransGen Called {} t

theorem Called.grown (h : Called t u) (hi : t.Indexed) : Grown t u := by
  obtain ⟨c, hc, rfl⟩ := h
  exact (TypeCall.run_grown hi hc).state

theorem grown_of_called (h : Relation.ReflTransGen Called t u) (hi : t.Indexed) : Grown t u := by
  induction h with
  | refl => exact .refl
  | tail _ hs ih => exact ih.trans (hs.grown (indexed_of_grown ih hi))

/-- An operation leaves an entry alone, or it sets the body of this very struct. -/
theorem entry_after (c : TypeCall) (hid : t.contains id) :
    (c.run.outcome t).2.entry id = t.entry id ∨
      ∃ fields isPacked, c = .setBody id fields isPacked ∧ (c.run.outcome t).1 = .ok .done ∧
        t.Fills id fields isPacked (c.run.outcome t).2 := by
  have kept {step : Attempt TypeTable Reply} (h : Ends step t (fun _ => t.Keeps) t.Keeps) :
      (step.outcome t).2.entry id = t.entry id := (h.state id hid).2
  cases c with
  | ofType ty =>
    left
    apply kept
    simp only [TypeCall.run, ends_map]
    exact ofTy_keeps t ty
  | declareStruct name =>
    left
    apply kept
    simp only [TypeCall.run, ends_map]
    exact (declareStruct_keeps t name).mono (fun _ _ hu => hu.1) fun _ hu => hu
  | namedStruct name fields isPacked =>
    left
    apply kept
    simp only [TypeCall.run, ends_map]
    exact namedStruct_keeps t name fields isPacked
  | setBody k fields isPacked =>
    have hends : Ends (TypeCall.setBody k fields isPacked).run t
        (fun r u => r = .done ∧ t.Fills k fields isPacked u) (· = t) := by
      simp only [TypeCall.run, ends_map]
      exact (setBody_fills t k fields isPacked).mono (fun _ _ hu => ⟨trivial, hu⟩) fun _ hu => hu
    rcases hr : (TypeCall.setBody k fields isPacked).run.outcome t with ⟨error | r, u⟩
    · left
      rw [hends.of_error hr]
    · obtain ⟨rfl, hfills⟩ := hends.of_ok hr
      by_cases hk : id = k
      · right
        subst hk
        exact ⟨fields, isPacked, rfl, rfl, hfills⟩
      · left
        obtain ⟨_, _, -, -, hrest⟩ := hfills
        exact (hrest id hid).2 hk

theorem Reachable.grown (h : t.Reachable) : Grown {} t := grown_of_called h indexed_empty

theorem Reachable.wellFormed (h : t.Reachable) : t.WellFormed := wellFormed_empty.grown h.grown

theorem Reachable.indexed (h : t.Reachable) : t.Indexed := h.wellFormed.indexed

theorem Reachable.unrepeated (h : t.Reachable) : t.Unrepeated :=
  unrepeated_empty.grown indexed_empty h.grown

/-- A table that operations on it lead to, or calls and passes on its module. -/
def Obtained (t : TypeTable) : Prop :=
  t.Reachable ∨ ∃ s : Builder, s.Attained ∧ s.module.types = t

theorem Obtained.grown (h : t.Obtained) : Grown {} t := by
  obtain h | ⟨s, hs, rfl⟩ := h
  · exact h.grown
  · exact hs.types_grown

theorem Obtained.wellFormed (h : t.Obtained) : t.WellFormed := wellFormed_empty.grown h.grown

theorem Obtained.unrepeated (h : t.Obtained) : t.Unrepeated :=
  unrepeated_empty.grown indexed_empty h.grown

theorem Obtained.intact (h : t.Obtained) : t.Intact := by
  have hgrown := h.grown
  clear h
  induction hgrown with
  | refl => exact fun id hid => by simp [contains_iff] at hid
  | tail _ hs ih => exact ih.grows hs

/-- A structural type that is there is found by its method as by its description. -/
theorem Reachable.asked (h : t.Reachable) (hid : t.contains id)
    (hn : (t.entry id).structName = none) :
    ∀ ask ∈ [ofTy (t.entry id), method (t.entry id), intern (t.entry id)],
      ask.outcome t = (.ok id, t) := by
  have hof : (ofTy (t.entry id)).outcome t = (.ok id, t) :=
    (h.unrepeated.canonical h.wellFormed).ask t .refl id hid hn
  have hfind : t.find? (t.entry id) = some id := (h.unrepeated.find?_iff h.indexed).mpr ⟨hid, rfl, hn⟩
  have hintern : (intern (t.entry id)).outcome t = (.ok id, t) := by
    obtain ⟨_, _, ho, rfl, rfl⟩ := (ends_intern_known hfind).exists_ok
    exact ho
  intro ask hask
  rcases List.mem_cons.mp hask with rfl | hask
  · exact hof
  rcases List.mem_cons.mp hask with rfl | hask
  · rw [method_eq hn]
    exact hof
  · obtain rfl := List.mem_singleton.mp hask
    exact hintern

/-- Growth keeps what a name stands for. -/
theorem Reachable.findStruct?_grown (h : t.Reachable) (hg : Grown t u)
    (hf : t.findStruct? name = some id) : u.findStruct? name = some id := by
  obtain ⟨hid, hn⟩ := h.indexed.agrees.named name id hf
  have hx := extends_of_grown hg
  have hi := indexed_of_grown hg h.indexed
  refine ((h.unrepeated.grown h.indexed hg).findStruct?_iff hi).mpr ⟨hx.contains id hid, ?_⟩
  obtain he | ⟨name', _, _, _, ht, hu⟩ := hx.entry id hid
  · rw [he]
    exact hn
  · rw [ht] at hn
    rw [hu]
    exact hn

/-- Types are canonical and stable. In every table that operations lead to, structural handles are
equal exactly when their entries are, and asking for a structural type that is there gives its handle.
The map of the structural types finds these and nothing else, the map of the names the structs that
bear them, so that a name that was declared belongs to exactly one handle. No operation changes an
entry but the one that sets the body of a struct, and it does so only where there was none. So names
keep their handles, and a type once sized stays sized. -/
theorem Reachable.canonical_stable (h : t.Reachable) :
    (∀ i j, t.contains i → t.contains j → (t.entry i).structName = none →
      (t.entry j).structName = none → (i = j ↔ t.entry i = t.entry j)) ∧
    (∀ id, t.contains id → (t.entry id).structName = none →
      ∀ ask ∈ [ofTy (t.entry id), method (t.entry id), intern (t.entry id)],
        ask.outcome t = (.ok id, t)) ∧
    (∀ ty id, t.find? ty = some id ↔
      t.contains id ∧ t.entry id = ty ∧ ty.structName = none) ∧
    (∀ name id, t.findStruct? name = some id ↔
      t.contains id ∧ (t.entry id).structName = some name) ∧
    (∀ name id u, (declareStruct name).outcome t = (.ok id, u) →
      t.findStruct? name = none ∧ u.findStruct? name = some id) ∧
    (∀ c : TypeCall, (∀ id ∈ c.types, t.contains id) → ∀ id, t.contains id →
      (c.run.outcome t).2.entry id = t.entry id ∨
        ∃ fields isPacked, c = .setBody id fields isPacked ∧ (c.run.outcome t).1 = .ok .done ∧
          t.Fills id fields isPacked (c.run.outcome t).2) ∧
    (∀ id fields isPacked u, (setBody id fields isPacked).outcome t = (.ok (), u) →
      t.Fills id fields isPacked u) ∧
    ∀ u, Relation.ReflTransGen Called t u → ∀ id, t.contains id → u.contains id ∧
      ((t.entry id).isOpaque = false → u.entry id = t.entry id) ∧
      (t.isSized id → u.isSized id) ∧
      ∀ name, t.findStruct? name = some id → u.findStruct? name = some id := by
  refine ⟨fun i j hi hj hn _ => ⟨fun he => he ▸ rfl, h.unrepeated.structural i j hi hj hn⟩,
    fun id hid hn => h.asked hid hn, fun _ _ => h.unrepeated.find?_iff h.indexed,
    fun _ _ => h.unrepeated.findStruct?_iff h.indexed, fun name id u ho => ?_,
    fun c _ id hid => entry_after c hid, fun id fields isPacked u ho => ?_,
    fun u hu id hid => ?_⟩
  · have hnone : t.findStruct? name = none := by
      by_contra hsome
      obtain ⟨k, hk⟩ := Option.ne_none_iff_exists'.mp hsome
      have hrefused : Ends (declareStruct name) t (fun _ _ => False) fun _ => True := by
        unfold declareStruct
        rw [ends_bind, ends_get, if_pos (by rw [SymbolTable.contains, ← findStruct?, hk]; rfl)]
        trivial
      exact hrefused.of_ok ho
    obtain ⟨-, -, hin, hname⟩ := (declareStruct_keeps t name).of_ok ho
    have hdeclares : Ends (declareStruct name) t (fun _ => Grown t) (Grown t) :=
      ends_declareStruct (fun _ _ hg _ => hg) .refl
    have hgrown : Grown t u := hdeclares.of_ok ho
    have hi := indexed_of_grown hgrown h.indexed
    exact ⟨hnone, ((h.unrepeated.grown h.indexed hgrown).findStruct?_iff hi).mpr ⟨hin, hname⟩⟩
  · exact (setBody_fills t id fields isPacked).of_ok ho
  · have hg := grown_of_called hu h.indexed
    have hx := extends_of_grown hg
    exact ⟨hx.contains id hid, fun ho => hx.entry_eq hid ho, hx.isSized_of,
      fun name hf => h.findStruct?_grown hg hf⟩

/-! ### An example -/

/-- A list that holds itself through a pointer, with a name declared twice, a body set twice, a body
that would hold itself, and a type asked for twice. -/
def linking : List TypeCall :=
  [.declareStruct "node",
    .ofType (.pointer ⟨0⟩),
    .ofType (.int 32),
    .setBody ⟨0⟩ [⟨0⟩] false,
    .setBody ⟨0⟩ [⟨2⟩, ⟨1⟩] false,
    .setBody ⟨0⟩ [⟨2⟩] false,
    .declareStruct "node",
    .ofType (.array ⟨0⟩ 4),
    .ofType (.pointer ⟨0⟩)]

/-- The table after some operations. -/
def replay (t : TypeTable) (calls : List TypeCall) : TypeTable :=
  calls.foldl (fun t c => (c.run.outcome t).2) t

/-- Every one of the operations has handles of the table when its turn comes. -/
def Replays (t : TypeTable) : List TypeCall → Prop
  | [] => True
  | c :: calls => (∀ id ∈ c.types, t.contains id) ∧ Replays (c.run.outcome t).2 calls

instance decidableReplays : (t : TypeTable) → (calls : List TypeCall) → Decidable (t.Replays calls)
  | _, [] => .isTrue trivial
  | t, c :: calls => @instDecidableAnd _ _ _ (decidableReplays (c.run.outcome t).2 calls)

theorem Replays.reachable {calls : List TypeCall} (h : t.Replays calls) (ht : t.Reachable) :
    (t.replay calls).Reachable := by
  induction calls generalizing t with
  | nil => exact ht
  | cons c calls ih =>
    obtain ⟨hc, h⟩ := h
    exact ih h (ht.tail ⟨c, hc, rfl⟩)

theorem reachable_linked : (replay {} linking).Reachable :=
  Replays.reachable (by decide +kernel) .refl

theorem linked_stable :
    (replay {} linking).Reachable ∧ (replay {} linking).findStruct? "node" = some ⟨0⟩ ∧
      (method (.array ⟨0⟩ 4)).outcome (replay {} linking) = (.ok ⟨3⟩, replay {} linking) := by
  obtain ⟨-, hask, -, hname, -⟩ := reachable_linked.canonical_stable
  refine ⟨reachable_linked, (hname "node" ⟨0⟩).mpr (by decide +kernel), ?_⟩
  have he : (replay {} linking).entry ⟨3⟩ = .array ⟨0⟩ 4 := by decide +kernel
  have hasked := hask ⟨3⟩ (by decide +kernel) (by rw [he]; rfl) (method (.array ⟨0⟩ 4))
  rw [he] at hasked
  exact hasked (by simp)

end TypeTable
end SsaKit
