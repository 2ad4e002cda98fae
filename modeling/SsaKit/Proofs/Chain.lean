import Mathlib.Data.List.Nodup
import Mathlib.Data.List.Perm.Subperm
import SsaKit.Chain

/-! One chain of an arena as a plain list, and what linking and unlinking do to that list. -/
namespace SsaKit

variable {kind owner : Entity} {α β : Type} {a : Arena kind owner α} {b : Arena kind owner β}
  {c : Chain kind}
  {j k anchor : Handle kind} {o : Option (Handle owner)} {q : Handle owner} {x y : Option (Handle kind)}
  {l xs ys : List (Handle kind)}

theorem Handle.index_inj {entity : Entity} {j k : Handle entity} :
    j.index = k.index ↔ j = k := by
  cases j; cases k; simp

/-- There are no more handles than indices. -/
theorem Handle.length_le {n : Nat} (hl : l.Nodup) (hs : ∀ k ∈ l, k.index < n) : l.length ≤ n := by
  have hn : (l.map Handle.index).Nodup := hl.map fun _ _ h => Handle.index_inj.mp h
  have hsub : l.map Handle.index ⊆ List.range n := by
    intro i hi
    obtain ⟨k, hk, rfl⟩ := List.mem_map.mp hi
    exact List.mem_range.mpr (hs k hk)
  simpa using (hn.subperm hsub).length_le

/-! ### Reading an arena after a change -/

namespace Arena

/-- A handle that points into the arena. -/
def Has (a : Arena kind owner α) (k : Handle kind) : Prop := k.index < a.size

theorem has_of_parent (h : a.parent? k = some q) : a.Has k := by
  by_contra hn
  simp [parent?, Array.getElem?_eq_none (Nat.le_of_not_lt hn)] at h

/-- A field that a change leaves alone reads as before. -/
theorem read_modify_same {f : Node kind owner α → Node kind owner α}
    {field : Node kind owner α → Option β} (h : ∀ n, field (f n) = field n) :
    (a.modify k.index f)[j.index]?.bind field = a[j.index]?.bind field := by
  rw [Array.getElem?_modify]
  split
  · cases a[j.index]? <;> simp [h]
  · rfl

/-- A field that a change sets has the new value at the changed node only. -/
theorem read_modify {f : Node kind owner α → Node kind owner α}
    {field : Node kind owner α → Option β} {r : Option β} (hk : a.Has k)
    (h : ∀ n, field (f n) = r) :
    (a.modify k.index f)[j.index]?.bind field =
      if j = k then r else a[j.index]?.bind field := by
  rw [Array.getElem?_modify]
  by_cases hj : j = k
  · subst hj
    simp [Array.getElem?_eq_getElem hk, h]
  · simp [Handle.index_inj, hj, Ne.symm hj]

/-- The content of a node, wherever it is linked. -/
def content? (a : Arena kind owner α) (k : Handle kind) : Option α :=
  a[k.index]?.bind fun n => some n.content

@[simp] theorem content?_place : (a.place k o x y).content? j = a.content? j :=
  read_modify_same fun _ => rfl

@[simp] theorem content?_setPrev : (a.setPrev k x).content? j = a.content? j :=
  read_modify_same fun _ => rfl

@[simp] theorem content?_setNext : (a.setNext k x).content? j = a.content? j :=
  read_modify_same fun _ => rfl

@[simp] theorem size_place : (a.place k o x y).size = a.size := by simp [place]

@[simp] theorem size_setPrev : (a.setPrev k x).size = a.size := by simp [setPrev]

@[simp] theorem size_setNext : (a.setNext k x).size = a.size := by simp [setNext]

theorem parent?_place (hk : a.Has k) :
    (a.place k o x y).parent? j = if j = k then o else a.parent? j :=
  read_modify hk fun _ => rfl

theorem prev?_place (hk : a.Has k) :
    (a.place k o x y).prev? j = if j = k then x else a.prev? j :=
  read_modify hk fun _ => rfl

theorem next?_place (hk : a.Has k) :
    (a.place k o x y).next? j = if j = k then y else a.next? j :=
  read_modify hk fun _ => rfl

@[simp] theorem parent?_setPrev : (a.setPrev k x).parent? j = a.parent? j :=
  read_modify_same fun _ => rfl

@[simp] theorem next?_setPrev : (a.setPrev k x).next? j = a.next? j :=
  read_modify_same fun _ => rfl

theorem prev?_setPrev (hk : a.Has k) :
    (a.setPrev k x).prev? j = if j = k then x else a.prev? j :=
  read_modify hk fun _ => rfl

@[simp] theorem parent?_setNext : (a.setNext k x).parent? j = a.parent? j :=
  read_modify_same fun _ => rfl

@[simp] theorem prev?_setNext : (a.setNext k x).prev? j = a.prev? j :=
  read_modify_same fun _ => rfl

theorem next?_setNext (hk : a.Has k) :
    (a.setNext k x).next? j = if j = k then x else a.next? j :=
  read_modify hk fun _ => rfl

end Arena

/-! ### Chains as lists -/

namespace Chain

/-- Following a successor function from a start to its end meets exactly these handles. -/
inductive Walk (step : Handle kind → Option (Handle kind)) :
    Option (Handle kind) → List (Handle kind) → Prop
  | stop : Walk step none []
  | go (k : Handle kind) (rest : List (Handle kind)) :
    Walk step (step k) rest → Walk step (some k) (k :: rest)

/-- The chain holds the list: ends, length and the neighbours of every member are those of the
list. -/
structure Holds (c : Chain kind) (a : Arena kind owner α) (l : List (Handle kind)) : Prop where
  first : c.first = l.head?
  last : c.last = l.getLast?
  length : c.length = l.length
  nodup : l.Nodup
  has : ∀ k ∈ l, a.Has k
  prev : ∀ xs k ys, l = xs ++ k :: ys → a.prev? k = xs.getLast?
  next : ∀ xs k ys, l = xs ++ k :: ys → a.next? k = ys.head?

theorem holds_empty : Holds ({} : Chain kind) a [] where
  first := rfl
  last := rfl
  length := rfl
  nodup := .nil
  has := by simp
  prev := by simp
  next := by simp

/-- Only the links of its members matter to a chain. -/
theorem Holds.congr (h : c.Holds a l) (hs : ∀ k ∈ l, b.Has k)
    (hp : ∀ k ∈ l, b.prev? k = a.prev? k) (hn : ∀ k ∈ l, b.next? k = a.next? k) :
    c.Holds b l where
  first := h.first
  last := h.last
  length := h.length
  nodup := h.nodup
  has := hs
  prev xs k ys he := (hp k (by simp [he])).trans (h.prev xs k ys he)
  next xs k ys he := (hn k (by simp [he])).trans (h.next xs k ys he)

theorem Holds.walk_next (h : c.Holds a l) : Walk a.next? c.first l := by
  have suffix : ∀ ys xs, l = xs ++ ys → Walk a.next? ys.head? ys := by
    intro ys
    induction ys with
    | nil => intro _ _; exact .stop
    | cons k ys ih =>
      intro xs he
      refine .go _ _ ?_
      rw [h.next xs k ys he]
      exact ih (xs ++ [k]) (by simp [he])
  rw [h.first]
  exact suffix l [] rfl

theorem Holds.walk_prev (h : c.Holds a l) : Walk a.prev? c.last l.reverse := by
  have suffix : ∀ xs ys, l = xs.reverse ++ ys → Walk a.prev? xs.head? xs := by
    intro xs
    induction xs with
    | nil => intro _ _; exact .stop
    | cons k xs ih =>
      intro ys he
      refine .go _ _ ?_
      rw [h.prev xs.reverse k ys (by simpa using he), List.getLast?_reverse]
      exact ih (k :: ys) (by simpa using he)
  rw [h.last, ← List.head?_reverse]
  exact suffix l.reverse [] (by simp)

theorem follow_of_walk {step : Handle kind → Option (Handle kind)} {start : Option (Handle kind)}
    (h : Walk step start l) {n : Nat} (hn : l.length ≤ n) : follow step n start = l := by
  induction h generalizing n with
  | stop => cases n <;> rfl
  | go k rest _ ih =>
    obtain _ | n := n
    · simp at hn
    · simp only [List.length_cons, Nat.add_le_add_iff_right] at hn
      simp [follow, ih hn]

theorem length_le_size (hl : l.Nodup) (hs : ∀ k ∈ l, a.Has k) : l.length ≤ a.size :=
  Handle.length_le hl hs

/-- A chain is read back as the list that it holds. -/
theorem Holds.toList_eq (h : c.Holds a l) : c.toList a = l :=
  follow_of_walk h.walk_next (length_le_size h.nodup h.has)

/-! ### Linking at the end -/

theorem parent?_pushBack (hk : a.Has k) :
    (c.pushBack a q k).2.parent? j = if j = k then some q else a.parent? j := by
  unfold pushBack
  split <;> simp [Arena.parent?_place hk]

theorem prev?_pushBack (hk : a.Has k) :
    (c.pushBack a q k).2.prev? j = if j = k then c.last else a.prev? j := by
  unfold pushBack
  split <;> simp [Arena.prev?_place hk]

theorem next?_pushBack (hk : a.Has k) (hl : ∀ e, c.last = some e → a.Has e) :
    (c.pushBack a q k).2.next? j =
      if c.last = some j then some k else if j = k then none else a.next? j := by
  unfold pushBack
  split
  · rename_i e he
    have : (a.place k (some q) c.last none).Has e := by simpa [Arena.Has] using hl e he
    simp [he, Arena.next?_setNext (he ▸ this), Arena.next?_place hk, eq_comm]
  · rename_i he
    simp [Arena.next?_place hk, he]

@[simp] theorem content?_pushBack : (c.pushBack a q k).2.content? j = a.content? j := by
  unfold pushBack
  split <;> simp

@[simp] theorem size_pushBack : (c.pushBack a q k).2.size = a.size := by
  unfold pushBack
  split <;> simp

/-- Where a member can stand when a list is known to have a certain member. -/
theorem split_cases {us vs : List (Handle kind)} (h : xs ++ k :: ys = us ++ j :: vs) :
    (∃ ws, xs = us ++ j :: ws ∧ vs = ws ++ k :: ys) ∨ (us = xs ∧ j = k ∧ vs = ys) ∨
      ∃ ws, us = xs ++ k :: ws ∧ ys = ws ++ j :: vs := by
  obtain ⟨ws, hu, hv⟩ | ⟨ws, hu, hv⟩ := List.append_eq_append_iff.mp h
  · cases ws with
    | nil => simp_all
    | cons w ws =>
      simp only [List.cons_append, List.cons.injEq] at hv
      exact .inr (.inr ⟨ws, by simp [hu, hv.1], hv.2⟩)
  · cases ws with
    | nil => simp_all
    | cons w ws =>
      simp only [List.cons_append, List.cons.injEq] at hv
      exact .inl ⟨ws, by simp [hu, hv.1], hv.2⟩

theorem append_cases {us vs : List (Handle kind)} (h : xs ++ ys = us ++ j :: vs) :
    (∃ ws, xs = us ++ j :: ws ∧ vs = ws ++ ys) ∨ ∃ ws, us = xs ++ ws ∧ ys = ws ++ j :: vs := by
  obtain ⟨ws, hu, hv⟩ | ⟨ws, hu, hv⟩ := List.append_eq_append_iff.mp h
  · exact .inr ⟨ws, hu, hv⟩
  · cases ws with
    | nil => exact .inr ⟨[], by simpa using hu.symm, by simpa using hv.symm⟩
    | cons w ws =>
      simp only [List.cons_append, List.cons.injEq] at hv
      exact .inl ⟨ws, by simp [hu, hv.1], hv.2⟩

theorem Holds.has_last (h : c.Holds a l) {e : Handle kind} (he : c.last = some e) : a.Has e :=
  h.has e (List.mem_of_getLast? (h.last ▸ he))

theorem Holds.pushBack (h : c.Holds a l) (hk : a.Has k) (hn : k ∉ l) :
    (c.pushBack a q k).1.Holds (c.pushBack a q k).2 (l ++ [k]) where
  first := by
    unfold Chain.pushBack
    split
    · rename_i e he
      obtain ⟨z, zs, rfl⟩ := List.exists_cons_of_ne_nil (l := l) (by
        rintro rfl; simp [h.last] at he)
      simp [h.first]
    · rename_i he
      have : l = [] := by simpa [h.last] using he
      simp [this]
  last := by unfold Chain.pushBack; split <;> simp
  length := by unfold Chain.pushBack; split <;> simp [h.length]
  nodup := h.nodup.append (by simp) (by simpa using hn)
  has j hj := by
    have : a.Has j := by
      obtain hj | hj := List.mem_append.mp hj
      · exact h.has j hj
      · simpa [List.mem_singleton.mp hj] using hk
    simpa [Arena.Has] using this
  prev us j vs he := by
    rw [prev?_pushBack hk]
    obtain ⟨ws, rfl, rfl⟩ | ⟨rfl, rfl, rfl⟩ | ⟨ws, -, hv⟩ := split_cases he
    · rw [if_neg (by rintro rfl; simp at hn), h.prev us j ws rfl]
    · simp [h.last]
    · simp at hv
  next us j vs he := by
    rw [next?_pushBack hk fun e => h.has_last]
    obtain ⟨ws, rfl, rfl⟩ | ⟨rfl, rfl, rfl⟩ | ⟨ws, -, hv⟩ := split_cases he
    · have hne : j ≠ k := by rintro rfl; simp at hn
      obtain rfl | ⟨ws, w, rfl⟩ := ws.eq_nil_or_concat'
      · simp [h.last]
      · have hw : j ≠ w := by
          rintro rfl
          simpa using (List.nodup_append.mp h.nodup).2.1
        have hl : c.last ≠ some j := by
          rw [h.last, ← List.cons_append, ← List.append_assoc, List.getLast?_concat]
          simpa using Ne.symm hw
        rw [if_neg hl, if_neg hne, h.next us j _ rfl]
        cases ws <;> simp
    · have : us.getLast? ≠ some j := fun he => hn (List.mem_of_getLast? he)
      simp [h.last, this]
    · simp at hv

/-! ### Linking before an anchor -/

theorem parent?_insertBefore (hk : a.Has k) :
    (c.insertBefore a q anchor k).2.parent? j = if j = k then some q else a.parent? j := by
  unfold insertBefore
  dsimp only
  split <;> simp [Arena.parent?_place hk]

theorem prev?_insertBefore (hk : a.Has k) (ha : a.Has anchor) :
    (c.insertBefore a q anchor k).2.prev? j =
      if j = anchor then some k else if j = k then a.prev? anchor else a.prev? j := by
  have (x y : Option (Handle kind)) : (a.place k (some q) x y).Has anchor := by simpa [Arena.Has] using ha
  unfold insertBefore
  dsimp only
  split <;> simp [Arena.prev?_setPrev (this _ _), Arena.prev?_place hk]

theorem next?_insertBefore (hk : a.Has k) (hp : ∀ p, a.prev? anchor = some p → a.Has p) :
    (c.insertBefore a q anchor k).2.next? j =
      if a.prev? anchor = some j then some k else if j = k then some anchor else a.next? j := by
  unfold insertBefore
  dsimp only
  split
  · rename_i p he
    have (x y z : Option (Handle kind)) : ((a.place k (some q) x y).setPrev anchor z).Has p := by
      simpa [Arena.Has] using hp p he
    simp [he, Arena.next?_setNext (this _ _ _), Arena.next?_place hk, eq_comm]
  · rename_i he
    simp [he, Arena.next?_place hk]

@[simp] theorem content?_insertBefore :
    (c.insertBefore a q anchor k).2.content? j = a.content? j := by
  unfold insertBefore
  dsimp only
  split <;> simp

@[simp] theorem size_insertBefore : (c.insertBefore a q anchor k).2.size = a.size := by
  unfold insertBefore
  dsimp only
  split <;> simp

theorem Holds.has_prev (h : c.Holds a (xs ++ anchor :: ys)) {e : Handle kind}
    (he : a.prev? anchor = some e) : a.Has e := by
  rw [h.prev xs anchor ys rfl] at he
  exact h.has e (by simp [List.mem_of_getLast? he])

theorem Holds.insertBefore (h : c.Holds a (xs ++ anchor :: ys)) (hk : a.Has k)
    (hn : k ∉ xs ++ anchor :: ys) :
    (c.insertBefore a q anchor k).1.Holds (c.insertBefore a q anchor k).2
      (xs ++ k :: anchor :: ys) := by
  have ha : a.Has anchor := h.has anchor (by simp)
  have hb : a.prev? anchor = xs.getLast? := h.prev xs anchor ys rfl
  have hnd := h.nodup
  simp only [List.mem_append, List.mem_cons, not_or] at hn
  constructor
  case first =>
    unfold Chain.insertBefore
    cases xs <;> simp_all [h.first]
    split <;> simp_all
  case last =>
    unfold Chain.insertBefore
    dsimp only
    split <;> simp [h.last]
  case length =>
    unfold Chain.insertBefore
    dsimp only
    split <;> simp [h.length] <;> omega
  case nodup =>
    simp only [List.nodup_append, List.nodup_cons, List.mem_cons] at hnd ⊢
    grind
  case has =>
    intro j hj
    have : a.Has j := by
      by_cases he : j = k
      · exact he ▸ hk
      · exact h.has j (by simp at hj ⊢; tauto)
    simpa [Arena.Has] using this
  case prev =>
    intro us j vs he
    rw [prev?_insertBefore hk ha]
    obtain ⟨ws, rfl, rfl⟩ | ⟨rfl, rfl, rfl⟩ | ⟨ws, rfl, hv⟩ := split_cases he
    · have hj : j ≠ anchor := by rintro rfl; simp [List.nodup_append] at hnd
      have hjk : j ≠ k := by rintro rfl; simp at hn
      rw [if_neg hj, if_neg hjk, h.prev us j (ws ++ anchor :: ys) (by simp)]
    · rw [if_neg hn.2.1, if_pos rfl, hb]
    · cases ws with
      | nil => simp_all
      | cons w ws =>
        simp only [List.cons_append, List.cons.injEq] at hv
        obtain ⟨rfl, rfl⟩ := hv
        have hj : j ≠ anchor := by rintro rfl; simp [List.nodup_append] at hnd
        have hjk : j ≠ k := by rintro rfl; simp at hn
        rw [if_neg hj, if_neg hjk, h.prev (xs ++ anchor :: ws) j vs (by simp)]
        simp
  case next =>
    intro us j vs he
    rw [next?_insertBefore hk fun p => h.has_prev, hb]
    obtain ⟨ws, rfl, rfl⟩ | ⟨rfl, rfl, rfl⟩ | ⟨ws, rfl, hv⟩ := split_cases he
    · have hjk : j ≠ k := by rintro rfl; simp at hn
      rw [if_neg hjk, h.next us j (ws ++ anchor :: ys) (by simp)]
      obtain rfl | ⟨ws, w, rfl⟩ := ws.eq_nil_or_concat'
      · simp
      · have hw : w ≠ j := by rintro rfl; simp [List.nodup_append] at hnd
        rw [← List.cons_append, ← List.append_assoc, List.getLast?_concat,
          if_neg (by simpa using hw)]
        cases ws <;> simp
    · have : us.getLast? ≠ some j := fun he => hn.1 (List.mem_of_getLast? he)
      simp [this]
    · have hj : j ∈ anchor :: ys := by simp [hv]
      have hx : xs.getLast? ≠ some j := fun hx =>
        List.disjoint_of_nodup_append hnd (List.mem_of_getLast? hx) hj
      have hjk : j ≠ k := by rintro rfl; simp at hj; tauto
      rw [if_neg hx, if_neg hjk, h.next (xs ++ ws) j vs (by simp [hv])]

/-! ### Taking out -/

theorem parent?_unlink (hk : a.Has k) :
    (c.unlink a k).2.parent? j = if j = k then none else a.parent? j := by
  unfold unlink
  dsimp only
  cases a.prev? k <;> cases a.next? k <;> simp [Arena.parent?_place hk]

theorem prev?_unlink (hk : a.Has k) (hn : ∀ e, a.next? k = some e → a.Has e) :
    (c.unlink a k).2.prev? j =
      if a.next? k = some j then a.prev? k else if j = k then none else a.prev? j := by
  have cleared : (a.place k none none none).prev? j = if j = k then none else a.prev? j :=
    Arena.prev?_place hk
  have reset (b : Arena kind owner α) (hb : b.size = a.size) (e : Handle kind) (y : Option _)
      (he : a.next? k = some e) :
      (b.setPrev e y).prev? j = if some e = some j then y else b.prev? j := by
    rw [Arena.prev?_setPrev (by simpa [Arena.Has, hb] using hn e he)]
    simp only [Option.some.injEq, eq_comm]
  unfold unlink
  dsimp only
  cases hp : a.prev? k <;> cases he : a.next? k <;>
    simp [reset, he, cleared, -Option.some.injEq]

theorem next?_unlink (hk : a.Has k) (hp : ∀ e, a.prev? k = some e → a.Has e) :
    (c.unlink a k).2.next? j =
      if a.prev? k = some j then a.next? k else if j = k then none else a.next? j := by
  have cleared : (a.place k none none none).next? j = if j = k then none else a.next? j :=
    Arena.next?_place hk
  have reset (b : Arena kind owner α) (hb : b.size = a.size) (e : Handle kind) (y : Option _)
      (he : a.prev? k = some e) :
      (b.setNext e y).next? j = if some e = some j then y else b.next? j := by
    rw [Arena.next?_setNext (by simpa [Arena.Has, hb] using hp e he)]
    simp only [Option.some.injEq, eq_comm]
  unfold unlink
  dsimp only
  cases he : a.prev? k <;> cases hn : a.next? k <;>
    simp [reset, he, cleared, -Option.some.injEq]

@[simp] theorem content?_unlink : (c.unlink a k).2.content? j = a.content? j := by
  unfold unlink
  dsimp only
  cases a.prev? k <;> cases a.next? k <;> simp

@[simp] theorem size_unlink : (c.unlink a k).2.size = a.size := by
  unfold unlink
  dsimp only
  cases a.prev? k <;> cases a.next? k <;> simp

theorem Holds.has_next (h : c.Holds a (xs ++ k :: ys)) {e : Handle kind}
    (he : a.next? k = some e) : a.Has e := by
  rw [h.next xs k ys rfl] at he
  exact h.has e (by simp [List.mem_of_head? he])

theorem Holds.unlink (h : c.Holds a (xs ++ k :: ys)) :
    (c.unlink a k).1.Holds (c.unlink a k).2 (xs ++ ys) := by
  have hk : a.Has k := h.has k (by simp)
  have hp : a.prev? k = xs.getLast? := h.prev xs k ys rfl
  have hn : a.next? k = ys.head? := h.next xs k ys rfl
  have hnd := h.nodup
  have hnx : k ∉ xs := fun hx => List.disjoint_of_nodup_append hnd hx (by simp)
  have hny : k ∉ ys := (List.nodup_cons.mp (List.nodup_append.mp hnd).2.1).1
  have hxy : ∀ j ∈ xs, j ∉ ys := fun j hx hy =>
    List.disjoint_of_nodup_append hnd hx (by simp [hy])
  constructor
  case first =>
    unfold Chain.unlink
    dsimp only
    rw [hp, hn]
    obtain rfl | ⟨xs, x, rfl⟩ := xs.eq_nil_or_concat' <;> cases ys <;> simp [h.first]
  case last =>
    unfold Chain.unlink
    dsimp only
    rw [hp, hn]
    obtain rfl | ⟨xs, x, rfl⟩ := xs.eq_nil_or_concat' <;> cases ys <;> simp [h.last]
  case length =>
    unfold Chain.unlink
    dsimp only
    split <;> split <;> simp [h.length]
  case nodup => exact hnd.sublist (by simp)
  case has =>
    intro j hj
    have : a.Has j := h.has j (by simp at hj ⊢; tauto)
    simpa [Arena.Has] using this
  case prev =>
    intro us j vs he
    rw [prev?_unlink hk fun e => h.has_next, hn, hp]
    obtain ⟨ws, rfl, rfl⟩ | ⟨ws, rfl, rfl⟩ := append_cases he
    · have hj : ys.head? ≠ some j := fun hy => hxy j (by simp) (List.mem_of_head? hy)
      have hjk : j ≠ k := by rintro rfl; simp at hnx
      rw [if_neg hj, if_neg hjk, h.prev us j (ws ++ k :: ys) (by simp)]
    · have hjk : j ≠ k := by rintro rfl; simp at hny
      cases ws with
      | nil => simp
      | cons w ws =>
        have hj : w ≠ j := by rintro rfl; simp [List.nodup_append] at hnd
        rw [if_neg (by simpa using hj), if_neg hjk, h.prev (xs ++ k :: w :: ws) j vs (by simp)]
        simp
  case next =>
    intro us j vs he
    rw [next?_unlink hk fun e => h.has_prev, hn, hp]
    obtain ⟨ws, rfl, rfl⟩ | ⟨ws, rfl, rfl⟩ := append_cases he
    · have hjk : j ≠ k := by rintro rfl; simp at hnx
      obtain rfl | ⟨ws, w, rfl⟩ := ws.eq_nil_or_concat'
      · simp
      · have hj : w ≠ j := by rintro rfl; simp [List.nodup_append] at hnd
        rw [← List.cons_append, ← List.append_assoc, List.getLast?_concat,
          if_neg (by simpa using hj), if_neg hjk, h.next us j (ws ++ [w] ++ k :: ys) (by simp)]
        cases ws <;> simp
    · have hj : xs.getLast? ≠ some j := fun hx => hxy j (List.mem_of_getLast? hx) (by simp)
      have hjk : j ≠ k := by rintro rfl; simp at hny
      rw [if_neg hj, if_neg hjk, h.next (xs ++ k :: ws) j vs (by simp)]

end Chain
end SsaKit
