import Mathlib.Logic.Function.Basic
import SsaKit.Proofs.Chain

/-! All chains of an arena together: no node is in two of them, and a node names its owner. -/
namespace SsaKit

variable {kind owner : Entity} {α β : Type} {a : Arena kind owner α} {b : Arena kind owner β}
  {chain : Handle owner → Chain kind} {list : Handle owner → List (Handle kind)}
  {k anchor : Handle kind} {q r : Handle owner} {xs ys : List (Handle kind)}

namespace Arena

/-- The second arena has all nodes of the first one, with the same links, and links no other. -/
structure SameLinks (a : Arena kind owner α) (b : Arena kind owner β) : Prop where
  has : ∀ k, a.Has k → b.Has k
  parent : ∀ k, b.parent? k = a.parent? k
  prev : ∀ k, b.prev? k = a.prev? k
  next : ∀ k, b.next? k = a.next? k

theorem SameLinks.refl (a : Arena kind owner α) : SameLinks a a :=
  ⟨fun _ h => h, fun _ => rfl, fun _ => rfl, fun _ => rfl⟩

theorem SameLinks.trans {γ : Type} {c : Arena kind owner γ} (h : SameLinks a b)
    (h' : SameLinks b c) : SameLinks a c where
  has k hk := h'.has k (h.has k hk)
  parent k := (h'.parent k).trans (h.parent k)
  prev k := (h'.prev k).trans (h.prev k)
  next k := (h'.next k).trans (h.next k)

theorem read_push {field : Node kind owner α → Option β} {n : Node kind owner α}
    (h : field n = none) : (a.push n)[k.index]?.bind field = a[k.index]?.bind field := by
  rw [Array.getElem?_push]
  split
  · rename_i he
    simp [he, h]
  · rfl

theorem sameLinks_push (content : α) : SameLinks a (a.push { content }) where
  has k hk := by simpa [Has] using Nat.lt_succ_of_lt hk
  parent _ := read_push rfl
  prev _ := read_push rfl
  next _ := read_push rfl

theorem sameLinks_modifyContent (f : α → α) : SameLinks a (a.modifyContent k f) where
  has j hj := by simpa [Has, modifyContent] using hj
  parent _ := read_modify_same fun _ => rfl
  prev _ := read_modify_same fun _ => rfl
  next _ := read_modify_same fun _ => rfl

theorem sameLinks_map (f : α → β) :
    SameLinks a (a.map fun n => ⟨f n.content, n.parent, n.prev, n.next⟩) where
  has j hj := by simpa [Has] using hj
  parent j := by simp [parent?, Option.bind_map, Function.comp_def]
  prev j := by simp [prev?, Option.bind_map, Function.comp_def]
  next j := by simp [next?, Option.bind_map, Function.comp_def]

end Arena

/-- Every owner's chain holds the owner's list, and a node names an owner exactly when it is in the
list of that owner. -/
structure Threads (chain : Handle owner → Chain kind) (a : Arena kind owner α)
    (list : Handle owner → List (Handle kind)) : Prop where
  holds : ∀ q, (chain q).Holds a (list q)
  parent : ∀ k q, a.parent? k = some q ↔ k ∈ list q

namespace Threads

theorem list_eq (h : Threads chain a list) : list = fun q => (chain q).toList a :=
  funext fun q => (h.holds q).toList_eq.symm

theorem disjoint (h : Threads chain a list) (hq : k ∈ list q) (hr : k ∈ list r) : q = r := by
  rw [← h.parent, (h.parent k r).mpr hr, Option.some_inj] at hq
  exact hq.symm

theorem congr (h : Threads chain a list) (hs : Arena.SameLinks a b) : Threads chain b list where
  holds q := (h.holds q).congr (fun k hk => hs.has k ((h.holds q).has k hk))
    (fun k _ => hs.prev k) (fun k _ => hs.next k)
  parent k q := by rw [hs.parent, h.parent]

theorem pushBack (h : Threads chain a list) (hk : a.Has k) (hn : a.parent? k = none) :
    Threads (Function.update chain q ((chain q).pushBack a q k).1) ((chain q).pushBack a q k).2
      (Function.update list q (list q ++ [k])) := by
  have hout : ∀ r, k ∉ list r := fun r hr => by simp [(h.parent k r).mpr hr] at hn
  constructor
  · intro r
    by_cases hr : r = q
    · subst hr
      simpa using (h.holds r).pushBack hk (hout r)
    · have hne : ∀ j ∈ list r, j ≠ k := fun j hj he => hout r (he ▸ hj)
      simp only [Function.update, hr, dite_false]
      refine (h.holds r).congr (fun j hj => by simpa [Arena.Has] using (h.holds r).has j hj)
        (fun j hj => ?_) (fun j hj => ?_)
      · rw [Chain.prev?_pushBack hk, if_neg (hne j hj)]
      · have hl : (chain q).last ≠ some j := fun hl => by
          rw [(h.holds q).last] at hl
          exact hr (h.disjoint hj (List.mem_of_getLast? hl))
        rw [Chain.next?_pushBack hk fun e => (h.holds q).has_last, if_neg hl, if_neg (hne j hj)]
  · intro j r
    rw [Chain.parent?_pushBack hk]
    by_cases hj : j = k
    · subst hj
      by_cases hr : r = q
      · simp [hr]
      · simp [Function.update, hr, Ne.symm hr, hout r]
    · by_cases hr : r = q
      · subst hr
        simp [hj, h.parent]
      · simp [Function.update, hj, hr, h.parent]

theorem insertBefore (h : Threads chain a list) (hk : a.Has k) (hn : a.parent? k = none)
    (hl : list q = xs ++ anchor :: ys) :
    Threads (Function.update chain q ((chain q).insertBefore a q anchor k).1)
      ((chain q).insertBefore a q anchor k).2
      (Function.update list q (xs ++ k :: anchor :: ys)) := by
  have hout : ∀ r, k ∉ list r := fun r hr => by simp [(h.parent k r).mpr hr] at hn
  have hq := h.holds q
  have ha : anchor ∈ list q := by simp [hl]
  have hp : ∀ p, a.prev? anchor = some p → p ∈ list q := fun p hp => by
    rw [hq.prev xs anchor ys hl] at hp
    simp [hl, List.mem_of_getLast? hp]
  constructor
  · intro r
    by_cases hr : r = q
    · subst hr
      rw [hl] at hq
      simpa using hq.insertBefore hk (hl ▸ hout r)
    · have hne : ∀ j ∈ list r, j ≠ k := fun j hj he => hout r (he ▸ hj)
      simp only [Function.update, hr, dite_false]
      refine (h.holds r).congr (fun j hj => by simpa [Arena.Has] using (h.holds r).has j hj)
        (fun j hj => ?_) (fun j hj => ?_)
      · have hja : j ≠ anchor := fun he => hr (h.disjoint (he ▸ hj) ha)
        rw [Chain.prev?_insertBefore hk (hq.has anchor ha), if_neg hja, if_neg (hne j hj)]
      · have hjp : a.prev? anchor ≠ some j := fun he => hr (h.disjoint hj (hp j he))
        rw [Chain.next?_insertBefore hk fun p he => hq.has p (hp p he), if_neg hjp,
          if_neg (hne j hj)]
  · intro j r
    rw [Chain.parent?_insertBefore hk]
    by_cases hj : j = k
    · subst hj
      by_cases hr : r = q
      · simp [hr]
      · simp [Function.update, hr, Ne.symm hr, hout r]
    · by_cases hr : r = q
      · subst hr
        simp [hj, h.parent, hl]
      · simp [Function.update, hj, hr, h.parent]

theorem unlink (h : Threads chain a list) (hl : list q = xs ++ k :: ys) :
    Threads (Function.update chain q ((chain q).unlink a k).1) ((chain q).unlink a k).2
      (Function.update list q (xs ++ ys)) := by
  have hq := h.holds q
  have hk : k ∈ list q := by simp [hl]
  have hp : ∀ p, a.prev? k = some p → p ∈ list q := fun p hp => by
    rw [hq.prev xs k ys hl] at hp
    simp [hl, List.mem_of_getLast? hp]
  have hn : ∀ p, a.next? k = some p → p ∈ list q := fun p hp => by
    rw [hq.next xs k ys hl] at hp
    simp [hl, List.mem_of_head? hp]
  constructor
  · intro r
    by_cases hr : r = q
    · subst hr
      rw [hl] at hq
      simpa using hq.unlink
    · have hne : ∀ j ∈ list r, ∀ i ∈ list q, i ≠ j := fun j hj i hi he =>
        hr (h.disjoint hj (he ▸ hi))
      simp only [Function.update, hr, dite_false]
      refine (h.holds r).congr (fun j hj => by simpa [Arena.Has] using (h.holds r).has j hj)
        (fun j hj => ?_) (fun j hj => ?_)
      · have hj' : a.next? k ≠ some j := fun he => hne j hj j (hn j he) rfl
        rw [Chain.prev?_unlink (hq.has k hk) fun p he => hq.has p (hn p he), if_neg hj',
          if_neg (Ne.symm (hne j hj k hk))]
      · have hj' : a.prev? k ≠ some j := fun he => hne j hj j (hp j he) rfl
        rw [Chain.next?_unlink (hq.has k hk) fun p he => hq.has p (hp p he), if_neg hj',
          if_neg (Ne.symm (hne j hj k hk))]
  · intro j r
    rw [Chain.parent?_unlink (hq.has k hk)]
    have hnd := hl ▸ hq.nodup
    by_cases hj : j = k
    · subst hj
      by_cases hr : r = q
      · subst hr
        have hx : j ∉ xs := fun hx => List.disjoint_of_nodup_append hnd hx (by simp)
        have hy : j ∉ ys := (List.nodup_cons.mp (List.nodup_append.mp hnd).2.1).1
        simp [hx, hy]
      · have : j ∉ list r := fun hjr => hr (h.disjoint hjr hk)
        simp [Function.update, hr, this]
    · by_cases hr : r = q
      · subst hr
        simp [hj, h.parent, hl]
      · simp [Function.update, hj, hr, h.parent]

end Threads
end SsaKit
