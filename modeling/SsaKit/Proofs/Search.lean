import Mathlib.Logic.Relation
import SsaKit.Proofs.Content
import SsaKit.Transform.Reachability

/-! The search for the blocks that control may come to finds all of them and no other. -/
namespace SsaKit

/-- Control may leave one block for the other. -/
def Module.Edge (m : Module) (b s : BlockId) : Prop := s ∈ m.successors b

/-- Control may come from one block to the other over any number of edges. -/
abbrev Module.Reaches (m : Module) : BlockId → BlockId → Prop := Relation.ReflTransGen m.Edge

namespace Transform

/-- What looking at the members of a list adds to what was seen and to what of it is pending. -/
structure Widens {α : Type} (l seen pending seen' pending' : List α) : Prop where
  mem_seen : ∀ a, a ∈ seen' ↔ a ∈ seen ∨ a ∈ l
  mem_pending : ∀ a, a ∈ pending' ↔ a ∈ pending ∨ a ∈ l ∧ a ∉ seen
  nodup : seen.Nodup → seen'.Nodup
  length : seen'.length + pending.length = seen.length + pending'.length

section

variable {α : Type} {l l' seen seen' seen'' pending pending' pending'' : List α} {a : α}

theorem widens_nil (seen pending : List α) : Widens [] seen pending seen pending :=
  ⟨by simp, by simp, id, rfl⟩

theorem widens_known (ha : a ∈ seen) : Widens [a] seen pending seen pending := by
  refine ⟨fun k => ?_, fun k => ?_, id, rfl⟩
  · rw [List.mem_singleton]
    exact ⟨.inl, fun h => h.elim id fun he => he ▸ ha⟩
  · rw [List.mem_singleton]
    exact ⟨.inl, fun h => h.elim id fun ⟨he, hn⟩ => absurd (he ▸ ha) hn⟩

theorem widens_new (ha : a ∉ seen) : Widens [a] seen pending (a :: seen) (a :: pending) := by
  refine ⟨fun k => ?_, fun k => ?_, fun hn => List.nodup_cons.mpr ⟨ha, hn⟩, ?_⟩
  · simp [or_comm]
  · rw [List.mem_cons, List.mem_singleton, or_comm]
    exact or_congr_right ⟨fun he => ⟨he, he ▸ ha⟩, And.left⟩
  · simp only [List.length_cons]
    omega

theorem Widens.trans (h : Widens l seen pending seen' pending')
    (h' : Widens l' seen' pending' seen'' pending'') :
    Widens (l ++ l') seen pending seen'' pending'' := by
  refine ⟨fun k => ?_, fun k => ?_, h'.nodup ∘ h.nodup, ?_⟩
  · rw [h'.mem_seen, h.mem_seen, List.mem_append, or_assoc]
  · rw [h'.mem_pending, h.mem_pending, h.mem_seen, List.mem_append]
    tauto
  · have := h.length
    have := h'.length
    omega

end

open SsaKit.Module

variable {m : Module} {s s' : Search} {b entry : BlockId} {l : List BlockId}

theorem Search.widens_visit (s : Search) (b : BlockId) :
    Widens [b] s.seen s.pending (s.visit b).seen (s.visit b).pending := by
  unfold visit
  by_cases hb : b ∈ s.seen
  · rw [if_pos (by simpa using hb)]
    exact widens_known hb
  · rw [if_neg (by simpa using hb)]
    exact widens_new hb

theorem Search.widens_visits (s : Search) (l : List BlockId) :
    Widens l s.seen s.pending (l.foldl Search.visit s).seen (l.foldl Search.visit s).pending := by
  induction l generalizing s with
  | nil => exact widens_nil _ _
  | cons b l ih => exact (s.widens_visit b).trans (ih (s.visit b))

/-- A search on its way: it has seen only what control comes to, and the successors of all that is no
longer pending. -/
structure Searching (m : Module) (entry : BlockId) (s : Search) : Prop where
  nodup : s.seen.Nodup
  start : entry ∈ s.seen
  pending : ∀ b ∈ s.pending, b ∈ s.seen
  sound : ∀ b ∈ s.seen, m.Reaches entry b
  closed : ∀ b ∈ s.seen, b ∉ s.pending → ∀ t, m.Edge b t → t ∈ s.seen

theorem Searching.round {pending : List BlockId} (h : Searching m entry s)
    (hp : s.pending = b :: pending) :
    Searching m entry ((m.successors b).foldl Search.visit { s with pending }) := by
  have hw := Search.widens_visits { s with pending } (m.successors b)
  have hb : b ∈ s.seen := h.pending b (by simp [hp])
  refine ⟨hw.nodup h.nodup, (hw.mem_seen _).mpr (.inl h.start), fun k hk => ?_, fun k hk => ?_,
    fun k hk hn t ht => ?_⟩
  · rw [hw.mem_seen]
    rcases (hw.mem_pending k).mp hk with hk | ⟨hk, -⟩
    · exact .inl (h.pending k (by simp [hp, hk]))
    · exact .inr hk
  · rcases (hw.mem_seen k).mp hk with hk | hk
    · exact h.sound k hk
    · exact (h.sound b hb).tail hk
  · rw [hw.mem_pending] at hn
    push Not at hn
    obtain ⟨hn, hnew⟩ := hn
    have hseen : k ∈ s.seen := by
      rcases (hw.mem_seen k).mp hk with hk | hk
      · exact hk
      · exact hnew hk
    rw [hw.mem_seen]
    by_cases hkb : k = b
    · exact .inr (hkb ▸ ht)
    · have hout : k ∉ s.pending := by
        rw [hp]
        exact fun hmem => (List.mem_cons.mp hmem).elim hkb hn
      exact .inl (h.closed k hseen hout t ht)

/-- A search with nothing pending has seen all that control comes to. -/
theorem Searching.complete (h : Searching m entry s) (hp : s.pending = []) (b : BlockId) :
    b ∈ s.seen ↔ m.Reaches entry b := by
  refine ⟨h.sound b, fun hr => ?_⟩
  induction hr with
  | refl => exact h.start
  | tail _ he ih => exact h.closed _ ih (by simp [hp]) _ he

/-- Every round takes one block off those that are pending, and only blocks at hand are seen. -/
theorem mem_explore (hhas : ∀ b, m.Reaches entry b → m.blocks.Has b) {fuel : Nat}
    (h : Searching m entry s)
    (hfuel : m.blocks.size + 1 + s.pending.length ≤ fuel + s.seen.length) :
    b ∈ explore m fuel s ↔ m.Reaches entry b := by
  have hbound {s : Search} (h : Searching m entry s) : s.seen.length ≤ m.blocks.size :=
    Handle.length_le h.nodup fun b hb => hhas b (h.sound b hb)
  induction fuel generalizing s with
  | zero =>
    have := hbound h
    omega
  | succ fuel ih =>
    unfold explore
    split
    · rename_i hp
      exact h.complete hp b
    · rename_i k pending hp
      refine ih (h.round hp) ?_
      have hw := (Search.widens_visits { s with pending } (m.successors k)).length
      simp only [hp, List.length_cons] at hfuel
      dsimp only at hw
      omega

/-- The search from an entry finds exactly the blocks that control may come to. -/
theorem mem_reachable (hhas : ∀ b, m.Reaches entry b → m.blocks.Has b) :
    b ∈ reachable m entry ↔ m.Reaches entry b := by
  refine mem_explore hhas ⟨by simp, by simp, by simp, ?_, ?_⟩ (by simp)
  · intro k hk
    rw [List.mem_singleton.mp hk]
  · intro k hk hn
    exact absurd hk hn

end Transform
end SsaKit
