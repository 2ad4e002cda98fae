import SsaKit.Proofs.Integrity
import SsaKit.Proofs.ProgramOrder

/-! What the check of a module from outside says about its chains: everything about the way forward,
nothing about the way back, and nothing about nodes that no list mentions. -/
namespace SsaKit

variable {kind owner : Entity} {α : Type} {a : Arena kind owner α} {c : Chain kind}
  {chain : Handle owner → Chain kind} {list : Handle owner → List (Handle kind)}
  {l : List (Handle kind)} {q : Handle owner}

/-- Followed forward, the chain of an owner meets a list without repetition that is as long and ends
where it says, and all its members name the owner. -/
structure Lists (c : Chain kind) (a : Arena kind owner α) (q : Handle owner)
    (l : List (Handle kind)) : Prop where
  runs : c.Runs a l
  nodup : l.Nodup
  parent : ∀ k ∈ l, a.parent? k = some q

/-- Every member links back to the one before it. -/
def Mirrored (a : Arena kind owner α) (l : List (Handle kind)) : Prop :=
  ∀ xs k ys, l = xs ++ k :: ys → a.prev? k = xs.getLast?

theorem Chain.Runs.lists (h : c.Runs a l) (hp : ∀ k ∈ l, a.parent? k = some q) :
    Lists c a q l :=
  ⟨h, h.walk.nodup, hp⟩

theorem lists_empty : Lists ({} : Chain kind) a q [] :=
  Chain.holds_empty.runs.lists (by simp)

/-- Links back along a list lead from its end to its start. -/
theorem Mirrored.walk (h : Mirrored a l) : Chain.Walk a.prev? l.getLast? l.reverse := by
  have suffix : ∀ xs ys, l = xs.reverse ++ ys → Chain.Walk a.prev? xs.head? xs := by
    intro xs
    induction xs with
    | nil => intro _ _; exact .stop
    | cons k xs ih =>
      intro ys he
      refine .go _ _ ?_
      rw [h xs.reverse k ys (by simpa using he), List.getLast?_reverse]
      exact ih (k :: ys) (by simpa using he)
  rw [← List.head?_reverse]
  exact suffix l.reverse [] (by simp)

theorem mirrored_of_walk {start : Option (Handle kind)}
    (h : Chain.Walk a.prev? start l.reverse) : Mirrored a l := by
  intro xs k ys he
  have hrest : Chain.Walk a.prev? (a.prev? k) xs.reverse :=
    h.suffix (show l.reverse = ys.reverse ++ k :: xs.reverse by simp [he])
  rw [← List.head?_reverse]
  exact hrest.start_eq

theorem Represents.lists (h : Represents chain a list) (q : Handle owner) :
    Lists (chain q) a q (list q) := by
  have hparent : ∀ k ∈ list q, a.parent? k = some q := fun k => (h.parent k q).mpr
  refine ⟨⟨h.forward q, (h.length q).symm, ?_, ?_⟩, h.nodup q, hparent⟩
  · rw [(h.backward q).start_eq, List.head?_reverse]
  · exact Chain.length_le_size (h.nodup q) fun k hk => Arena.has_of_parent (hparent k hk)

/-- What is missing for chains that are listed forward to stand for their lists. -/
theorem represents_iff (h : ∀ q, Lists (chain q) a q (list q)) : Represents chain a list ↔
    (∀ q, Mirrored a (list q)) ∧ ∀ k q, a.parent? k = some q → k ∈ list q := by
  constructor
  · intro hr
    exact ⟨fun q => mirrored_of_walk (hr.backward q), fun k q => (hr.parent k q).mp⟩
  · rintro ⟨hmirrored, howned⟩
    exact ⟨fun q => (h q).runs.walk, fun q => (h q).runs.last ▸ (hmirrored q).walk,
      fun q => (h q).runs.length.symm, fun q => (h q).nodup,
      fun k q => ⟨howned k q, (h q).parent k⟩⟩

namespace Module

variable {m : Module} {b : BlockId} {f : FunctionId}

theorem function_of_not_has (hf : ¬ m.HasFunction f) : m.function f = default := by
  simp [function_def, Array.getElem?_eq_none (Nat.le_of_not_lt hf)]

theorem blocksOf_of_not_has (hf : ¬ m.HasFunction f) : m.blocksOf f = [] := by
  rw [blocksOf, function_of_not_has hf]
  exact Chain.holds_empty.toList_eq

theorem Intact.lists_blocks (h : m.Intact) (f : FunctionId) :
    Lists (m.function f).chain m.blocks f (m.blocksOf f) := by
  by_cases hf : m.HasFunction f
  · obtain ⟨body, hruns, hbody⟩ := h.bodies f hf
    rw [blocksOf, hruns.toList_eq]
    exact hruns.lists fun b hb => (hbody b hb).1
  · rw [blocksOf_of_not_has hf, function_of_not_has hf]
    exact lists_empty

theorem Intact.code (h : m.Intact) (hb : b ∈ m.blocksOf f) : m.CodeIntact b := by
  have hf : m.HasFunction f := by
    by_contra hn
    rw [blocksOf_of_not_has hn] at hb
    cases hb
  obtain ⟨body, hruns, hbody⟩ := h.bodies f hf
  rw [blocksOf, hruns.toList_eq] at hb
  exact (hbody b hb).2

theorem CodeIntact.lists (h : m.CodeIntact b) :
    Lists (m.block b).chain m.values b (m.instructions b) ∧
      ∀ v ∈ m.instructions b, m.isInstruction v := by
  obtain ⟨code, hruns, hcode⟩ := h
  rw [instructions, hruns.toList_eq]
  exact ⟨hruns.lists fun v hv => (hcode v hv).1, fun v hv => (hcode v hv).2⟩

/-- What the check does not ask for: links back, nodes that name an owner without being on its list,
and the code of blocks on no list. -/
structure LinkedBack (m : Module) : Prop where
  blocks : ∀ f, Mirrored m.blocks (m.blocksOf f)
  owned : ∀ b f, m.functionOf? b = some f → b ∈ m.blocksOf f
  loose : ∀ b, (∀ f, b ∉ m.blocksOf f) →
    Lists (m.block b).chain m.values b (m.instructions b)
  code : ∀ b, Mirrored m.values (m.instructions b)
  placed : ∀ v b, m.blockOf? v = some b → v ∈ m.instructions b

/-- In a module that passes the check, functions list their blocks and listed blocks their
instructions, as seen from the front. All chains stand for their lists exactly if the links back and
everything that is on no list are right too, which the check does not look at. -/
theorem accepted_chains (h : m.checkIntegrity = .ok ()) :
    (∀ f, Lists (m.function f).chain m.blocks f (m.blocksOf f)) ∧
      (∀ f, ∀ b ∈ m.blocksOf f, Lists (m.block b).chain m.values b (m.instructions b) ∧
        ∀ v ∈ m.instructions b, m.isInstruction v) ∧
      (m.WellLinked ↔ m.LinkedBack) := by
  have hi := checkIntegrity_eq_ok.mp h
  refine ⟨hi.lists_blocks, fun f b hb => (hi.code hb).lists, fun hw => ?_, fun hback => ?_⟩
  · obtain ⟨hblocks, howned⟩ := (represents_iff hi.lists_blocks).mp hw.blocks
    obtain ⟨hcode, hplaced⟩ := (represents_iff hw.code.lists).mp hw.code
    exact ⟨hblocks, howned, fun b _ => hw.code.lists b, hcode, hplaced⟩
  · have hcode : ∀ b, Lists (m.block b).chain m.values b (m.instructions b) := fun b => by
      by_cases hb : ∃ f, b ∈ m.blocksOf f
      · obtain ⟨f, hb⟩ := hb
        exact (hi.code hb).lists.1
      · exact hback.loose b (not_exists.mp hb)
    exact ⟨(represents_iff hi.lists_blocks).mpr ⟨hback.blocks, hback.owned⟩,
      (represents_iff hcode).mpr ⟨hback.code, hback.placed⟩⟩

end Module

/-- A module whose second instruction does not link back to the first one. -/
def crossed : Module where
  name := "crossed"
  types := .ofEntries #[.int 32, .function ⟨0⟩ [] false, .void]
  values := #[
    { content := { type := ⟨0⟩, kind := .int 1 } },
    { content := { type := ⟨0⟩, kind := .instruction (.binary .add ⟨0⟩ ⟨0⟩) }
      parent := some ⟨0⟩
      next := some ⟨2⟩ },
    { content := { type := ⟨0⟩, kind := .instruction (.binary .mul ⟨0⟩ ⟨0⟩) }
      parent := some ⟨0⟩
      next := some ⟨3⟩ },
    { content := { type := ⟨2⟩, kind := .instruction (.ret (some ⟨1⟩)) }
      parent := some ⟨0⟩
      prev := some ⟨2⟩ }]
  blocks := #[
    { content := { name := some "entry", chain := ⟨some ⟨1⟩, some ⟨3⟩, 3⟩ }, parent := some ⟨0⟩ }]
  functions := #[{ name := "main", type := ⟨1⟩, params := [], chain := ⟨some ⟨0⟩, some ⟨0⟩, 1⟩ }]
  functionNames := ⟨[("main", ⟨0⟩)]⟩

theorem crossed_checked : crossed.checkIntegrity = .ok () := by decide +kernel

/-- Seen from the front its code is fine. -/
theorem crossed_listed : crossed.checkIntegrity = .ok () ∧
    Lists (crossed.block ⟨0⟩).chain crossed.values ⟨0⟩ (crossed.instructions ⟨0⟩) := by
  obtain ⟨-, hcode, -⟩ := Module.accepted_chains crossed_checked
  exact ⟨crossed_checked, (hcode ⟨0⟩ ⟨0⟩ (by decide +kernel)).1⟩

/-- The check accepts it all the same, although the way back misses an instruction. -/
theorem crossed_not_mirrored : crossed.checkIntegrity = .ok () ∧
    (crossed.block ⟨0⟩).chain.toList crossed.values = [⟨1⟩, ⟨2⟩, ⟨3⟩] ∧
    (crossed.block ⟨0⟩).chain.toListBack crossed.values = [⟨3⟩, ⟨2⟩] ∧ ¬ crossed.WellLinked := by
  refine ⟨crossed_checked, by decide +kernel, by decide +kernel, fun h => ?_⟩
  have hback := h.code.backward ⟨0⟩
  have hseen : (crossed.block ⟨0⟩).chain.toListBack crossed.values = [⟨3⟩, ⟨2⟩] := by
    decide +kernel
  have hlist : crossed.instructions ⟨0⟩ = [⟨1⟩, ⟨2⟩, ⟨3⟩] := by decide +kernel
  rw [hlist] at hback
  rw [Chain.toListBack, Chain.follow_of_walk hback (by decide +kernel)] at hseen
  cases hseen

end SsaKit
