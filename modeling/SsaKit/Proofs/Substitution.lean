import SsaKit.Module.Layout

/-! Operands exchanged for others. A traversal that exchanges and counts them is the pure exchange
beside a count of what is there. -/
namespace SsaKit

namespace Instruction

/-- Put another value in the place of each value read. -/
def mapOperands (f : ValueId → ValueId) : Instruction → Instruction
  | binary op lhs rhs => binary op (f lhs) (f rhs)
  | icmp pred lhs rhs => icmp pred (f lhs) (f rhs)
  | fcmp pred lhs rhs => fcmp pred (f lhs) (f rhs)
  | alloca allocated count => alloca allocated (count.map f)
  | load ptr => load (f ptr)
  | store value ptr => store (f value) (f ptr)
  | elementPtr base indices => elementPtr (f base) (indices.map f)
  | branch dest => branch dest
  | condBranch cond thenDest elseDest => condBranch (f cond) thenDest elseDest
  | switch value default cases => switch (f value) default (cases.map fun c => (f c.1, c.2))
  | phi incoming => phi (incoming.map fun c => (c.1, f c.2))
  | call callee args => call callee (args.map f)
  | ret value => ret (value.map f)
  | unreachable => unreachable
  | cast op value => cast op (f value)
  | extractValue aggregate index => extractValue (f aggregate) index
  | insertValue aggregate element index => insertValue (f aggregate) (f element) index
  | extractElement vector index => extractElement (f vector) (f index)
  | insertElement vector element index => insertElement (f vector) (f element) (f index)
  | shuffle lhs rhs mask => shuffle (f lhs) (f rhs) (f mask)
  | select cond thenValue elseValue => select (f cond) (f thenValue) (f elseValue)

theorem operands_mapOperands (f : ValueId → ValueId) (i : Instruction) :
    (i.mapOperands f).operands = i.operands.map f := by
  cases i <;> simp [mapOperands, operands, Function.comp_def]
  all_goals cases ‹Option ValueId› <;> rfl

theorem successors_mapOperands (f : ValueId → ValueId) (i : Instruction) :
    (i.mapOperands f).successors = i.successors := by
  cases i <;> simp [mapOperands, successors, Function.comp_def]

end Instruction

/-! ### Counting traversals -/

/-- A step that comes to a result and counts how often `v` is among the values that it meets. -/
def Tallies {α : Type} (v : ValueId) (step : StateM Nat α) (a : α) (met : List ValueId) : Prop :=
  ∀ n, step.run n = (a, n + met.count v)

namespace Tallies

variable {α β : Type} {a : α} {b : β} {v : ValueId} {us ws : List ValueId}

theorem pure (a : α) : Tallies v (Pure.pure a) a [] := fun _ => rfl

theorem bind {step : StateM Nat α} {next : α → StateM Nat β} (h : Tallies v step a us)
    (hn : Tallies v (next a) b ws) : Tallies v (step >>= next) b (us ++ ws) := by
  intro n
  rw [StateT.run_bind, h n, List.count_append, ← Nat.add_assoc]
  exact hn (n + us.count v)

/-- What is made of the result meets nothing. -/
theorem map {step : StateM Nat α} {f : α → β} (h : Tallies v step a us) :
    Tallies v (step >>= fun a => Pure.pure (f a)) (f a) us := by
  rw [← us.append_nil]
  exact h.bind (.pure (f a))

theorem mapM {step : α → StateM Nat β} {g : α → β} {met : α → List ValueId}
    (h : ∀ a, Tallies v (step a) (g a) (met a)) (as : List α) :
    Tallies v (as.mapM step) (as.map g) (as.flatMap met) := by
  induction as with
  | nil => exact .pure _
  | cons a as ih =>
    rw [List.mapM_cons, List.flatMap_cons]
    exact (h a).bind ih.map

theorem mapM_array {step : α → StateM Nat β} {g : α → β} {met : α → List ValueId}
    (h : ∀ a, Tallies v (step a) (g a) (met a)) (as : Array α) :
    Tallies v (as.mapM step) (as.map g) (as.toList.flatMap met) := by
  have hlist := (mapM h as.toList).map (f := List.toArray)
  rwa [← Array.toList_map, Array.toArray_toList, ← map_eq_pure_bind,
    ← Array.mapM_eq_mapM_toList] at hlist

variable {step : ValueId → StateM Nat ValueId} {g : ValueId → ValueId}

theorem mapM_option (h : ∀ w, Tallies v (step w) (g w) [w]) (w : Option ValueId) :
    Tallies v (w.mapM step) (w.map g) w.toList := by
  cases w with
  | none => exact .pure _
  | some w => exact (h w).map

/-- All operands are met, each of them once. -/
theorem operands (h : ∀ w, Tallies v (step w) (g w) [w]) (i : Instruction) :
    Tallies v (i.traverseOperands step) (i.mapOperands g) i.operands := by
  have hlist (ws : List ValueId) : Tallies v (ws.mapM step) (ws.map g) ws := by
    have hmet := mapM h ws
    rwa [List.flatMap_singleton'] at hmet
  cases i with
  | branch _ | unreachable => exact .pure _
  | load x | condBranch x _ _ | cast _ x | extractValue x _ => exact (h x).map
  | binary _ x y | icmp _ x y | fcmp _ x y | store x y | insertValue x y _ | extractElement x y =>
    exact (h x).bind (h y).map
  | insertElement x y z | shuffle x y z | select x y z =>
    exact (h x).bind ((h y).bind (h z).map)
  | alloca _ count => exact (mapM_option h count).map
  | ret value => exact (mapM_option h value).map
  | call _ args => exact (hlist args).map
  | elementPtr base indices => exact (h base).bind (hlist indices).map
  | switch value _ cases =>
    have hkeys := mapM (fun c : ValueId × BlockId => (h c.1).map (f := fun k => (k, c.2))) cases
    rw [← List.map_eq_flatMap] at hkeys
    exact (h value).bind hkeys.map
  | phi incoming =>
    have hvalues := mapM (fun c : BlockId × ValueId => (h c.2).map (f := fun x => (c.1, x))) incoming
    rw [← List.map_eq_flatMap] at hvalues
    exact hvalues.map

end Tallies

/-! ### Reads of one value -/

namespace Module

/-- The value with every read of `old` turned into a read of `new`. -/
def replaceIn (old new : ValueId) (value : Value) : Value :=
  match value.kind with
  | .instruction i =>
    { value with kind := .instruction (i.mapOperands fun v => if v = old then new else v) }
  | _ => value

/-- Every read of one value by an instruction turned into a read of another one. -/
def replaced (m : Module) (old new : ValueId) : Module :=
  { m with
    values := m.values.map fun node => { node with content := replaceIn old new node.content } }

/-- Number of places in instructions that read a value. -/
def useCount (m : Module) (v : ValueId) : Nat :=
  (m.values.toList.flatMap fun node => match node.content.kind with
    | .instruction i => i.operands
    | _ => []).count v

theorem tallies_swap (old new v : ValueId) :
    Tallies old (swap old new v) (if v = old then new else v) [v] := by
  intro n
  unfold swap
  split
  · rename_i he
    rw [he, List.count_singleton_self]
    rfl
  · rename_i hne
    rw [List.count_singleton, if_neg (by simpa using hne)]
    rfl

theorem tallies_swapIn (old new : ValueId) (value : Value) :
    Tallies old (swapIn old new value) (replaceIn old new value) (match value.kind with
      | .instruction i => i.operands
      | _ => []) := by
  unfold swapIn replaceIn
  cases value.kind with
  | instruction i => exact (Tallies.operands (tallies_swap old new) i).map
  | _ => exact .pure _

/-- What is replaced is what was counted before. -/
theorem replaceAllUses_eq (old new : ValueId) : replaceAllUses old new = (do
    let m ← get
    unless m.typeOf old = m.typeOf new do
      throw (mismatch m (m.typeOf old) (m.typeOf new))
    modifyGet fun m => (m.useCount old, m.replaced old new)) := by
  have hnode (node : Node .value .block Value) :=
    (tallies_swapIn old new node.content).map (f := fun content => { node with content })
  have hvalues (m : Module) := Tallies.mapM_array hnode m.values 0
  unfold replaceAllUses
  simp only [hvalues, Nat.zero_add, useCount, replaced]

end Module
end SsaKit
