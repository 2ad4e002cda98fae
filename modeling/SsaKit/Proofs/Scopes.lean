import SsaKit.Proofs.Acceptance

/-! Programs of emissions in nested scopes. Whatever scopes a program opens, and wherever it fails,
the code of a block grows at each position by what was emitted there, in the order of time. -/
namespace SsaKit

open Attempt

/-- Calls that leave the cursor where it is and lists of instructions as they are, but for the
instruction that an emission adds. -/
def Call.isPlain : Call → Bool
  | setCursor _ | atInstruction _ | symbol (.removeFunction _) | layout (.removeBlock _)
  | layout (.appendInstruction _ _) | layout (.insertInstructionBefore _ _)
  | layout (.detachInstruction _) | layout (.eraseInstruction _) => false
  | _ => true

/-- The instruction that a call made. A cast to the same width hands back a value that was there. -/
def Call.made (m : Module) : Call → Except Error Reply → List ValueId
  | emission _, .ok (.value v) => if m.values.Has v then [] else [v]
  | _, _ => []

/-- A program of calls and scopes. What comes next may depend on the module and on every outcome, so
that a failure may be passed on or be ignored. -/
inductive Script : Type → Type 1 where
  | stop {α : Type} (r : Except Error α) : Script α
  | look {α : Type} (next : Module → Script α) : Script α
  | perform {α : Type} (c : Call) (next : Except Error Reply → Script α) : Script α
  | scope {α β : Type} (b : BlockId) (body : Script β) (next : Except Error β → Script α) : Script α

namespace Script

variable {α β : Type}

/-- A step whose outcome is handed to the rest, failure or not. -/
def andThen (step : Emit β) (next : Except Error β → Emit α) : Emit α :=
  ExceptT.mk fun s => (next (step.outcome s).1).outcome (step.outcome s).2

def run {α : Type} : Script α → Emit α
  | stop r => Attempt.ofExcept r
  | look next => Builder.readModule >>= fun m => (next m).run
  | perform c next => andThen c.perform fun r => (next r).run
  | scope b body next => andThen (Builder.build b body.run) fun r => (next r).run

/-- The builder at the start of a scope. -/
def enter (b : BlockId) (s : Builder) : Builder := { s with cursor := some { block := b } }

/-- Every call is plain, and every handle is one of the module when its turn comes. -/
def Valid {α : Type} : Script α → Builder → Prop
  | stop _, _ => True
  | look next, s => (next s.module).Valid s
  | perform c next, s => c.isPlain ∧ c.Valid s.module ∧
    (next (c.perform.outcome s).1).Valid (c.perform.outcome s).2
  | scope b body next, s => s.module.blocks.Has b ∧ body.Valid (enter b s) ∧
    (next ((Builder.build b body.run).outcome s).1).Valid ((Builder.build b body.run).outcome s).2

/-- The instructions that a program makes at a position, in the order of time. The program starts
at `here`, and the body of a scope at the end of the block that the scope names. -/
def emittedAt {α : Type} (q : Position) : Script α → Option Position → Builder → List ValueId
  | stop _, _, _ => []
  | look next, here, s => (next s.module).emittedAt q here s
  | perform c next, here, s =>
    (if here = some q then c.made s.module (c.perform.outcome s).1 else []) ++
      (next (c.perform.outcome s).1).emittedAt q here (c.perform.outcome s).2
  | scope b body next, here, s =>
    body.emittedAt q (some { block := b }) (enter b s) ++
      (next ((Builder.build b body.run).outcome s).1).emittedAt q here
        ((Builder.build b body.run).outcome s).2

instance decidableValid {α : Type} : (script : Script α) → (s : Builder) →
    Decidable (script.Valid s)
  | stop _, _ => .isTrue trivial
  | look next, s => decidableValid (next s.module) s
  | perform c next, s =>
    @instDecidableAnd _ _ _ (@instDecidableAnd _ _ _ (decidableValid (next (c.perform.outcome s).1) _))
  | scope b body next, s =>
    @instDecidableAnd _ _ _ (@instDecidableAnd _ _ (decidableValid body _)
      (decidableValid (next ((Builder.build b body.run).outcome s).1) _))

end Script

/-! ### Code that grows at positions -/

/-- Every list with what was put before each of its elements and behind them all. -/
def Order.grown (code : BlockId → List ValueId) (put : Position → List ValueId) (b : BlockId) :
    List ValueId :=
  (code b).flatMap (fun v => put ⟨b, some v⟩ ++ [v]) ++ put ⟨b, none⟩

namespace Order

variable {code : BlockId → List ValueId} {put more : Position → List ValueId} {b : BlockId}
  {l xs ys : List ValueId} {anchor v : ValueId}

theorem flatMap_nothing {put : ValueId → List ValueId} (h : ∀ v ∈ l, put v = []) :
    l.flatMap (fun v => put v ++ [v]) = l := by
  induction l with
  | nil => rfl
  | cons v l ih =>
    rw [List.flatMap_cons, h v (by simp), ih fun w hw => h w (by simp [hw])]
    rfl

theorem grown_nothing : grown code (fun _ => []) = code := by
  funext b
  simp [grown]

/-- Nothing goes before what was put there first, so that two phases are one. -/
theorem grown_grown (h : ∀ q, ∀ v ∈ put q, ∀ b, more ⟨b, some v⟩ = []) :
    grown (grown code put) more = grown code fun q => put q ++ more q := by
  funext b
  have kept (q : Position) : (put q).flatMap (fun v => more ⟨b, some v⟩ ++ [v]) = put q :=
    flatMap_nothing fun v hv => h q v hv b
  simp only [grown, List.flatMap_append, List.flatMap_assoc, kept, List.append_assoc,
    List.flatMap_cons, List.flatMap_nil, List.append_nil]

theorem grown_append : grown code (fun q => if some (Position.mk b none) = some q then [v] else []) =
    Function.update code b (code b ++ [v]) := by
  funext k
  by_cases hk : k = b
  · subst hk
    simp [grown]
  · simp [grown, hk, Ne.symm hk]

theorem grown_insert (hl : code b = xs ++ anchor :: ys) (hn : (code b).Nodup) :
    grown code (fun q => if some (Position.mk b (some anchor)) = some q then [v] else []) =
      Function.update code b (xs ++ v :: anchor :: ys) := by
  funext k
  by_cases hk : k = b
  · subst hk
    rw [hl] at hn
    have hx : anchor ∉ xs := fun hx => List.disjoint_of_nodup_append hn hx (by simp)
    have hy : anchor ∉ ys := (List.nodup_cons.mp (List.nodup_append.mp hn).2.1).1
    have apart {l : List ValueId} (h : anchor ∉ l) :
        l.flatMap (fun w => (if anchor = w then [v] else []) ++ [w]) = l :=
      flatMap_nothing fun w hw => if_neg fun (he : anchor = w) => h (he ▸ hw)
    simp [grown, hl, apart hx, apart hy]
  · simp [grown, hk, Ne.symm hk]

end Order

/-! ### One plain call -/

namespace Builder

variable {s s' : Builder} {o' : Order} {c : Call} {r : Reply} {v : ValueId}

/-- The anchor of the cursor, if it has one, is in the block of the cursor. -/
def Anchored (s : Builder) : Prop :=
  ∀ p ∈ s.cursor, ∀ a ∈ p.before, a ∈ s.module.instructions p.block

theorem perform_cursor (h : s.Sane) (hp : c.isPlain) (hc : c.Valid s.module) :
    (c.perform.outcome s).2.cursor = s.cursor := by
  refine Ends.state (P := fun t : Builder => t.cursor = s.cursor) ?_
  cases c with
  | setCursor p => simp [Call.isPlain] at hp
  | atInstruction v => simp [Call.isPlain] at hp
  | types c =>
    change Ends (onTypes c.run) s _ _
    rw [ends_onTypes]
    exact .of_forall (fun _ _ => rfl) fun _ => rfl
  | constant c =>
    simp only [Call.perform, ends_map, ends_onModule]
    exact .of_forall (fun _ _ => trivial) fun _ => trivial
  | symbol c =>
    simp only [Call.perform, ends_onModule]
    exact .of_forall (fun _ _ => trivial) fun _ => trivial
  | layout c =>
    simp only [Call.perform, ends_onModule]
    exact .of_forall (fun _ _ => trivial) fun _ => trivial
  | emission e =>
    simp only [Call.perform, ends_map]
    refine (emission_emits h.sound h.ordered hc).mono (fun v s' hv => ?_) fun s' hp => hp.1
    obtain ⟨rfl, -⟩ | he := hv
    · rfl
    · exact he.1

/-- What a call makes goes to the cursor, and nothing else happens to the code. -/
theorem Places.grown (h : s.Sane) (hp : s.Places s.module.order o' v) :
    o'.code = Order.grown s.module.order.code fun q => if s.cursor = some q then [v] else [] := by
  obtain ⟨-, ⟨b, before⟩, hcur, hplace⟩ := hp
  rw [hcur]
  cases before with
  | none =>
    obtain rfl := hplace
    exact Order.grown_append.symm
  | some anchor =>
    obtain ⟨hin, k, xs, ys, hl, rfl⟩ := hplace
    obtain rfl : b = k := Option.some_inj.mp
      ((h.ordered.blockOf?_eq_some.mpr hin).symm.trans
        (h.ordered.blockOf?_eq_some.mpr (by simp [hl])))
    exact (Order.grown_insert hl (h.ordered.code.holds b).nodup).symm

theorem Reorders.grown (h : s.Sane) (hp : c.isPlain) (hc : c.Valid s.module)
    (hr : c.Reorders s s.module.order o' r) :
    o'.code = Order.grown s.module.order.code
      fun q => if s.cursor = some q then c.made s.module (.ok r) else [] := by
  have same (hm : c.made s.module (.ok r) = []) (ho : o'.code = s.module.order.code) :
      o'.code = Order.grown s.module.order.code
        fun q => if s.cursor = some q then c.made s.module (.ok r) else [] := by
    simp only [hm, ite_self, Order.grown_nothing, ho]
  cases c with
  | setCursor p => simp [Call.isPlain] at hp
  | atInstruction v => simp [Call.isPlain] at hp
  | types c => exact same rfl (congrArg Order.code hr)
  | constant c => exact same rfl (congrArg Order.code hr)
  | symbol c =>
    refine same rfl ?_
    cases c with
    | removeFunction f => simp [Call.isPlain] at hp
    | _ => exact congrArg Order.code hr
  | layout c =>
    refine same rfl ?_
    cases c with
    | removeBlock | appendInstruction | insertInstructionBefore | detachInstruction
    | eraseInstruction => simp [Call.isPlain] at hp
    | setBlockName | replaceAllUses | addIncoming | removeIncoming => exact congrArg Order.code hr
    | appendBlock f name =>
      cases r with
      | block b =>
        cases b with
        | none => exact hr.elim
        | some b =>
          obtain rfl := hr
          rfl
      | _ => exact hr.elim
    | insertBlockBefore anchor name =>
      cases r with
      | block b =>
        cases b with
        | none => exact congrArg Order.code hr.2
        | some b =>
          obtain ⟨f, xs, ys, -, rfl⟩ := hr
          rfl
      | _ => exact hr.elim
  | emission e =>
    cases r with
    | value v =>
      change if e.kept? = some v then _ else _ at hr
      split at hr
      · rename_i hk
        have hv : s.module.values.Has v := hc.values v (by
          cases e <;> simp_all [Emission.kept?, Emission.values])
        exact same (by simp [Call.made, hv]) (congrArg Order.code hr)
      · simpa [Call.made, hr.1] using Places.grown h hr
    | _ => exact hr.elim

/-- One plain call, successful or not, grows the code at the cursor by what it made. -/
theorem perform_grown (h : s.Sane) (hp : c.isPlain) (hc : c.Valid s.module) :
    (c.perform.outcome s).2.Sane ∧ s.module.Extends (c.perform.outcome s).2.module ∧
      (c.perform.outcome s).2.module.instructions = Order.grown s.module.instructions
        fun q => if s.cursor = some q then c.made s.module (c.perform.outcome s).1 else [] := by
  have hends := perform_reorders h hc
  unfold Ends at hends
  split at hends
  · rename_i r t ho
    obtain ⟨o', hf, hr⟩ := hends
    have hcode := Reorders.grown h hp hc hr
    rw [← hf.ordered.order_eq] at hcode
    rw [ho]
    exact ⟨hf.sane h, hf.changed.extends, hcode⟩
  · rename_i e t ho
    have hcode := congrArg Order.code hends.ordered.order_eq
    have hmade : c.made s.module (.error e) = [] := by cases c <;> rfl
    rw [ho]
    refine ⟨hends.sane h, hends.changed.extends, ?_⟩
    simp only [hmade, ite_self, Order.grown_nothing]
    exact hcode

end Builder

/-! ### Whole programs -/

namespace Script

open Builder

variable {α β : Type} {s : Builder} {script : Script α} {here : Option Position} {q : Position}
  {v : ValueId} {b : BlockId}

/-- Only the cursor that a program starts at can stand before an instruction. -/
theorem emittedAt_before (h : here ≠ some ⟨b, some v⟩) :
    script.emittedAt ⟨b, some v⟩ here s = [] := by
  induction script generalizing here s with
  | stop r => rfl
  | look next ih => exact ih _ h
  | perform c next ih =>
    simp only [emittedAt, if_neg h, List.nil_append]
    exact ih _ h
  | scope k body next ihBody ihNext =>
    simp only [emittedAt, ihNext _ h, List.append_nil]
    exact ihBody (by simp)

/-- What a program leaves behind: the cursor as it was, and code that has grown at each position by
new instructions. -/
structure Leaves (s s' : Builder) (put : Position → List ValueId) : Prop where
  sane : s'.Sane
  extended : s.module.Extends s'.module
  cursor : s'.cursor = s.cursor
  fresh : ∀ q, ∀ v ∈ put q, ¬ s.module.values.Has v
  code : s'.module.instructions = Order.grown s.module.instructions put

variable {t s' : Builder} {put more : Position → List ValueId}

theorem Leaves.nothing (h : s.Sane) : Leaves s s fun _ => [] :=
  ⟨h, .refl _, rfl, by simp, Order.grown_nothing.symm⟩

theorem Leaves.anchored (h : Leaves s t put) (ha : s.Anchored) : t.Anchored := by
  intro p hp a hap
  rw [h.cursor] at hp
  rw [h.code]
  exact List.mem_append_left _ (List.mem_flatMap.mpr ⟨a, ha p hp a hap, by simp⟩)

/-- A program goes on after what is done. Its cursor is before no new instruction. -/
theorem Leaves.followed {next : Script α} (hs : s.Sane) (ha : s.Anchored) (h : Leaves s t put)
    (hn : Leaves t s' fun q => next.emittedAt q s.cursor t) :
    Leaves s s' fun q => put q ++ next.emittedAt q s.cursor t where
  sane := hn.sane
  extended := h.extended.trans hn.extended
  cursor := hn.cursor.trans h.cursor
  fresh q v hv := by
    obtain hv | hv := List.mem_append.mp hv
    · exact h.fresh q v hv
    · exact fun hold => hn.fresh q v hv (h.extended.has hold)
  code := by
    rw [hn.code, h.code]
    refine Order.grown_grown fun q v hv b => emittedAt_before fun hcur => ?_
    exact h.fresh q v hv ((hs.ordered.code.holds b).has v (ha _ hcur v rfl))

theorem Leaves.call {c : Call} (hs : s.Sane) (hp : c.isPlain) (hc : c.Valid s.module) :
    Leaves s (c.perform.outcome s).2
      fun q => if s.cursor = some q then c.made s.module (c.perform.outcome s).1 else [] := by
  obtain ⟨hsane, hext, hcode⟩ := perform_grown hs hp hc
  refine ⟨hsane, hext, perform_cursor hs hp hc, fun q v hv => ?_, hcode⟩
  unfold Call.made at hv
  grind

/-- Whatever the body did, the cursor is back where it was before the scope. -/
theorem Leaves.left {b : BlockId} (hs : s.Sane) (h : Leaves (enter b s) t put) :
    Leaves s { t with cursor := s.cursor } put where
  sane := ⟨h.sane.sound, h.sane.ordered, fun p hp => h.extended.blocks _ (hs.cursor p hp)⟩
  extended := h.extended
  cursor := rfl
  fresh := h.fresh
  code := h.code

/-- By induction on the program: each call grows the code at the cursor, each scope at the end of
its block. -/
theorem run_leaves (hs : s.Sane) (ha : s.Anchored) (hv : script.Valid s) :
    Leaves s (script.run.outcome s).2 fun q => script.emittedAt q s.cursor s := by
  induction script generalizing s with
  | stop r =>
    cases r
    · exact .nothing hs
    · exact .nothing hs
  | look next ih => exact ih _ hs ha hv
  | perform c next ih =>
    obtain ⟨hp, hc, hn⟩ := hv
    have hcall := Leaves.call hs hp hc
    have hnext := ih _ hcall.sane (hcall.anchored ha) hn
    rw [hcall.cursor] at hnext
    exact hcall.followed hs ha hnext
  | scope b body next ihBody ihNext =>
    obtain ⟨hb, hbody, hn⟩ := hv
    have hin : (enter b s).Sane := ⟨hs.sound, hs.ordered, by rintro p ⟨⟩; exact hb⟩
    have hout := (ihBody hin (by rintro p ⟨⟩ a ⟨⟩) hbody).left hs
    exact hout.followed hs ha (ihNext _ hout.sane (hout.anchored ha) hn)

/-- Emissions keep program order through nested scopes. Every scope puts the cursor back, whatever
its body does and however that ends. After a program of scopes and plain calls the cursor is where
it was, and the code of every block is what it was, with the instructions made at each position in
one piece at that position, in the order of time. -/
theorem emissions_keep_order {α : Type} (script : Script α) {s : Builder} (hs : s.Attained)
    (ha : s.Anchored) (hv : script.Valid s) :
    (∀ (β : Type) (b : BlockId) (body : Emit β) (t : Builder),
      ((Builder.build b body).outcome t).2.cursor = t.cursor) ∧
    (script.run.outcome s).2.cursor = s.cursor ∧
    ∀ b, (script.run.outcome s).2.module.instructions b =
      (s.module.instructions b).flatMap (fun v => script.emittedAt ⟨b, some v⟩ s.cursor s ++ [v]) ++
        script.emittedAt ⟨b, none⟩ s.cursor s := by
  obtain ⟨hhealthy, -, hcursor⟩ := hs.sturdy
  have hleaves := run_leaves ⟨hhealthy.sound, hhealthy.ordered, hcursor⟩ ha hv
  exact ⟨fun _ _ _ _ => rfl, hleaves.cursor, fun b => congrFun hleaves.code b⟩

/-- Emissions before an instruction and at the ends of two blocks. The innermost scope fails in the
middle, and the scope around it goes on. -/
def interleaved : Script Unit :=
  perform (.emission (.binary .add ⟨0⟩ ⟨0⟩)) fun _ =>
  scope ⟨1⟩
    (perform (.emission (.neg ⟨0⟩)) fun _ =>
      scope ⟨0⟩
        (perform (.emission (.not ⟨0⟩)) fun _ => perform (.emission (.load ⟨0⟩)) fun
          | .ok _ => perform (.emission .unreachable) fun _ => stop (.ok ())
          | .error e => stop (.error e))
        fun _ => scope ⟨1⟩ (perform (.emission (.not ⟨0⟩)) fun _ => stop (.ok ())) stop)
    fun _ => perform (.emission (.binary .sub ⟨0⟩ ⟨0⟩)) fun _ => stop (.ok ())

/-- The scaling program with the cursor before its multiplication. -/
def standing : Builder := Builder.replay scaled [.atInstruction ⟨6⟩]

theorem emissions_keep_order_interleaved :
    standing.Attained ∧ standing.Anchored ∧ interleaved.Valid standing ∧
      standing.cursor = some ⟨⟨1⟩, some ⟨6⟩⟩ ∧
      standing.module.instructions ⟨1⟩ = [⟨5⟩, ⟨6⟩, ⟨7⟩] ∧
      (interleaved.run.outcome standing).2.cursor = standing.cursor ∧
      (interleaved.run.outcome standing).2.module.instructions ⟨1⟩ =
        [⟨5⟩, ⟨8⟩, ⟨15⟩, ⟨6⟩, ⟨7⟩, ⟨10⟩, ⟨14⟩] := by
  have hs : standing.Attained :=
    (Replays.reachable (by decide +kernel) reachable_scaled).attained
  have hcur : standing.cursor = some ⟨⟨1⟩, some ⟨6⟩⟩ := by decide +kernel
  have hcode : standing.module.instructions ⟨1⟩ = [⟨5⟩, ⟨6⟩, ⟨7⟩] := by decide +kernel
  have ha : standing.Anchored := by
    rintro p hp a ha
    obtain rfl := Option.some_inj.mp (hcur.symm.trans hp)
    obtain rfl := Option.some_inj.mp ha
    rw [hcode]
    simp
  have hv : interleaved.Valid standing := by decide +kernel
  obtain ⟨-, hback, hgrown⟩ := interleaved.emissions_keep_order hs ha hv
  exact ⟨hs, ha, hv, hcur, hcode, hback, (hgrown ⟨1⟩).trans (by decide +kernel)⟩

end Script

end SsaKit
