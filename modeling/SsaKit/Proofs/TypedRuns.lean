import SsaKit.Proofs.DeadCode
import SsaKit.Proofs.TypeSoundness
import SsaKit.Proofs.TypedEvaluation

/-! Typed memory: a load gives a value of the shape of its type, at every point that a run comes
by. -/
namespace SsaKit

namespace Setting

open Run SsaKit.Module

variable {e : Setting} {o : Order} {p q : Point} {f g : FunctionId} {b : BlockId} {v : ValueId}
  {frame : Frame} {s t : Machine} {levels : Nat} {previous : Option BlockId} {args : List Box}
  {rows : List TypeId}

/-- A run makes an allocation for data of a type on its stack. -/
def Makes (e : Setting) (f : FunctionId) (args : List Box) (n : Nat) (type : TypeId) : Prop :=
  ∃ p v count s target t, e.Visits f args p ∧ e.Executes p v (.alloca type count) s ∧
    (e.evaluate (e.call p.levels) p.frame (e.module.typeOf v) (.alloca type count)).run.run s =
      (.ok (.pointer (some target)), t) ∧ target.allocation = n

/-- What keeps memory typed in a run, apart from the module's own well-formedness: no bits of
pointers are taken for pointers of another type, the host hands in no address, and no step leads
from a field of a struct to one of another type. -/
structure Heeds (e : Setting) (f : FunctionId) (args : List Box) : Prop where
  casts : ∀ v w, e.module.instruction? v = some (.cast .bitcast w) →
    ¬(e.module.types.Lanes (·.kind = .pointer) (e.module.typeOf w) ∧
      e.module.types.Lanes (·.kind = .pointer) (e.module.typeOf v))
  host : ∀ name boxes r, e.host.call name boxes = .ok r → r.isPointer = false
  steps : ∀ p, e.Visits f args p → ∀ v base first rest s,
    e.Executes p v (.elementPtr base (first :: rest)) s →
    ¬ e.Strays (e.module.Allots (e.Makes f args) s) p.frame s base first

/-- A point in its place, on a typed machine and with a typed frame. -/
structure TypedAt (e : Setting) (made : Nat → TypeId → Prop) (rows : List TypeId) (p : Point) :
    Prop where
  fits : e.Fits p
  stores : e.module.Stores made rows p.machine
  holds : e.module.Holds rows p.frame

/-- Arguments of the types of the parameters. -/
def Hands (e : Setting) (rows : List TypeId) (f : FunctionId) (data : List Datum) : Prop :=
  ∀ x ∈ (e.module.params f).zip data, e.module.types.Typed rows (e.module.typeOf x.1) x.2

/-- Calls with a number of levels below them keep machines typed, as parts of a run. -/
def CallsType (e : Setting) (f : FunctionId) (args : List Box) (levels : Nat) : Prop :=
  ∀ g data s rows, e.module.isRemoved g = false → e.Hands rows g data →
    e.module.Stores (e.Makes f args) rows s →
    (∀ p, e.Begins levels g data s p → e.Visits f args p) →
    Yields e.module (e.Makes f args) rows s (e.call levels g data)
      fun rows d => e.module.types.Typed rows (e.module.resultType g) d

namespace Hands

variable {data : List Datum}

theorem passes (h : e.Hands rows g data) : e.Passes g data := fun x hx => (h x hx).shape

/-- The frame that a call starts with. -/
theorem holds (h : e.Hands rows g data) :
    e.module.Holds rows (.ofList ((e.module.params g).zip data)) :=
  Frame.forall_ofList (P := fun v => e.module.types.Typed rows (e.module.typeOf v)) h

end Hands

/-! ### One instruction -/

theorem ticked {made : Nat → TypeId → Prop} (h : e.module.Stores made rows s)
    (hx : (tick e.limits.steps).run.run s = (.ok (), t)) : e.module.Stores made rows t := by
  rw [tick_run] at hx
  obtain ⟨-, rfl⟩ := Prod.mk.inj hx
  exact h.counted _ _

theorem yields_tick {α : Type} {made : Nat → TypeId → Prop} {next : Unit → Run α}
    {ok : List TypeId → α → Prop} (h : e.module.Stores made rows s)
    (hn : ∀ t, (tick e.limits.steps).run.run s = (.ok (), t) → e.module.Stores made rows t →
      Yields e.module made rows t (next ()) ok) :
    Yields e.module made rows s (tick e.limits.steps >>= next) ok := by
  intro a u hr
  obtain ⟨_, t, ht, hr⟩ := run_bind_eq_ok hr
  exact hn t ht (ticked h ht) a u hr

/-- What a call hands over has the types of the parameters, and its result the type of the call. -/
theorem operands_typed {made : Nat → TypeId → Prop} {ws : List ValueId} (hs : e.module.Sound)
    (h : e.module.Stores made rows s) (hf : e.module.Holds rows frame)
    (hi : e.module.instruction? v = some (.call g ws)) :
    e.module.typeOf v = e.module.resultType g ∧
      Yields e.module made rows s (ws.mapM (e.operand frame)) fun rows => e.Hands rows g := by
  obtain ⟨htype, types, hparams, hargs⟩ := call_types hs hi
  have hoperands : Yields e.module made rows s (ws.mapM (e.operand frame))
      fun rows => List.Forall₂ (fun w d => e.module.types.Typed rows (e.module.typeOf w) d) ws :=
    yields_mapM h (fun _ _ _ _ hr hd => hd.mono hr) fun rows' t hr ht w hw =>
      operand_typed hs ht (hf.mono hr) (hs.operands_has hi w hw)
  exact ⟨htype, hoperands.mono fun rows' data _ hdata => passes_of hparams hargs hdata⟩

section

variable (hm : e.module.Certified o) (hd : e.module.Derived) (hh : e.Heeds f args)
include hm hd hh

/-- The instruction at a point keeps the machine typed and has a typed result. -/
theorem executes_typed {i : Instruction} (hk : e.CallsType f args p.levels)
    (hp : e.TypedAt (e.Makes f args) rows p) (hv : e.Visits f args p) (hx : e.Executes p v i s) :
    Yields e.module (e.Makes f args) rows s
      (e.evaluate (e.call p.levels) p.frame (e.module.typeOf v) i)
      fun rows d => e.module.types.Typed rows (e.module.typeOf v) d := by
  have hs := ticked hp.stores hx.2.2
  have hi := hx.2.1
  by_cases hcall : ∃ g ws, i = .call g ws
  · obtain ⟨g, ws, rfl⟩ := hcall
    obtain ⟨-, -, hcallee⟩ := hp.fits.head hx
    obtain ⟨htype, hoperands⟩ := operands_typed hm.sound hs hp.holds hi
    refine yields_bind hoperands fun rows' data t hr ht hdata hrun => ?_
    rw [htype]
    exact hk g data t rows' (hcallee g ws rfl) hdata ht fun q hq => hv.leads (.enter hx hrun hq)
  · refine evaluate_typed hm.sound hd hs hp.holds hi (fun g ws he => hcall ⟨g, ws, he⟩) ?_ ?_ ?_
    · rintro w rfl
      exact hh.casts v w hi
    · rintro type count rfl target t hr
      exact ⟨p, v, count, s, target, t, hv, hx, hr, rfl⟩
    · rintro base first rest rfl
      exact hh.steps p hv v base first rest s hx

end

/-- Behind an instruction with a typed result everything is as before. -/
theorem TypedAt.next {made : Nat → TypeId → Prop} {rows' : List TypeId} {rest : List ValueId}
    {i : Instruction} {d : Datum} (hp : e.TypedAt made rows p) (hl : p.pending = v :: rest)
    (hi : e.module.instruction? v = some i) (ht : i.isTerminator = false) (hphi : i.isPhi = false)
    (hr : rows <+: rows') (hs : e.module.Stores made rows' t)
    (hd : e.module.types.Typed rows' (e.module.typeOf v) d) :
    e.TypedAt made rows'
      { p with pending := p.pending.tail, frame := p.frame.insert v d, machine := t } :=
  ⟨hp.fits.next hl hi ht hphi hd.shape, hs, (hp.holds.mono hr).insert hd⟩

/-! ### One block -/

/-- How a block may be left: with a result of the function, or with a typed frame. -/
def LeavesTyped (e : Setting) (f : FunctionId) (rows : List TypeId) : Flow → Prop
  | .done d => e.module.types.Typed rows (e.module.resultType f) d
  | .jump _ frame => e.module.Holds rows frame

theorem switchTarget_typed {made : Nat → TypeId → Prop} {word : UInt64} {default : BlockId}
    {cases : List (ValueId × BlockId)} (hs : e.module.Sound) (h : e.module.Stores made rows s)
    (hf : e.module.Holds rows frame) (hcases : ∀ c ∈ cases, e.module.values.Has c.1) :
    Yields e.module made rows s (e.switchTarget frame word default cases) fun _ _ => True := by
  induction cases generalizing rows s with
  | nil => exact yields_pure h trivial
  | cons c cases ih =>
    obtain ⟨key, dest⟩ := c
    obtain ⟨hkey, hcases⟩ := List.forall_mem_cons.mp hcases
    unfold switchTarget
    refine yields_bind (wordOperand_typed hs h hf hkey) fun rows' w t hr ht _ _ => ?_
    split
    · exact yields_pure ht trivial
    · exact ih ht (hf.mono hr) hcases

section

variable (hm : e.module.Certified o) (hd : e.module.Derived) (hh : e.Heeds f args)
include hm hd hh

theorem runInstructions_typed (hk : e.CallsType f args p.levels)
    (hp : e.TypedAt (e.Makes f args) rows p) (hv : e.Visits f args p) :
    Yields e.module (e.Makes f args) rows p.machine
      (e.runInstructions (e.call p.levels) p.function p.block p.pending p.frame)
      (e.LeavesTyped p.function) := by
  induction hl : p.pending generalizing p rows with
  | nil => exact yields_throw _
  | cons v rest ih =>
    have hin : v ∈ p.pending := by simp [hl]
    obtain ⟨last, -, hplaced, -⟩ := hp.fits.placed
    rw [hl] at hplaced
    cases hplaced with
    | @cons _ _ i _ hi _ =>
      have hhas := hm.sound.operands_has hi.instruction
      rw [runInstructions]
      refine yields_tick hp.stores fun s hrun hs => ?_
      have hx : e.Executes p v i s := ⟨by simp [hl], hi.instruction, hrun⟩
      have go (ht : i.isTerminator = false) (hphi : i.isPhi = false) :
          Yields e.module (e.Makes f args) rows s (do
            let d ← e.evaluate (e.call p.levels) p.frame (e.module.typeOf v) i
            e.runInstructions (e.call p.levels) p.function p.block rest (p.frame.insert v d))
            (e.LeavesTyped p.function) := by
        refine yields_bind (executes_typed hm hd hh hk hp hv hx)
          fun rows' d t hr ht' hd' hrun' => ?_
        let next : Point :=
          { p with pending := p.pending.tail, frame := p.frame.insert v d, machine := t }
        exact @ih next rows' hk (hp.next hl hi.instruction ht hphi hr ht' hd')
          (hv.leads (.next hx hrun')) (by simp [next, hl])
      rw [hi.instruction]
      cases i with
      | branch dest => exact yields_pure hs hp.holds
      | condBranch cond thenDest elseDest =>
        have hcond := hhas cond (by simp [Instruction.operands])
        refine yields_bind (operand_typed hm.sound hs hp.holds hcond) fun rows₂ d t hr₂ ht _ _ => ?_
        exact yields_bind_ofExcept d.asBool_plainly fun _ _ => yields_pure ht (hp.holds.mono hr₂)
      | switch value default cases =>
        have hvalue := hhas value (by simp [Instruction.operands])
        have hcases : ∀ c ∈ cases, e.module.values.Has c.1 := fun c hc => hhas c.1 (by
          rw [Instruction.operands]
          exact List.mem_cons_of_mem _ (List.mem_map_of_mem hc))
        refine yields_bind (wordOperand_typed hm.sound hs hp.holds hvalue)
          fun rows₂ word t hr₂ ht _ _ => ?_
        refine yields_bind (switchTarget_typed hm.sound ht (hp.holds.mono hr₂) hcases)
          fun rows₃ dest u hr₃ hu _ _ => yields_pure hu ((hp.holds.mono hr₂).mono hr₃)
      | ret value =>
        have hfits := returned_shaped hm hp.fits hin hi.instruction
        cases value with
        | none => exact yields_pure hs hfits.2
        | some value =>
          have hvalue := hhas value (by simp [Instruction.operands])
          have htype : e.module.typeOf value = e.module.resultType p.function := hfits
          refine yields_bind (operand_typed hm.sound hs hp.holds hvalue)
            fun rows₂ d t _ ht hd _ => yields_pure ht ?_
          rw [htype] at hd
          exact hd
      | unreachable => exact yields_throw _
      | phi incoming => exact yields_throw _
      | _ => exact go rfl rfl

end

theorem readPhis_typed {made : Nat → TypeId → Prop} (hs : e.module.Sound)
    (h : e.module.Stores made rows s) (hf : e.module.Holds rows frame) (l : List ValueId) :
    Yields e.module made rows s (e.readPhis f b previous frame l)
      fun rows r => ∀ x ∈ r.1, e.module.types.Typed rows (e.module.typeOf x.1) x.2 := by
  induction l generalizing rows s with
  | nil => exact yields_pure h (by simp)
  | cons v l ih =>
    by_cases hphi : ∃ incoming, e.module.instruction? v = some (.phi incoming)
    · obtain ⟨incoming, hi⟩ := hphi
      have hread : Yields e.module made rows s (e.readPhi f b previous frame v incoming)
          fun rows x => e.module.types.Typed rows (e.module.typeOf x.1) x.2 := by
        unfold readPhi
        split
        · exact yields_throw _
        · rename_i source
          cases hl : incoming.lookup source with
          | none => exact yields_throw _
          | some value =>
            obtain ⟨hhas, htype⟩ := hs.lookup_incoming hi hl
            refine yields_bind (operand_typed hs h hf hhas) fun rows' d t _ ht hd _ =>
              yields_pure ht ?_
            rw [htype] at hd
            exact hd
      rw [readPhis_phi e hi]
      refine yields_bind hread fun rows₁ x t hr₁ ht hx _ => ?_
      refine yields_bind (ih ht (hf.mono hr₁)) fun rows₂ r u hr₂ hu hr _ => ?_
      exact yields_pure hu (List.forall_mem_cons.mpr ⟨hx.mono hr₂, hr⟩)
    · rw [readPhis_stop e (head_not_phi hphi)]
      exact yields_pure h (by simp)

/-- A block that control comes to with a typed frame goes on typed behind its phis. -/
theorem Admits.typedAt {made : Nat → TypeId → Prop} (h : e.Admits f previous b frame)
    (hm : e.module.Certified o) (hs : e.module.Stores made rows s)
    (hf : e.module.Holds rows frame) (he : e.Enters levels f previous b frame s p) :
    ∃ rows', rows <+: rows' ∧ e.TypedAt made rows' p := by
  have hfits := h.fits hm he
  obtain ⟨merged, rest, t, hr, rfl⟩ := he
  obtain ⟨rows', hx, ht, hmerged⟩ := readPhis_typed hm.sound hs hf _ _ t hr
  exact ⟨rows', hx, hfits, ht, (hf.mono hx).insertMany hmerged⟩

section

variable (hm : e.module.Certified o) (hd : e.module.Derived) (hh : e.Heeds f args)
include hm hd hh

/-- A block keeps machines typed, up to its result or to the next block. -/
theorem runBlock_typed {flow : Flow} (hk : e.CallsType f args levels)
    (ha : e.Admits g previous b frame) (hs : e.module.Stores (e.Makes f args) rows s)
    (hf : e.module.Holds rows frame)
    (hv : ∀ p, e.Enters levels g previous b frame s p → e.Visits f args p)
    (hr : (e.runBlock (e.call levels) g previous b frame).run.run s = (.ok flow, t)) :
    ∃ rows', rows <+: rows' ∧ e.module.Stores (e.Makes f args) rows' t ∧
      e.LeavesTyped g rows' flow ∧ ∀ dest frame', flow = .jump dest frame' →
        e.Admits g (some b) dest frame' ∧
          ∀ q, e.Enters levels g (some b) dest frame' t q → e.Visits f args q := by
  obtain ⟨rest, frame', s', henters, hrun⟩ := enters_of_runBlock hr
  have hvisits := hv _ henters
  obtain ⟨rows₁, hr₁, hp⟩ := ha.typedAt hm hs hf henters
  obtain ⟨rows₂, hr₂, ht, hflow⟩ := runInstructions_typed hm hd hh hk hp hvisits flow t hrun
  refine ⟨rows₂, hr₁.trans hr₂, ht, hflow, ?_⟩
  rintro dest frame'' rfl
  have hholds : e.module.Holds rows₂ frame'' := hflow
  exact ⟨hp.fits.admits hm hholds.shapes hrun, fun q hq => hvisits.leads (.jump hrun hq)⟩

/-- From an entered block on the body of a function keeps machines typed. -/
theorem runBlocks_typed {fuel : Nat} (hk : e.CallsType f args levels)
    (ha : e.Admits g previous b frame) (hs : e.module.Stores (e.Makes f args) rows s)
    (hf : e.module.Holds rows frame)
    (hv : ∀ p, e.Enters levels g previous b frame s p → e.Visits f args p) :
    Yields e.module (e.Makes f args) rows s (e.runBlocks (e.call levels) g fuel previous b frame)
      fun rows d => e.module.types.Typed rows (e.module.resultType g) d := by
  induction fuel generalizing previous b frame s rows with
  | zero =>
    intro d u hr
    rw [runBlocks_eq] at hr
    obtain ⟨flow, t, hblock, hr⟩ := run_bind_eq_ok hr
    obtain ⟨rows₁, hr₁, ht, hflow, -⟩ := runBlock_typed hm hd hh hk ha hs hf hv hblock
    cases flow with
    | done result =>
      cases hr
      exact ⟨rows₁, hr₁, ht, hflow⟩
    | jump dest frame' => cases hr
  | succ fuel ih =>
    intro d u hr
    rw [runBlocks_eq] at hr
    obtain ⟨flow, t, hblock, hr⟩ := run_bind_eq_ok hr
    obtain ⟨rows₁, hr₁, ht, hflow, hjump⟩ := runBlock_typed hm hd hh hk ha hs hf hv hblock
    cases flow with
    | done result =>
      cases hr
      exact ⟨rows₁, hr₁, ht, hflow⟩
    | jump dest frame' =>
      obtain ⟨hadmits, hvisits⟩ := hjump dest frame' rfl
      obtain ⟨rows₂, hr₂, hu, hresult⟩ := ih hadmits ht hflow hvisits d u hr
      exact ⟨rows₂, hr₁.trans hr₂, hu, hresult⟩

omit hm hd in
theorem callHost_typed (g : FunctionId) (data : List Datum) :
    Fault.Ends (e.callHost g data) (e.module.types.Typed rows (e.module.resultType g))
      fun _ => True := by
  cases hr : e.callHost g data with
  | error fault => trivial
  | ok d =>
    obtain ⟨boxes, r, -, hcall, hunbox⟩ := callHost_eq_ok hr
    have hplain := hasPointer_unboxAs hunbox (hh.host _ _ _ hcall)
    exact .of_shape (unboxAs_shaped hunbox) (.refl hplain)

theorem call_typed {data : List Datum} (hk : ∀ below, levels = below + 1 → e.CallsType f args below)
    (hr : e.module.isRemoved g = false) (hdata : e.Hands rows g data)
    (hs : e.module.Stores (e.Makes f args) rows s)
    (hv : ∀ p, e.Begins levels g data s p → e.Visits f args p) :
    Yields e.module (e.Makes f args) rows s (e.call levels g data)
      fun rows d => e.module.types.Typed rows (e.module.resultType g) d := by
  intro d t ht
  obtain ⟨-, ⟨-, hhost, rfl⟩ | ⟨hdeclared, hdepth, below, rfl, hrun⟩⟩ := call_eq_ok ht
  · exact yields_ofExcept hs (callHost_typed hh g data) d t (by rw [hhost]; rfl)
  · rw [nested_run] at hrun
    obtain ⟨hok, rfl⟩ := Prod.mk.inj hrun
    have hbody : Yields e.module (e.Makes f args) rows { s with depth := s.depth + 1 }
        (e.execute (e.call below) g data)
        fun rows d => e.module.types.Typed rows (e.module.resultType g) d := by
      unfold execute
      cases hentry : e.module.entry? g with
      | none => exact yields_throw _
      | some entry =>
        refine runBlocks_typed hm hd hh (hk below rfl)
          (admits_entry hm hr hdeclared hentry hdata.passes) (hs.counted _ _) hdata.holds
          fun p hp => ?_
        exact hv p ⟨hr, hdeclared, hdepth, below, entry, rfl, hentry, hp⟩
    obtain ⟨rows', hrows, hu, hresult⟩ := hbody d _ (Prod.ext hok rfl)
    exact ⟨rows', hrows, hu.releaseFrom _ _, hresult⟩

/-- Every call in a run keeps the machine typed. -/
theorem calls_typed (levels : Nat) : e.CallsType f args levels := by
  induction levels with
  | zero =>
    exact fun g data s rows hr hdata hs hv =>
      call_typed hm hd hh (fun below hb => by omega) hr hdata hs hv
  | succ levels ih =>
    intro g data s rows hr hdata hs hv
    refine call_typed hm hd hh (fun below hb => ?_) hr hdata hs hv
    obtain rfl : levels = below := by omega
    exact ih

/-! ### All points of a run -/

omit hd hh in
theorem typedAt_of_begins {made : Nat → TypeId → Prop} {data : List Datum}
    (hdata : e.Hands rows g data) (hs : e.module.Stores made rows s)
    (h : e.Begins levels g data s p) : ∃ rows', e.TypedAt made rows' p := by
  obtain ⟨hr, hdeclared, -, below, entry, -, hentry, henters⟩ := h
  obtain ⟨rows', -, hp⟩ := (admits_entry hm hr hdeclared hentry hdata.passes).typedAt hm
    (hs.counted s.steps (s.depth + 1)) hdata.holds henters
  exact ⟨rows', hp⟩

/-- Every step of a run leads from a typed point to a typed one. -/
theorem TypedAt.leads (hp : e.TypedAt (e.Makes f args) rows p) (hv : e.Visits f args p)
    (h : e.Leads p q) : ∃ rows', e.TypedAt (e.Makes f args) rows' q := by
  have hk := calls_typed hm hd hh p.levels
  cases h with
  | next hx hr =>
    obtain ⟨rest, hl, -⟩ := hp.fits.head hx
    obtain ⟨ht, hphi⟩ := middle_of_evaluate hr
    obtain ⟨rows', hrows, hs, hresult⟩ := executes_typed hm hd hh hk hp hv hx _ _ hr
    exact ⟨rows', hp.next hl hx.2.1 ht hphi hrows hs hresult⟩
  | jump hr henters =>
    obtain ⟨rows₁, -, hs, hflow⟩ := runInstructions_typed hm hd hh hk hp hv _ _ hr
    obtain ⟨rows₂, -, hq⟩ := (hp.fits.admits hm (Holds.shapes hflow) hr).typedAt hm hs hflow henters
    exact ⟨rows₂, hq⟩
  | @enter _ v g ws data s t hx hr hbegins =>
    obtain ⟨-, hoperands⟩ := operands_typed hm.sound (ticked hp.stores hx.2.2) hp.holds hx.2.1
    obtain ⟨rows', -, ht, hdata⟩ := hoperands data t hr
    exact typedAt_of_begins hm hdata ht hbegins

/-- Every point that a run comes by is typed. -/
theorem TypedAt.of_visits (hargs : ∀ x ∈ args, x.isPointer = false) (h : e.Visits f args p) :
    ∃ rows, e.TypedAt (e.Makes f args) rows p := by
  obtain ⟨htakes, data, start, hdata, hbegins, hreaches⟩ := h
  have hpass := arguments_pass hm.sound f args
  rw [hdata] at hpass
  have hplain := hasPointer_of_arguments hdata hargs
  have hhands : e.Hands [] f data := fun x hx =>
    .of_shape (hpass x hx) (.refl (hplain x.2 (List.of_mem_zip hx).2))
  have hreached : ∀ q, Relation.ReflTransGen e.Leads start q → e.Visits f args q :=
    fun q hq => ⟨htakes, data, start, hdata, hbegins, hq⟩
  induction hreaches with
  | refl => exact typedAt_of_begins hm hhands (Stores.start _) hbegins
  | tail hpq hl ih =>
    obtain ⟨rows, hq⟩ := ih
    exact hq.leads hm hd hh (hreached _ hpq) hl

end

/-- What stops a load is reported as an error of execution, if it is reported. -/
theorem load_stops {callee : FunctionId → List Datum → Run Datum} {type : TypeId} (ptr : ValueId) :
    Ends (e.evaluate callee frame type (.load ptr)) (fun _ => True) Fault.OfExecution := by
  unfold evaluate
  refine ends_bind ((e.operand_tamely frame ptr).mono (fun _ h => h) fun _ he => he.2.2)
    fun d _ => ?_
  have hpointer : Fault.Ends d.asPointer (fun _ => True) Fault.OfExecution := by
    cases d <;> trivial
  refine ends_bind (ends_ofExcept hpointer) fun target _ => ?_
  exact (load_physically target).mono (fun _ h => h) fun _ he => he.1.2.2

end Setting

open Setting in
/-- Typed memory. In a module that was assembled without linking old instructions anew and passes
verification, every load gives a value of the shape of its type, or fails, and then what is reported
is an error of execution. -/
theorem Module.Assembled.loads_shaped {m : Module} (h : m.Assembled) (hv : m.verify = .ok ())
    (host : Host) (limits : Limits) (f : FunctionId) (args : List Box)
    (hargs : ∀ x ∈ args, x.isPointer = false)
    (hh : (⟨m, host, limits⟩ : Setting).Heeds f args) :
    let e : Setting := ⟨m, host, limits⟩
    ∀ p, e.Visits f args p → ∀ v ptr s, e.Executes p v (.load ptr) s →
      Fault.Ends ((e.evaluate (e.call p.levels) p.frame (m.typeOf v) (.load ptr)).run.run s).1
        (m.types.Shape (m.typeOf v)) Fault.OfExecution := by
  intro e p hp v ptr s hx
  have hm : e.module.Certified m.order := h.built.certified hv
  obtain ⟨rows, htyped⟩ := TypedAt.of_visits hm h.derived hh hargs hp
  have hresult := executes_typed hm h.derived hh (calls_typed hm h.derived hh p.levels) htyped hp hx
  have hstops : Fault.Ends
      ((e.evaluate (e.call p.levels) p.frame (m.typeOf v) (.load ptr)).run.run s).1 (fun _ => True)
      Fault.OfExecution := load_stops ptr s
  rcases hr : (e.evaluate (e.call p.levels) p.frame (m.typeOf v) (.load ptr)).run.run s with
    ⟨fault | d, t⟩
  · rw [hr] at hstops
    exact hstops
  · obtain ⟨rows', -, -, hd⟩ := hresult d t hr
    exact hd.shape

/-- A new part rewires nothing. -/
theorem Call.rewires_of_constructs {c : Call} (h : c.constructs) : c.rewires = false := by
  cases c with
  | layout c => cases c <;> first | rfl | cases h
  | _ => rfl

/-- The builder behind a list of calls on an empty module. -/
def assembly (name : String) (calls : List Call) : Builder :=
  Builder.replay { module := { name } } calls

theorem assembled_of_constructs {name : String} {calls : List Call}
    (h : Builder.Replays { module := { name } } calls) (hc : ∀ c ∈ calls, c.constructs) :
    (assembly name calls).module.Assembled :=
  ⟨_, h.assembled (fun c hmem => Call.rewires_of_constructs (hc c hmem))
    (Builder.assembled_empty name)⟩

/-- A program that writes and reads one number of an array inside a struct. -/
def nesting : List Call :=
  [.types (.ofType (.int 32)),
    .types (.ofType .double),
    .types (.ofType (.array ⟨1⟩ 2)),
    .types (.ofType (.struct none (some [⟨0⟩, ⟨2⟩]) false)),
    .constant (.integer ⟨0⟩ 0),
    .constant (.integer ⟨0⟩ 1),
    .constant (.float ⟨1⟩ ⟨0x3ff0000000000000⟩),
    .symbol (.declareFunction "main" ⟨1⟩ [] false),
    .layout (.appendBlock ⟨0⟩ "entry"),
    .setCursor (some { block := ⟨0⟩ }),
    .emission (.alloca ⟨3⟩),
    .emission (.structPtr ⟨3⟩ 1),
    .emission (.elementPtr ⟨6⟩ [⟨0⟩, ⟨1⟩]),
    .emission (.store ⟨2⟩ ⟨7⟩),
    .emission (.load ⟨7⟩),
    .emission (.ret ⟨9⟩)]

theorem nesting_loads :
    (⟨(assembly "nesting" nesting).module, .standard, {}⟩ : Setting).resultAfter ⟨0⟩ [] 4 =
      some (⟨9⟩, .load ⟨7⟩, .double ⟨0x3ff0000000000000⟩) := by
  decide +kernel

theorem nesting_assembled : (assembly "nesting" nesting).module.Assembled :=
  assembled_of_constructs (by decide +kernel) (by decide)

/-- Nothing can put memory out of order in a module that casts no pointer and in which every first
index is zero. -/
theorem Setting.heeds_of_forall {m : Module} (hs : m.Sound)
    (hcasts : ∀ n < m.values.size, ∀ i ∈ m.instruction? ⟨n⟩, i.opcode ≠ "bitcast")
    (hsteps : ∀ n < m.values.size, ∀ i ∈ m.instruction? ⟨n⟩, ∀ first ∈ i.operands[1]?,
      i.opcode = "getelementptr" → m.constWord? first = some 0)
    (limits : Limits) (f : FunctionId) (args : List Box) :
    (⟨m, .standard, limits⟩ : Setting).Heeds f args where
  casts _ _ hi := (Module.forall_instruction? (P := fun _ i => i.opcode ≠ "bitcast") hcasts hi
    rfl).elim
  host _ _ _ := Host.isPointer_of_standard
  steps _ _ _ _ first _ _ hx := not_strays_of_zero hs
    (Module.forall_instruction? (P := fun _ i => ∀ first ∈ i.operands[1]?,
      i.opcode = "getelementptr" → m.constWord? first = some 0) hsteps hx.2.1 first rfl rfl)

theorem nesting_heeds (limits : Limits) :
    (⟨(assembly "nesting" nesting).module, .standard, limits⟩ : Setting).Heeds ⟨0⟩ [] :=
  Setting.heeds_of_forall nesting_assembled.built.reachable.sound (by decide +kernel)
    (by decide +kernel) limits ⟨0⟩ []

open Setting in
/-- The number inside the struct is read, with the shape of its type. -/
theorem nesting_loads_shaped :
    let e : Setting := { module := (assembly "nesting" nesting).module }
    (∃ p s, e.Visits ⟨0⟩ [] p ∧ e.Executes p ⟨9⟩ (.load ⟨7⟩) s) ∧
      ∀ p, e.Visits ⟨0⟩ [] p → ∀ v ptr s, e.Executes p v (.load ptr) s →
        Fault.Ends
          ((e.evaluate (e.call p.levels) p.frame (e.module.typeOf v) (.load ptr)).run.run s).1
          (e.module.types.Shape (e.module.typeOf v)) Fault.OfExecution := by
  have hassembled := nesting_assembled
  have hverified : (assembly "nesting" nesting).module.verify = .ok () := by decide +kernel
  have hheeds := nesting_heeds {}
  have hloads := nesting_loads
  generalize (assembly "nesting" nesting).module = m at hassembled hverified hheeds hloads ⊢
  intro e
  obtain ⟨p, s, t, hp, hx, -⟩ := visits_resultAfter hloads
  exact ⟨⟨p, s, hp, hx⟩,
    Module.Assembled.loads_shaped hassembled hverified .standard {} ⟨0⟩ [] (by simp) hheeds⟩

/-! ### Why the conditions -/

/-- A bitcast of a pointer to a pointer. -/
def Module.repoints (m : Module) (v : ValueId) : Instruction → Bool
  | .cast .bitcast w => m.types.kind (m.typeOf w) = .pointer && m.types.kind (m.typeOf v) = .pointer
  | _ => false

/-- A run without arguments in which a load gives a value of another shape than its type has,
although no pointer is cast to another type and no address comes from outside. -/
def Setting.Misreads (e : Setting) (f : FunctionId) : Prop :=
  (∀ v i, e.module.instruction? v = some i → e.module.repoints v i = false) ∧
    (∀ name boxes r, e.host.call name boxes = .ok r → r.isPointer = false) ∧
    ∃ p v ptr s d t, e.Visits f [] p ∧ e.Executes p v (.load ptr) s ∧
      (e.evaluate (e.call p.levels) p.frame (e.module.typeOf v) (.load ptr)).run.run s =
        (.ok d, t) ∧ ¬ e.module.types.Shape (e.module.typeOf v) d

theorem Setting.misreads_of_resultAfter {m : Module} {f : FunctionId} {n : Nat} {v ptr : ValueId}
    {d : Datum}
    (hcasts : ∀ n < m.values.size, ∀ i ∈ m.instruction? ⟨n⟩, m.repoints ⟨n⟩ i = false)
    (hr : (⟨m, .standard, {}⟩ : Setting).resultAfter f [] n = some (v, .load ptr, d))
    (hd : ¬ m.types.Shape (m.typeOf v) d) : (⟨m, .standard, {}⟩ : Setting).Misreads f := by
  obtain ⟨p, s, t, hp, hx, hr⟩ := visits_resultAfter hr
  exact ⟨fun v i => Module.forall_instruction? (P := fun v i => m.repoints v i = false) hcasts,
    fun _ _ _ => Host.isPointer_of_standard, p, v, ptr, s, d, t, hp, hx, hr, hd⟩

/-- The pointer to the array, cast to one to its numbers. -/
example : (assembly "nesting" nesting).module.repoints ⟨7⟩ (.cast .bitcast ⟨6⟩) = true := by
  decide +kernel

/-- Control goes into the body of another function, whose result is stored as if it were the
called function's. -/
def relaying : List Call :=
  [.types (.ofType .double),
    .types (.ofType (.int 32)),
    .constant (.float ⟨0⟩ ⟨0x3ff0000000000000⟩),
    .symbol (.declareFunction "f" ⟨0⟩ [] false),
    .layout (.appendBlock ⟨0⟩ "entry"),
    .setCursor (some { block := ⟨0⟩ }),
    .emission (.ret ⟨0⟩),
    .symbol (.declareFunction "g" ⟨1⟩ [] false),
    .layout (.appendBlock ⟨1⟩ "entry"),
    .setCursor (some { block := ⟨1⟩ }),
    .emission (.br ⟨0⟩),
    .symbol (.declareFunction "main" ⟨1⟩ [] false),
    .layout (.appendBlock ⟨2⟩ "entry"),
    .setCursor (some { block := ⟨2⟩ }),
    .emission (.call ⟨1⟩ []),
    .emission (.alloca ⟨1⟩),
    .emission (.store ⟨3⟩ ⟨4⟩),
    .emission (.load ⟨4⟩),
    .emission (.ret ⟨6⟩)]

/-- A vector of pointers is cast to one of pointers of another type. -/
def relabelling : List Call :=
  [.types (.ofType (.int 32)),
    .types (.ofType .double),
    .types (.ofType (.pointer ⟨0⟩)),
    .types (.ofType (.pointer ⟨1⟩)),
    .types (.ofType (.vector ⟨2⟩ 1)),
    .types (.ofType (.vector ⟨3⟩ 1)),
    .constant (.integer ⟨0⟩ 0),
    .constant (.undef ⟨4⟩),
    .symbol (.declareFunction "main" ⟨1⟩ [] false),
    .layout (.appendBlock ⟨0⟩ "entry"),
    .setCursor (some { block := ⟨0⟩ }),
    .emission (.alloca ⟨0⟩),
    .emission (.insertElement ⟨1⟩ ⟨2⟩ ⟨0⟩),
    .emission (.cast .bitcast ⟨3⟩ ⟨5⟩),
    .emission (.extractElement ⟨4⟩ ⟨0⟩),
    .emission (.load ⟨5⟩),
    .emission (.ret ⟨6⟩)]

/-- The first index leads from one field of a struct to the next. -/
def sidling : List Call :=
  [.types (.ofType (.int 32)),
    .types (.ofType .double),
    .types (.ofType (.struct none (some [⟨0⟩, ⟨1⟩]) false)),
    .constant (.integer ⟨0⟩ 1),
    .symbol (.declareFunction "main" ⟨0⟩ [] false),
    .layout (.appendBlock ⟨0⟩ "entry"),
    .setCursor (some { block := ⟨0⟩ }),
    .emission (.alloca ⟨2⟩),
    .emission (.structPtr ⟨1⟩ 0),
    .emission (.elementPtr ⟨4⟩ [⟨0⟩]),
    .emission (.load ⟨5⟩),
    .emission (.ret ⟨6⟩)]

theorem relaying_loads :
    (⟨(assembly "relaying" relaying).module, .standard, {}⟩ : Setting).resultAfter ⟨2⟩ [] 3 =
      some (⟨6⟩, .load ⟨4⟩, .double ⟨0x3ff0000000000000⟩) := by
  decide +kernel

theorem relabelling_loads :
    (⟨(assembly "relabelling" relabelling).module, .standard, {}⟩ : Setting).resultAfter ⟨0⟩ [] 4 =
      some (⟨6⟩, .load ⟨5⟩, .int 32 0) := by
  decide +kernel

theorem sidling_loads :
    (⟨(assembly "sidling" sidling).module, .standard, {}⟩ : Setting).resultAfter ⟨0⟩ [] 3 =
      some (⟨6⟩, .load ⟨5⟩, .double .zero) := by
  decide +kernel

/-- Without verification a load may be misread, and with it behind a cast of a vector of pointers
and behind a step from one field to another. -/
theorem loads_misread :
    let relayed := (assembly "relaying" relaying).module
    let relabelled := (assembly "relabelling" relabelling).module
    let sidled := (assembly "sidling" sidling).module
    (∀ calls ∈ [relaying, relabelling, sidling], ∀ c ∈ calls, c.constructs) ∧
      (relayed.Assembled ∧ Setting.Misreads { module := relayed } ⟨2⟩) ∧
      (relabelled.Assembled ∧ relabelled.verify = .ok () ∧
        Setting.Misreads { module := relabelled } ⟨0⟩) ∧
      sidled.Assembled ∧ sidled.verify = .ok () ∧ Setting.Misreads { module := sidled } ⟨0⟩ := by
  intro relayed relabelled sidled
  have hconstructs : ∀ calls ∈ [relaying, relabelling, sidling], ∀ c ∈ calls, c.constructs := by
    decide
  refine ⟨hconstructs, ⟨?_, ?_⟩, ⟨?_, by decide +kernel, ?_⟩, ?_, by decide +kernel, ?_⟩
  · exact assembled_of_constructs (by decide +kernel) (hconstructs relaying (by simp))
  · exact Setting.misreads_of_resultAfter (by decide +kernel) relaying_loads
      (show ¬ _ = Ty.double by decide +kernel)
  · exact assembled_of_constructs (by decide +kernel) (hconstructs relabelling (by simp))
  · exact Setting.misreads_of_resultAfter (by decide +kernel) relabelling_loads
      fun h => absurd h.1 (by decide +kernel)
  · exact assembled_of_constructs (by decide +kernel) (hconstructs sidling (by simp))
  · exact Setting.misreads_of_resultAfter (by decide +kernel) sidling_loads
      (show ¬ _ = Ty.double by decide +kernel)

end SsaKit
