import SsaKit.Proofs.Acceptance
import SsaKit.Proofs.Necessity
import SsaKit.Proofs.Overrun
import SsaKit.Proofs.Walk

/-! What verification overlooks: a phi that a function begins with, and a removed global that code
reaches through other values. A run of a verified module fails with a misplaced phi or a removed global
for one of these two reasons only, or because a host function fails so. -/
namespace SsaKit

/-- A phi or a global was used where it does not stand. -/
def Fault.isMisplaced : Fault → Bool
  | phiInEntry _ | removedGlobal _ => true
  | _ => false

theorem Fault.Plain.not_misplaced {fault : Fault} (h : fault.Plain) : fault.isMisplaced = false := by
  obtain ⟨-, hmissing⟩ := h
  cases fault <;> simp_all [Fault.isMissing, Fault.isMisplaced]

namespace Module

open Relation

/-- The code of the first function calls the second one. -/
def Calls (m : Module) (f g : FunctionId) : Prop :=
  ∃ v ∈ m.instructionsOf f, ∃ args, m.instruction? v = some (.call g args)

/-- A function begins with a phi, to which no edge leads when it is called. -/
def MergesFirst (m : Module) (f : FunctionId) : Prop :=
  ∃ b ∈ m.entry? f, ∃ v ∈ (m.instructions b).head?, ∃ incoming,
    m.instruction? v = some (.phi incoming)

/-- A global that is not on the list is a part of an operand of a function, one that verification
has nothing against. -/
def Overlooks (m : Module) (f : FunctionId) (x : ValueId) : Prop :=
  ∃ v ∈ m.instructionsOf f, ∃ w ∈ readOf m v, m.operandFault f w = none ∧
    ReflTransGen m.HasPart w x ∧ (∃ g, m.kindOf x = .global g) ∧ x ∉ m.globals

end Module

namespace Setting

open Run SsaKit.Module Relation

variable {e : Setting} {f g : FunctionId} {v x : ValueId} {frame : Frame} {failed : Fault → Prop}

/-- An operand is refused as a removed global only where it has one as a part. -/
theorem operand_walk (hother : ∀ fault, fault.isMisplaced = false → failed fault)
    (hremoved : ∀ x, ReflTransGen e.module.HasPart v x → (∃ g, e.module.kindOf x = .global g) →
      x ∉ e.module.globals → failed (.removedGlobal x.index)) :
    Ends (e.operand frame v) (fun _ => True) failed :=
  have hparts : ∀ x, ReflTransGen e.module.HasPart v x → ∀ w ∈ (e.module.kindOf x).parts,
      ReflTransGen e.module.HasPart v w := fun _ hx _ hw => hx.tail hw
  e.operand_ends (fun _ hf => hother _ hf.plain.not_misplaced) (fun _ => hother _ rfl) hparts
    (fun x g hx hg hn => hremoved x hx ⟨g, hg⟩ (by simpa [isListed] using hn))
    (fun _ => hother _ rfl) frame .refl

/-! ### Calls -/

/-- A misplaced phi or global is one that verification overlooked in a function that this one leads
to, unless the host handed the fault in. -/
def Explains (e : Setting) (f : FunctionId) (fault : Fault) : Prop :=
  fault.isMisplaced → (∃ g, ReflTransGen e.module.Calls f g ∧ g ∈ e.module.definedFunctions ∧
      e.module.MergesFirst g ∧ fault = .phiInEntry (e.module.functionName g)) ∨
    (∃ g x, ReflTransGen e.module.Calls f g ∧ g ∈ e.module.definedFunctions ∧
      e.module.Overlooks g x ∧ fault = .removedGlobal x.index) ∨
    ∃ name boxes, e.host.call name boxes = .error fault

theorem explains_other {fault : Fault} (h : fault.isMisplaced = false) : e.Explains f fault :=
  fun hm => by simp [h] at hm

theorem explains_plain (fault : Fault) (h : fault.Plain) : e.Explains f fault :=
  explains_other h.not_misplaced

/-- What explains a fault of a callee explains it for the caller. -/
theorem Explains.called {fault : Fault} (h : e.Explains g fault) (hc : e.module.Calls f g) :
    e.Explains f fault := by
  intro hm
  rcases h hm with ⟨k, hk, rest⟩ | ⟨k, x, hk, rest⟩ | hhost
  · exact .inl ⟨k, .head hc hk, rest⟩
  · exact .inr (.inl ⟨k, x, .head hc hk, rest⟩)
  · exact .inr (.inr hhost)

theorem call_explains {o : Order} (ho : e.module.Ordered o) (hv : e.module.verify = .ok ())
    (fuel : Nat) (f : FunctionId) (data : List Datum) (hr : e.module.isRemoved f = false) :
    Ends (e.call fuel f data) (fun _ => True) (e.Explains f) := by
  have hhost (f : FunctionId) (data : List Datum) :
      Fault.Ends (e.callHost f data) (fun _ => True) (e.Explains f) :=
    e.callHost_fails (fun fault hf _ => explains_plain fault hf) (fun name boxes fault hf _ => .inr (.inr ⟨name, boxes, hf⟩)) f data
  induction fuel generalizing f data with
  | zero => exact call_walk explains_plain hr (hhost f data) fun below hb => by omega
  | succ fuel ih =>
    refine call_walk explains_plain hr (hhost f data) fun below hb hd => ?_
    obtain rfl : fuel = below := by omega
    have hlive := mem_liveFunctions.mpr ⟨hasFunction_of_defined hd, hr⟩
    have hdefined := mem_definedFunctions.mpr ⟨hlive, hd⟩
    have hf := verify_eq_ok.mp hv f hlive
    refine execute_walk explains_plain ho hf.toVerified hd (fun v hv i hi => ⟨fun w hw frame => ?_,
      fun g args he data => ?_⟩) fun b hb v hv incoming hi _ => ?_
    · have hread : w ∈ readOf e.module v := mem_readOf.mpr ⟨i, hi, hw⟩
      refine operand_walk (fun _ => explains_other) fun x hx hg hn _ => ?_
      exact .inr (.inl ⟨f, x, .refl, hdefined,
        ⟨v, hv, w, hread, hf.readable v hv w hread, hx, hg, hn⟩, rfl⟩)
    · subst he
      have hcall : e.module.Calls f g := ⟨v, hv, args, hi⟩
      have hthere := hf.toVerified.callee hv hi
      exact (ih g data hthere).mono (fun _ h => h) fun _ h => h.called hcall
    · exact .inl ⟨f, .refl, hdefined, ⟨b, hb, v, hv, incoming, hi⟩, rfl⟩

theorem runFunction_explains {o : Order} (ho : e.module.Ordered o) (hv : e.module.verify = .ok ())
    (hf : f ∈ e.module.liveFunctions) (args : List Box) :
    Fault.Ends (e.runFunction f args) (fun _ => True) (e.Explains f) :=
  have hr := (mem_liveFunctions.mp hf).2
  runFunction_walk explains_plain hr (fun data => call_explains ho hv _ f data hr) args

/-- A phi behind an edge passes verification. -/
example : scaled.module.verify = .ok () := by decide +kernel

/-! ### A phi to begin with -/

/-- A call that gets to a body that begins with a phi goes no further. -/
theorem call_merging {levels : Nat} {data : List Datum} {s : Machine}
    (hr : e.module.isRemoved f = false) (hd : e.module.isDeclaration f = false)
    (hdepth : s.depth < e.limits.callDepth) (h : e.module.MergesFirst f) :
    ((e.call (levels + 1) f data).run.run s).1 =
      .error (.phiInEntry (e.module.functionName f)) := by
  obtain ⟨b, hb, v, hv, incoming, hi⟩ := h
  obtain ⟨rest, hl⟩ := List.head?_eq_some_iff.mp hv
  rw [call_defined hr hd hdepth]
  change ((e.execute (e.call levels) f data).run.run { s with depth := s.depth + 1 }).1 = _
  have hentry : e.module.entry? f = some b := hb
  simp only [execute, hentry]
  rw [runBlocks_eq, run_bind, runBlock, run_bind, hl, readPhis_phi e hi, run_bind]
  rfl

theorem runFunction_merging {args : List Box} {data : List Datum}
    (hf : f ∈ e.module.definedFunctions) (h : e.module.MergesFirst f)
    (hdepth : 0 < e.limits.callDepth) (hdata : e.admitted f args = .ok data) :
    e.runFunction f args = .error (.phiInEntry (e.module.functionName f)) := by
  obtain ⟨hlive, hd⟩ := mem_definedFunctions.mp hf
  obtain ⟨below, hlevels⟩ := Nat.exists_eq_succ_of_ne_zero (Nat.ne_of_gt hdepth)
  have hcall : ((e.call (below + 1) f data).run.run e.start).1 =
      .error (.phiInEntry (e.module.functionName f)) :=
    call_merging (mem_liveFunctions.mp hlive).2 hd hdepth h
  rw [runFunction_admitted, hdata, hlevels]
  simp only [bind, Except.bind, hcall]

end Setting

namespace Builder

open SsaKit.Module Setting

/-- How runs of a verified module come to a misplaced phi or global, however the module was built: a
function that they get to begins with a phi, or an operand that verification has nothing against has
a removed global as a part. Every run of a function that begins with a phi ends there. -/
theorem Attained.misplaced_explained {s : Builder} (h : s.Attained) (hv : s.module.verify = .ok ())
    (host : Host) (limits : Limits) :
    let e : Setting := ⟨s.module, host, limits⟩
    (∀ f ∈ s.module.liveFunctions, ∀ args fault, e.runFunction f args = .error fault →
      e.Explains f fault) ∧
    ∀ f ∈ s.module.definedFunctions, s.module.MergesFirst f → 0 < limits.callDepth →
      ∀ args data, e.admitted f args = .ok data →
        e.runFunction f args = .error (.phiInEntry (s.module.functionName f)) := by
  intro e
  refine ⟨fun f hf args fault hr => ?_, fun f hf hm hdepth args data hdata =>
    runFunction_merging hf hm hdepth hdata⟩
  have hends := runFunction_explains (e := e) h.sturdy.healthy.ordered hv hf args
  rwa [hr] at hends

/-- Two functions that verification lets pass: one begins with a phi, the other one takes the place of
a removed global out of a struct. -/
def misplacing : List Call :=
  [.types (.ofType (.int 32)),
    .symbol (.declareFunction "merge" ⟨0⟩ [] false),
    .symbol (.declareFunction "hold" ⟨0⟩ [] false),
    .symbol (.addGlobal ⟨0⟩ "g"),
    .constant (.struct [⟨0⟩] false),
    .layout (.appendBlock ⟨0⟩ "entry"),
    .setCursor (some { block := ⟨0⟩ }),
    .emission (.phi ⟨0⟩ []),
    .emission (.ret ⟨2⟩),
    .layout (.appendBlock ⟨1⟩ "entry"),
    .setCursor (some { block := ⟨1⟩ }),
    .emission (.extractValue ⟨1⟩ 0),
    .emission (.load ⟨4⟩),
    .emission (.ret ⟨5⟩),
    .symbol (.removeGlobal ⟨0⟩)]

/-- The builder after those calls. -/
def misplaced : Builder := Builder.replay { module := { name := "misplacing" } } misplacing

theorem reachable_misplaced : misplaced.Reachable :=
  Builder.Replays.reachable (by decide +kernel) (Builder.reachable_empty "misplacing")

theorem verify_misplaced : misplaced.module.verify = .ok () := by decide +kernel

theorem misplaced_run :
    (⟨misplaced.module, .standard, {}⟩ : Setting).runFunction ⟨1⟩ [] = .error (.removedGlobal 0) := by
  decide +kernel

/-- The second function runs into the removed global, which verification overlooked there. -/
theorem misplaced_overlooked : misplaced.Attained ∧ misplaced.module.verify = .ok () ∧
    (⟨misplaced.module, .standard, {}⟩ : Setting).Explains ⟨1⟩ (.removedGlobal 0) ∧
    (⟨misplaced.module, .standard, {}⟩ : Setting).runFunction ⟨0⟩ [] =
      .error (.phiInEntry "merge") := by
  have h := reachable_misplaced.attained
  obtain ⟨hexplains, hmerging⟩ := h.misplaced_explained verify_misplaced .standard {}
  have hfirst : misplaced.module.MergesFirst ⟨0⟩ :=
    ⟨⟨0⟩, by decide +kernel, ⟨2⟩, by decide +kernel, [], by decide +kernel⟩
  have hname : misplaced.module.functionName ⟨0⟩ = "merge" := by decide +kernel
  refine ⟨h, verify_misplaced, hexplains ⟨1⟩ (by decide +kernel) [] _ misplaced_run, ?_⟩
  rw [← hname]
  exact hmerging ⟨0⟩ (by decide +kernel) hfirst (by decide) [] [] (by decide +kernel)

/-- Verification has nothing against either function, and the runs of both fail. -/
theorem misplaced_fails : misplaced.Reachable ∧ misplaced.module.verify = .ok () ∧
    misplaced.module.liveFunctions = [⟨0⟩, ⟨1⟩] ∧
    (((⟨misplaced.module, .standard, {}⟩ : Setting).runFunction ⟨0⟩ []).mapError Fault.report =
      .error (.ok (.execution "phi in entry block of 'merge'"))) ∧
    (((⟨misplaced.module, .standard, {}⟩ : Setting).runFunction ⟨1⟩ []).mapError Fault.report =
      .error (.ok (.execution "use of removed global %0"))) :=
  ⟨reachable_misplaced, verify_misplaced, by decide +kernel, by decide +kernel, by rw [misplaced_run]; rfl⟩

end Builder

end SsaKit
