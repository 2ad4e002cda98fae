import SsaKit.Proofs.Canonical
import SsaKit.Proofs.ElementPtr
import SsaKit.Proofs.PointerPath

/-! Pointer arithmetic as it is built, against what it does when it runs: which member a constant index
picks, and arithmetic in two parts. -/
namespace SsaKit

open Attempt SsaKit.Module Setting

variable {s s' : Builder} {base index v p z : ValueId} {first rest before after : List ValueId}
  {type : TypeId} {word : UInt64} {bits : Nat}

/-- A constant is a number within the width of its type. -/
theorem Module.Sound.constant_fits {m : Module} (hm : m.Sound) (hw : m.constWord? v = some word) :
    ∃ bits, m.types.entry (m.typeOf v) = .int bits ∧ 0 < bits ∧ bits ≤ 64 ∧
      Word.mask bits word = word := by
  have hk := kindOf_of_constWord? hw
  have hhas : m.values.Has v := has_of_kindOf (by simp [hk])
  obtain ⟨hc, hfits⟩ := hm.values v hhas
  rw [hk] at hfits
  obtain ⟨bits, hle, he, hmask⟩ := hfits
  have hwidth := hm.types.fits _ hc
  rw [he] at hwidth
  exact ⟨bits, he, hwidth.1, hle, hmask⟩

namespace Builder

/-- Making pointer arithmetic of values that are there is one more call. -/
theorem Attained.elementPtr_made (h : s.Attained) (hb : s.module.values.Has base)
    (hi : ∀ w ∈ first, s.module.values.Has w)
    (ho : (elementPtr base first).outcome s = (.ok v, s')) :
    s'.Attained ∧ s.module.Extends s'.module := by
  have hcalled : Called s s' := by
    refine ⟨.emission (.elementPtr base first), ⟨?_, by simp [Emission.types],
      by simp [Emission.blocks], by simp [Emission.callees]⟩, ?_⟩
    · simpa [Emission.values] using ⟨hb, hi⟩
    · rw [Call.perform, map_eq_pure_bind, outcome_bind, Emission.emit, ho]
      rfl
  have hs := h.sturdy
  have hsane : s.Sane := ⟨hs.healthy.sound, hs.healthy.ordered, hs.cursor⟩
  obtain ⟨name, hreach⟩ := h
  exact ⟨⟨name, hreach.tail (.inl hcalled)⟩, Changed.extends (hsane.changed hcalled)⟩

end Builder

namespace Setting

variable {e : Setting} {q : Pointer}

/-- Inside, a constant index leads to the member of its number, unless it has the sign of its type. -/
theorem descend_constant (hpos : 0 < bits) (hle : bits ≤ 64) (hmask : Word.mask bits word = word)
    (hw : e.module.constWord? index = some word)
    (ht : e.module.types.entry (e.module.typeOf index) = .int bits) (frame : Frame) :
    e.descend frame q (index :: after) =
      if word.toNat < 2 ^ (bits - 1) then
        e.descend frame { q with path := q.path ++ [word.toNat] } after
      else throw (.negativeIndex (word.toNat - (2 ^ bits : Nat))) := by
  have hsigned := Word.signed_eq hpos hmask
  rw [Nat.min_eq_left hle] at hsigned
  rw [descend_cons, signedOperand_of_constWord? hw ht, pure_bind, hsigned]
  split
  · rw [enter_natCast]
    rfl
  · have hlt : word.toNat < 2 ^ bits := hmask ▸ Word.toNat_mask_lt hle
    rw [enter_of_neg (by omega)]
    rfl

end Setting

namespace Builder

/-- Accepted arithmetic gains its instruction. -/
theorem Attained.elementPtr_gained (h : s.Attained) (hb : s.module.values.Has base)
    (ho : (elementPtr base first).outcome s = (.ok v, s')) :
    ∃ target, s.module.Targets base first target ∧
      Gains s (.elementPtr base first) (.pointer target) v s' := by
  obtain ⟨hready, target, htarget⟩ := elementPtr_targets.of_ok ho
  exact ⟨target, htarget,
    (elementPtr_gains h.sturdy.healthy.sound hb hready htarget).of_ok ho⟩

/-- The type that accepted indices come by at a struct is left through a constant one, which has to
be the number of a field. -/
theorem stepInto_struct {m : Module} {target : TypeId} {name : Option String}
    {fields : Option (List TypeId)} {isPacked : Bool}
    (hstruct : m.types.entry type = .struct name fields isPacked)
    (h : stepInto m type index = .ok target) :
    ∃ word, m.constWord? index = some word ∧ (fields.getD [])[word.toNat]? = some target := by
  unfold stepInto at h
  rw [hstruct] at h
  cases hw : m.constWord? index with
  | none => simp [hw] at h
  | some word =>
    simp only [hw] at h
    cases hfield : (fields.getD [])[word.toNat]? with
    | none => simp [hfield] at h
    | some field =>
      simp only [hfield, Except.ok.injEq] at h
      exact ⟨word, rfl, h ▸ hfield⟩

/-- A constant that was taken for the number of a field, read without a sign, is the next step of the
path when the arithmetic runs, exactly if it is in the lower half of its type. In the upper half it is
read below zero, and the run fails there. -/
theorem Attained.fields_entered (h : s.Attained) (hb : s.module.values.Has base)
    (hi : ∀ w ∈ before ++ index :: after, s.module.values.Has w) (hne : before ≠ [])
    (ho : (elementPtr base (before ++ index :: after)).outcome s = (.ok v, s'))
    (hlevel : (before.drop 1).foldlM (stepInto s.module) (pointee s.module (s.module.typeOf base)) =
      .ok type)
    {name : Option String} {fields : Option (List TypeId)} {isPacked : Bool}
    (hstruct : s.module.types.entry type = .struct name fields isPacked) :
    s'.module.kindOf v = .instruction (.elementPtr base (before ++ index :: after)) ∧
    ∃ bits word field, s.module.types.entry (s.module.typeOf index) = .int bits ∧
      s.module.constWord? index = some word ∧ (fields.getD [])[word.toNat]? = some field ∧
      ∀ e : Setting, s'.module.Extends e.module → ∀ frame,
        e.derive frame base (before ++ index :: after) = (do
          let p ← e.reach frame base before
          if word.toNat < 2 ^ (bits - 1) then
            return .pointer (some (← e.descend frame { p with path := p.path ++ [word.toNat] } after))
          else throw (.negativeIndex (word.toNat - (2 ^ bits : Nat)))) := by
  obtain ⟨target, htarget, hgains⟩ := h.elementPtr_gained hb ho
  obtain ⟨-, hgrown⟩ := h.elementPtr_made hb hi ho
  obtain ⟨middle, hmiddle, -, hrest⟩ := (targets_append hne).mp htarget
  obtain rfl : type = middle := Except.ok.inj (hlevel.symm.trans hmiddle.steps)
  obtain ⟨field, hnext, -⟩ := foldlM_stepInto_cons.mp hrest
  obtain ⟨word, hw, hfield⟩ := stepInto_struct hstruct hnext
  obtain ⟨bits, ht, hpos, hle, hmask⟩ := h.sturdy.healthy.sound.constant_fits hw
  refine ⟨hgains.instruction, bits, word, field, ht, hw, hfield, fun e hx frame => ?_⟩
  have hxe := hgrown.trans hx
  have hindex : s.module.values.Has index := hi index (by simp)
  have ht' : e.module.types.entry (e.module.typeOf index) = .int bits := by
    rw [hxe.typeOf_eq hindex]
    exact hxe.types.entry_of ht (by simp) rfl
  rw [derive_reach, reach_append e frame base hne, bind_assoc]
  refine bind_congr fun p => ?_
  rw [descend_constant hpos hle hmask (constWord?_extends hxe hw) ht']
  split <;> rfl

end Builder

/-- A slot for a struct of two numbers, and constants to pick its fields with. -/
def selecting : List Call :=
  [.types (.ofType (.int 32)),
    .types (.ofType (.struct none (some [⟨0⟩, ⟨0⟩]) false)),
    .types (.ofType (.int 1)),
    .constant (.integer ⟨0⟩ 0),
    .constant (.integer ⟨0⟩ 1),
    .constant (.integer ⟨2⟩ 1),
    .constant (.integer ⟨0⟩ 7),
    .symbol (.declareFunction "main" ⟨0⟩ [] false),
    .layout (.appendBlock ⟨0⟩ "entry"),
    .setCursor (some { block := ⟨0⟩ }),
    .emission (.alloca ⟨1⟩)]

/-- The builder after those calls. -/
def selected : Builder := Builder.replay { module := { name := "selecting" } } selecting

theorem selected_reachable : selected.Reachable :=
  Builder.Replays.reachable (by decide +kernel) (Builder.reachable_empty "selecting")

theorem selected_accepts : ((Builder.elementPtr ⟨4⟩ [⟨0⟩, ⟨1⟩]).outcome selected).1 = .ok ⟨5⟩ := by
  decide +kernel

/-- With the one of 32 bits, the second field is built and entered. -/
theorem selected_entered : selected.Attained ∧
    ∃ s', (Builder.elementPtr ⟨4⟩ [⟨0⟩, ⟨1⟩]).outcome selected = (.ok ⟨5⟩, s') ∧
      ∀ e : Setting, s'.module.Extends e.module → ∀ frame,
        e.derive frame ⟨4⟩ [⟨0⟩, ⟨1⟩] = (do
          let p ← e.reach frame ⟨4⟩ [⟨0⟩]
          return .pointer (some { p with path := p.path ++ [1] })) := by
  have hattained : selected.Attained := selected_reachable.attained
  have hindices : ∀ w ∈ [⟨0⟩] ++ ⟨1⟩ :: [], selected.module.values.Has w := by decide +kernel
  have hlevel : Builder.pointee selected.module (selected.module.typeOf ⟨4⟩) = ⟨1⟩ := by
    decide +kernel
  have hstruct : selected.module.types.entry ⟨1⟩ = .struct none (some [⟨0⟩, ⟨0⟩]) false := by
    decide +kernel
  have ho := outcome_eq_of_fst selected_accepts
  obtain ⟨-, bits, word, field, ht, hw, -, hruns⟩ := hattained.fields_entered (by decide +kernel)
    hindices (by simp) ho (congrArg Except.ok hlevel) hstruct
  have hbits : selected.module.types.entry (selected.module.typeOf ⟨1⟩) = .int 32 := by decide +kernel
  obtain rfl : bits = 32 := by simpa [hbits] using ht.symm
  have hword : selected.module.constWord? ⟨1⟩ = some 1 := by decide +kernel
  obtain rfl : word = 1 := Option.some_inj.mp (hw.symm.trans hword)
  exact ⟨hattained, _, ho, hruns⟩

/-- The same with the one of a single bit, behind it a store and a load. -/
def misread : Builder := selected.replay
  [.emission (.elementPtr ⟨4⟩ [⟨0⟩, ⟨2⟩]),
    .emission (.store ⟨3⟩ ⟨5⟩),
    .emission (.load ⟨5⟩),
    .emission (.ret ⟨7⟩)]

/-- The second field is built and verified, and the run fails on the way to it. -/
theorem misread_fails : misread.Attained ∧ misread.module.verify = .ok () ∧
    (⟨misread.module, .standard, {}⟩ : Setting).runFunction ⟨0⟩ [] = .error (.negativeIndex (-1)) :=
  ⟨(Builder.Replays.reachable (by decide +kernel) selected_reachable).attained, by decide +kernel,
    by decide +kernel⟩

namespace Builder

/-! ### Arithmetic in two parts -/

/-- Behind the first part, a zero and the other indices lead where all of them lead from the base. -/
theorem targets_gained {middle target : TypeId} {i : Instruction} (hs : s.module.Sound)
    (hb : s.module.values.Has base) (hrest : ∀ w ∈ rest, s.module.values.Has w)
    (hz : s.module.constWord? z = some word) (hne : first ≠ [])
    (hfirst : s.module.Targets base first middle) (hg : Gains s i (.pointer middle) p s') :
    s'.module.Targets p (z :: rest) target ↔ s.module.Targets base (first ++ rest) target := by
  have hhas : s.module.values.Has z := has_of_kindOf (by simp [kindOf_of_constWord? hz])
  have hinteger : s'.module.types.kind (s'.module.typeOf z) = .integer := by
    obtain ⟨bits, he, -⟩ := hs.constant_fits hz
    rw [hg.preserves.kind_eq hs hhas, TypeTable.kind, he]
    rfl
  have hkinds : (∀ w ∈ rest, s'.module.types.kind (s'.module.typeOf w) = .integer) ↔
      ∀ w ∈ rest, s.module.types.kind (s.module.typeOf w) = .integer :=
    forall₂_congr fun w hw => by rw [hg.preserves.kind_eq hs (hrest w hw)]
  rw [targets_of_pointer hg.type hinteger, targets_append hne, hkinds,
    hg.preserves.foldlM_stepInto_iff hs (hfirst.contains hs hb) hrest]
  constructor
  · exact fun h => ⟨middle, hfirst, h⟩
  · rintro ⟨middle', hfirst', h⟩
    obtain rfl : middle = middle' := Except.ok.inj (hfirst.steps.symm.trans hfirst'.steps)
    exact h

/-- Where all indices are accepted, so are the first of them, and then the others behind a zero. -/
theorem Attained.elementPtr_split {target : TypeId} (h : s.Attained) (hready : s.Ready)
    (hb : s.module.values.Has base) (hfirst : ∀ w ∈ first, s.module.values.Has w)
    (hrest : ∀ w ∈ rest, s.module.values.Has w) (hne : first ≠ [])
    (hz : s.module.constWord? z = some word) (ht : s.module.Targets base (first ++ rest) target) :
    ∃ middle p s₁ w s₂, (elementPtr base first).outcome s = (.ok p, s₁) ∧
      (elementPtr p (z :: rest)).outcome s₁ = (.ok w, s₂) ∧ s₂.Attained ∧
      s.module.Extends s₂.module ∧ Gains s (.elementPtr base first) (.pointer middle) p s₁ ∧
      Gains s₁ (.elementPtr p (z :: rest)) (.pointer target) w s₂ := by
  have hs := h.sturdy.healthy.sound
  obtain ⟨middle, hmiddle, -⟩ := (targets_append hne).mp ht
  obtain ⟨p, s₁, ho₁, hg₁⟩ := (elementPtr_gains hs hb hready hmiddle).exists_ok
  obtain ⟨h₁, hx₁⟩ := h.elementPtr_made hb hfirst ho₁
  have ht₁ := (targets_gained hs hb hrest hz hne hmiddle hg₁).mpr ht
  obtain ⟨w, s₂, ho₂, hg₂⟩ :=
    (elementPtr_gains h₁.sturdy.healthy.sound hg₁.has hg₁.ready ht₁).exists_ok
  have hhas : ∀ x ∈ z :: rest, s₁.module.values.Has x := by
    have hz' : s.module.values.Has z := has_of_kindOf (by simp [kindOf_of_constWord? hz])
    rintro x (_ | ⟨_, hx⟩)
    · exact (hg₁.preserves.values z hz').1
    · exact (hg₁.preserves.values x (hrest x hx)).1
  obtain ⟨h₂, hx₂⟩ := h₁.elementPtr_made hg₁.has hhas ho₂
  exact ⟨middle, p, s₁, w, s₂, ho₁, ho₂, h₂, hx₁.trans hx₂, hg₁, hg₂⟩

/-- A zero constant stays one, whatever is added to its module. -/
theorem signedOperand_zero {e : Setting} (hs : s.module.Sound) (hz : s.module.constWord? z = some 0)
    (hx : s.module.Extends e.module) (frame : Frame) : e.signedOperand frame z = pure 0 := by
  obtain ⟨bits, he, hpos, hle, -⟩ := hs.constant_fits hz
  have hhas : s.module.values.Has z := has_of_kindOf (by simp [kindOf_of_constWord? hz])
  have he' : e.module.types.entry (e.module.typeOf z) = .int bits := by
    rw [hx.typeOf_eq hhas]
    exact hx.types.entry_of he (by simp) rfl
  rw [signedOperand_of_constWord? (constWord?_extends hx hz) he',
    Word.signed_eq hpos (UInt64.toNat_inj.mp (by simp [Word.toNat_mask]))]
  simp [Nat.pow_pos]

/-- Arithmetic by two lists of indices is accepted exactly if that by the first one is, and then that
by the second one behind a zero from the pointer just made. What both come to has one type, and
wherever both run, the one computes what the other two compute in turn. -/
theorem Attained.elementPtr_append (h : s.Attained) (hb : s.module.values.Has base)
    (hfirst : ∀ w ∈ first, s.module.values.Has w) (hrest : ∀ w ∈ rest, s.module.values.Has w)
    (hne : first ≠ []) (hz : s.module.constWord? z = some 0) :
    ((∃ v s', (elementPtr base (first ++ rest)).outcome s = (.ok v, s')) ↔
      ∃ p s₁ w s₂, (elementPtr base first).outcome s = (.ok p, s₁) ∧
        (elementPtr p (z :: rest)).outcome s₁ = (.ok w, s₂)) ∧
    ∀ v s', (elementPtr base (first ++ rest)).outcome s = (.ok v, s') →
      ∃ p s₁ w s₂, (elementPtr base first).outcome s' = (.ok p, s₁) ∧
        (elementPtr p (z :: rest)).outcome s₁ = (.ok w, s₂) ∧
        s₂.module.typeOf v = s₂.module.typeOf w ∧
        ∀ e : Setting, s₂.module.Extends e.module → ∀ frame,
          e.derive frame base (first ++ rest) = (do
            let d ← e.derive frame base first
            e.derive (frame.insert p d) p (z :: rest)) := by
  have hs := h.sturdy.healthy.sound
  have hall : ∀ w ∈ first ++ rest, s.module.values.Has w := by
    simpa [or_imp, forall_and] using ⟨hfirst, hrest⟩
  refine ⟨⟨?_, ?_⟩, ?_⟩
  · rintro ⟨v, s', ho⟩
    obtain ⟨hready, target, ht⟩ := elementPtr_targets.of_ok ho
    obtain ⟨-, p, s₁, w, s₂, ho₁, ho₂, -⟩ := h.elementPtr_split hready hb hfirst hrest hne hz ht
    exact ⟨p, s₁, w, s₂, ho₁, ho₂⟩
  · rintro ⟨p, s₁, w, s₂, ho₁, ho₂⟩
    obtain ⟨hready, -⟩ := elementPtr_targets.of_ok ho₁
    obtain ⟨middle, hmiddle, hg₁⟩ := h.elementPtr_gained hb ho₁
    obtain ⟨-, target, ht₁⟩ := elementPtr_targets.of_ok ho₂
    have ht := (targets_gained hs hb hrest hz hne hmiddle hg₁).mp ht₁
    obtain ⟨v, s', ho, -⟩ := (elementPtr_gains hs hb hready ht).exists_ok
    exact ⟨v, s', ho⟩
  · intro v s' ho
    obtain ⟨target, ht, hg⟩ := h.elementPtr_gained hb ho
    obtain ⟨h', -⟩ := h.elementPtr_made hb hall ho
    have hs' := h'.sturdy.healthy.sound
    have hkeep {x : ValueId} (hx : s.module.values.Has x) : s'.module.values.Has x :=
      (hg.preserves.values x hx).1
    have hz' : s'.module.constWord? z = some 0 := by
      rw [hg.preserves.constWord?_eq (has_of_kindOf (by simp [kindOf_of_constWord? hz])), hz]
    obtain ⟨middle, p, s₁, w, s₂, ho₁, ho₂, h₂, hx₂, hg₁, hg₂⟩ :=
      h'.elementPtr_split hg.ready (hkeep hb) (fun x hx => hkeep (hfirst x hx))
        (fun x hx => hkeep (hrest x hx)) hne hz' (hg.preserves.targets hs hb hall ht)
    refine ⟨p, s₁, w, s₂, ho₁, ho₂, ?_, fun e hx frame => ?_⟩
    · have hfound {x : ValueId} (hhas : s₂.module.values.Has x)
          (he : s₂.module.types.entry (s₂.module.typeOf x) = .pointer target) :
          s₂.module.types.find? (.pointer target) = some (s₂.module.typeOf x) :=
        (h₂.canonical.find _ _ rfl).mpr ⟨(h₂.sturdy.healthy.sound.values x hhas).1, he⟩
      have hv : s₂.module.types.entry (s₂.module.typeOf v) = .pointer target := by
        rw [hx₂.typeOf_eq hg.has]
        exact hx₂.types.entry_of hg.type (by simp) rfl
      exact Option.some_inj.mp ((hfound (hx₂.has hg.has) hv).symm.trans (hfound hg₂.has hg₂.type))
    · obtain ⟨i, hi⟩ : ∃ i, e.module.kindOf p = .instruction i := by
        obtain ⟨hp, hvalue⟩ := hg₂.preserves.values p hg₁.has
        have hk := hg₁.instruction
        rw [kindOf, ← hvalue] at hk
        exact (hx.values p hp).2.2.instruction hk
      refine derive_append hne hi (fun x hxr hxp => ?_) fun frame =>
        signedOperand_zero hs' hz' (hx₂.trans hx) frame
      exact hg₁.fresh (hxp ▸ hkeep (hrest x hxr))

end Builder

example : ((do Builder.elementPtr (← Builder.elementPtr ⟨4⟩ [⟨0⟩]) [⟨0⟩, ⟨1⟩]).outcome selected).1 =
    .ok ⟨6⟩ := by decide +kernel

/-- The second field, asked for at once and through a pointer to the whole struct. -/
theorem selected_append : selected.Attained ∧ selected.module.constWord? ⟨0⟩ = some 0 ∧
    ∃ s', (Builder.elementPtr ⟨4⟩ ([⟨0⟩] ++ [⟨1⟩])).outcome selected = (.ok ⟨5⟩, s') ∧
    ∃ p s₁ w s₂, (Builder.elementPtr ⟨4⟩ [⟨0⟩]).outcome s' = (.ok p, s₁) ∧
      (Builder.elementPtr p [⟨0⟩, ⟨1⟩]).outcome s₁ = (.ok w, s₂) ∧
      s₂.module.typeOf ⟨5⟩ = s₂.module.typeOf w := by
  have hattained : selected.Attained := selected_reachable.attained
  have hz : selected.module.constWord? ⟨0⟩ = some 0 := by decide +kernel
  have ho := outcome_eq_of_fst selected_accepts
  have hbase : selected.module.values.Has ⟨4⟩ := by decide +kernel
  have hfirst : ∀ w ∈ [⟨0⟩], selected.module.values.Has w := by decide +kernel
  have hrest : ∀ w ∈ [⟨1⟩], selected.module.values.Has w := by decide +kernel
  obtain ⟨-, hparts⟩ := hattained.elementPtr_append hbase hfirst hrest (by simp) hz
  obtain ⟨p, s₁, w, s₂, ho₁, ho₂, htype, -⟩ := hparts _ _ ho
  exact ⟨hattained, hz, _, ho, p, s₁, w, s₂, ho₁, ho₂, htype⟩

end SsaKit
