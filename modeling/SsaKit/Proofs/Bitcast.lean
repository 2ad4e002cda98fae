import SsaKit.Proofs.Acceptance
import SsaKit.Proofs.TypedDatum

/-! Which conversions of bits can be run. They go from lane to lane, while the bits are counted over
all lanes together. -/
namespace SsaKit

open Fault TypeTable

variable {t : TypeTable} {source target id : TypeId} {d : Datum} {ds : List Datum} {ty : Ty}

namespace TypeTable

/-- As many lanes on both sides, and pointers opposite pointers. -/
structure Laned (t : TypeTable) (source target : TypeId) : Prop where
  length : (t.entry source).length = (t.entry target).length
  pointers : t.Lanes (·.kind = .pointer) source ↔ t.Lanes (·.kind = .pointer) target

theorem lanes_scalar {P : Ty → Prop} (hk : t.kind id ≠ .vector) : t.Lanes P id ↔ P (t.entry id) := by
  constructor
  · rintro (h | ⟨e, n, he, -⟩)
    · exact h
    · exact (hk (by rw [kind, he]; rfl)).elim
  · exact .inl

theorem lanes_vector {e : TypeId} {n : Nat} (he : t.entry id = .vector e n) :
    t.Lanes (·.kind = .pointer) id ↔ t.kind e = .pointer := by
  constructor
  · rintro (h | ⟨e', n', he', h⟩)
    · simp [he, Ty.kind] at h
    · obtain ⟨rfl, -⟩ : e = e' ∧ n = n' := by simpa [he] using he'
      exact h
  · exact fun h => .inr ⟨e, n, he, h⟩

theorem length_scalar (hk : t.kind id ∈ [.integer, .float, .pointer]) :
    (t.entry id).length = none := by
  unfold kind at hk
  cases he : t.entry id <;> simp_all [Ty.kind, Ty.length]

theorem scalar_ne_vector (hk : t.kind id ∈ [.integer, .float, .pointer]) : t.kind id ≠ .vector := by
  rintro h
  simp [h] at hk

theorem laned_scalars (hk : t.kind source ∈ [.integer, .float, .pointer])
    (hk' : t.kind target ∈ [.integer, .float, .pointer]) :
    t.Laned source target ↔ (t.kind source = .pointer ↔ t.kind target = .pointer) := by
  have hsource : t.Lanes (·.kind = .pointer) source ↔ t.kind source = .pointer :=
    lanes_scalar (scalar_ne_vector hk)
  have htarget : t.Lanes (·.kind = .pointer) target ↔ t.kind target = .pointer :=
    lanes_scalar (scalar_ne_vector hk')
  rw [← hsource, ← htarget]
  exact ⟨Laned.pointers, fun h => ⟨(length_scalar hk).trans (length_scalar hk').symm, h⟩⟩

theorem laned_vectors {e e' : TypeId} {n : Nat} (hs : t.entry source = .vector e n)
    (he : t.entry target = .vector e' n) :
    t.Laned source target ↔ (t.kind e = .pointer ↔ t.kind e' = .pointer) := by
  rw [← lanes_vector hs, ← lanes_vector he]
  exact ⟨Laned.pointers, fun h => ⟨by rw [hs, he]; rfl, h⟩⟩

theorem bitcast_legal : Builder.isCastLegal t .bitcast source target ↔
    (t.kind source = .pointer ∧ t.kind target = .pointer) ∨
    (t.kind source ≠ .pointer ∧ t.kind target ≠ .pointer ∧
      ∃ bits, t.scalarBits source = some bits ∧ t.scalarBits target = some bits) := by
  simp only [Builder.isCastLegal, Bool.or_eq_true, Bool.and_eq_true, beq_iff_eq, bne_iff_ne, ne_eq,
    Option.isSome_iff_exists, and_assoc]
  refine or_congr_right (and_congr_right fun _ => and_congr_right fun _ => ⟨?_, ?_⟩)
  · rintro ⟨⟨bits, hbits⟩, heq⟩
    exact ⟨bits, hbits, heq ▸ hbits⟩
  · rintro ⟨bits, hbits, hbits'⟩
    exact ⟨⟨bits, hbits⟩, hbits.trans hbits'.symm⟩

end TypeTable

namespace Datum

/-- The conversion of bits gives a value of the target type if it is `able` to, and fails if not. -/
def Bitcasts (t : TypeTable) (target : TypeId) (d : Datum) (able : Prop) : Prop :=
  (able → Ends (cast t .bitcast target d) (t.Shape target) fun _ => False) ∧
  (¬able → Ends (cast t .bitcast target d) (fun _ => False) fun e => e.breaksShape)

/-- Nothing but a missing rule stops a conversion of bits. -/
theorem bitcast_breaks (ty : Ty) (d : Datum) :
    Ends (bitcast ty d) (fun _ => True) fun e => e.breaksShape := by
  cases d with
  | aggregate _ | void => rfl
  | _ =>
    simp only [bitcast]
    split <;> trivial

/-- Two scalars of as many bits, none of them a pointer or both. -/
theorem bitcast_done (hsource : t.kind source ≠ .vector) (htarget : t.kind target ≠ .vector)
    (hc : Builder.isCastLegal t .bitcast source target) (hd : t.Shape source d) :
    Ends (cast t .bitcast target d) (t.Shape target) fun _ => False := by
  have hscalar := members_of_scalar (castSource_kind hc fun _ => hsource)
  rw [cast.eq_2 t .bitcast target d (hd.scalar hscalar)]
  have hbreaks := bitcast_breaks (t.entry target) d
  have hends := bitcast_ends hsource htarget hc hd
  change Ends (bitcast (t.entry target) d) _ _
  cases hr : bitcast (t.entry target) d with
  | ok r =>
    rw [hr] at hends
    exact hends
  | error e =>
    rw [hr] at hends hbreaks
    exact absurd hbreaks (by simpa [Shapely] using hends)

/-- Pointers have no bits to be read, and no bits make a pointer. -/
theorem bitcast_fails (h : (∃ p, d = .pointer p) ↔ ty.kind ≠ .pointer) :
    Ends (bitcast ty d) (fun _ => False) fun e => e.breaksShape := by
  cases d with
  | pointer p =>
    have hk : ty.kind ≠ .pointer := h.mp ⟨p, rfl⟩
    simp only [bitcast]
    split
    · exact absurd rfl hk
    · rfl
  | _ =>
    have hk : ty.kind = .pointer := by simpa using h
    cases ty <;> first | rfl | cases hk

theorem shape_pointer_iff (hd : t.Shape id d) : (∃ p, d = .pointer p) ↔ t.kind id = .pointer := by
  refine ⟨?_, hd.pointer⟩
  rintro ⟨p, rfl⟩
  exact hd

theorem castAll_fails {op : CastOp} {failed : Fault → Prop} (hne : ds ≠ [])
    (h : ∀ d ∈ ds, Ends (cast t op id d) (fun _ => False) failed) :
    Ends (castAll t op id ds) (fun _ => False) failed := by
  obtain ⟨d, rest, rfl⟩ := List.exists_cons_of_ne_nil hne
  rw [castAll, ends_bind]
  exact (h d List.mem_cons_self).mono (fun _ hr => hr.elim) fun _ he => he

variable {e e' : TypeId} {n : Nat}

/-- Lanes do not become fewer or more. -/
theorem cast_unlaned {op : CastOp} (hs : t.entry source = .vector e n)
    (hlength : (t.entry target).length ≠ some n) (hd : t.Shape source d) :
    Ends (cast t op target d) (fun _ => False) fun e => e.breaksShape := by
  have hm : (t.entry source).members = some (List.replicate n e) := by simp [hs, Ty.members]
  obtain ⟨ds, rfl, -⟩ := hd.members hm
  obtain ⟨hn, -⟩ := (shape_lanes hm).mp hd
  rw [cast, if_neg (by rwa [hn])]
  rfl

/-- One scalar of a lane. Where the vectors have as many bits, so have their lanes. -/
theorem bitcast_lane (hk : t.kind e ∈ [.integer, .float, .pointer])
    (hk' : t.kind e' ∈ [.integer, .float, .pointer]) (hb : t.scalarBits e = t.scalarBits e')
    (hd : t.Shape e d) :
    Bitcasts t e' d (t.kind e = .pointer ↔ t.kind e' = .pointer) := by
  refine ⟨fun hsame => ?_, fun hdiffer => ?_⟩
  · refine bitcast_done (scalar_ne_vector hk) (scalar_ne_vector hk') (bitcast_legal.mpr ?_) hd
    by_cases hp : t.kind e = .pointer
    · exact .inl ⟨hp, hsame.mp hp⟩
    · have hnumber : t.kind e = .integer ∨ t.kind e = .float := by simpa [hp] using hk
      obtain ⟨bits, hbits⟩ := scalarBits_of_kind hnumber
      exact .inr ⟨hp, mt hsame.mpr hp, bits, hbits, hb ▸ hbits⟩
  · have hscalar : (t.entry e).members = none := members_of_scalar (by simpa [kind] using hk)
    rw [cast.eq_2 t .bitcast e' d (hd.scalar hscalar)]
    refine bitcast_fails ?_
    rw [shape_pointer_iff hd]
    change t.kind e = .pointer ↔ t.kind e' ≠ .pointer
    tauto

/-- Two vectors of as many lanes and as many bits. -/
theorem bitcast_laned (ht : t.WellFormed) (hs : t.entry source = .vector e n)
    (he : t.entry target = .vector e' n) (hb : t.scalarBits source = t.scalarBits target)
    (hd : t.Shape source d) :
    Bitcasts t target d (t.kind e = .pointer ↔ t.kind e' = .pointer) := by
  have hm : (t.entry source).members = some (List.replicate n e) := by simp [hs, Ty.members]
  have hm' : (t.entry target).members = some (List.replicate n e') := by simp [he, Ty.members]
  have helement : (t.entry target).element.getD target = e' := by simp [he, Ty.element]
  obtain ⟨-, hn, hk⟩ := lanes_fit ht hs
  obtain ⟨-, -, hk'⟩ := lanes_fit ht he
  obtain ⟨ds, rfl, -⟩ := hd.members hm
  obtain ⟨hlength, hds⟩ := (shape_lanes hm).mp hd
  have hlane (d : Datum) (h : d ∈ ds) :=
    bitcast_lane hk hk' (scalarBits_lanes ht hs he hb) (hds d h)
  have hsame : (t.entry target).length = some ds.length := by rw [he, hlength]; rfl
  rw [Bitcasts, cast, if_pos hsame, helement, ends_map, ends_map]
  refine ⟨fun h => ?_, fun h => ?_⟩
  · refine (castAll_ends fun d hd => (hlane d hd).1 h).mono (fun rs hrs => ?_) fun _ he => he
    exact (shape_lanes hm').mpr ⟨hrs.1.trans hlength, hrs.2⟩
  · exact castAll_fails (by rintro rfl; exact hn hlength.symm) fun d hd => (hlane d hd).2 h

theorem bitcast_vector_fails (e : TypeId) (n : Nat) (d : Datum) :
    Ends (bitcast (.vector e n) d) (fun _ => False) fun e => e.breaksShape := by
  cases d <;> simp [bitcast, breaksShape]

theorem bitcasts_laned (ht : t.WellFormed) (hc : Builder.isCastLegal t .bitcast source target)
    (hd : t.Shape source d) : Bitcasts t target d (t.Laned source target) := by
  obtain ⟨hs, hs'⟩ | ⟨hs, hs', bits, hbits, hbits'⟩ := bitcast_legal.mp hc
  · have hk : t.kind source ∈ [.integer, .float, .pointer] := by simp [hs]
    have hk' : t.kind target ∈ [.integer, .float, .pointer] := by simp [hs']
    rw [laned_scalars hk hk']
    exact ⟨fun _ => bitcast_done (by simp [hs]) (by simp [hs']) hc hd,
      fun h => (h (by simp [hs, hs'])).elim⟩
  have hb := hbits.trans hbits'.symm
  obtain hk | ⟨e, n, he⟩ := kind_of_scalarBits hbits
  · obtain hk' | ⟨e', n', he'⟩ := kind_of_scalarBits hbits'
    · rw [laned_scalars hk hk']
      exact bitcast_lane hk hk' hb hd
    · have hlaned : ¬ t.Laned source target := fun h => by
        have hlength := h.length
        rw [length_scalar hk, he'] at hlength
        cases hlength
      have hscalar : (t.entry source).members = none :=
        members_of_scalar (by simpa [kind] using hk)
      refine ⟨fun h => (hlaned h).elim, fun _ => ?_⟩
      rw [cast.eq_2 t .bitcast target d (hd.scalar hscalar), he']
      exact bitcast_vector_fails e' n' d
  · by_cases hlength : (t.entry target).length = some n
    · obtain hk' | ⟨e', n', he'⟩ := kind_of_scalarBits hbits'
      · simp [length_scalar hk'] at hlength
      · obtain rfl : n' = n := by simpa [he', Ty.length] using hlength
        rw [laned_vectors he he']
        exact bitcast_laned ht he he' hb hd
    · have hlaned : ¬ t.Laned source target := fun h => hlength (by rw [← h.length, he]; rfl)
      exact ⟨fun h => (hlaned h).elim, fun _ => cast_unlaned he hlength hd⟩

/-- An accepted conversion of bits comes to a value of its type exactly if it leaves the lanes apart
and pointers pointers. Otherwise it fails on every value. -/
theorem bitcast_runs (ht : t.WellFormed) (hc : Builder.isCastLegal t .bitcast source target)
    (hd : t.Shape source d) :
    (t.Laned source target → ∃ r, cast t .bitcast target d = .ok r ∧ t.Shape target r) ∧
    (¬ t.Laned source target → ∃ e, cast t .bitcast target d = .error e ∧ e.breaksShape) := by
  have hends := bitcasts_laned ht hc hd
  unfold Bitcasts at hends
  cases hr : cast t .bitcast target d with
  | ok r => simpa [hr] using hends
  | error e => simpa [hr] using hends

end Datum

/-- A program that takes a number apart into two lanes, reads them as floats, and returns seven. -/
def splitting : List Call :=
  [.types (.ofType (.int 32)),
    .types (.ofType (.int 64)),
    .types (.ofType (.vector ⟨0⟩ 2)),
    .types (.ofType .float),
    .types (.ofType (.vector ⟨3⟩ 2)),
    .constant (.integer ⟨1⟩ 1),
    .constant (.integer ⟨0⟩ 7),
    .symbol (.declareFunction "main" ⟨0⟩ [] false),
    .layout (.appendBlock ⟨0⟩ "entry"),
    .setCursor (some { block := ⟨0⟩ }),
    .emission (.cast .bitcast ⟨0⟩ ⟨2⟩),
    .emission (.cast .bitcast ⟨2⟩ ⟨4⟩),
    .emission (.ret ⟨1⟩)]

/-- The builder after those calls. -/
def splitBits : Builder := Builder.replay { module := { name := "splitting" } } splitting

theorem splitBits_attained : splitBits.Attained :=
  (Builder.Replays.reachable (by decide +kernel) (Builder.reachable_empty "splitting")).attained

/-- The second conversion leaves both lanes where they are. -/
theorem splitBits_floats : let t := splitBits.module.types
    let d : Datum := .aggregate [.int 32 1, .int 32 0]
    t.WellFormed ∧ Builder.isCastLegal t .bitcast ⟨2⟩ ⟨4⟩ ∧ t.Shape ⟨2⟩ d ∧ t.Laned ⟨2⟩ ⟨4⟩ ∧
      ∃ r, d.cast t .bitcast ⟨4⟩ = .ok r ∧ t.Shape ⟨4⟩ r := by
  intro t d
  have ht : t.WellFormed := splitBits_attained.sturdy.healthy.sound.types
  have hint : t.entry ⟨0⟩ = .int 32 := by decide +kernel
  have hfloat : t.entry ⟨3⟩ = .float := by decide +kernel
  have hsource : t.entry ⟨2⟩ = .vector ⟨0⟩ 2 := by decide +kernel
  have htarget : t.entry ⟨4⟩ = .vector ⟨3⟩ 2 := by decide +kernel
  have hd : t.Shape ⟨2⟩ d := by simp [d, Shape, Shapes, hsource, hint, Ty.members]
  have hlaned : t.Laned ⟨2⟩ ⟨4⟩ :=
    (laned_vectors hsource htarget).mpr (by simp [kind, hint, hfloat, Ty.kind])
  have hc : Builder.isCastLegal t .bitcast ⟨2⟩ ⟨4⟩ := by decide +kernel
  exact ⟨ht, hc, hd, hlaned, (Datum.bitcast_runs ht hc hd).1 hlaned⟩

/-- The first conversion is built and verified, and fails in every run. -/
theorem splitBits_fails : splitBits.Attained ∧ splitBits.module.verify = .ok () ∧
    Builder.isCastLegal splitBits.module.types .bitcast ⟨1⟩ ⟨2⟩ ∧
    (⟨splitBits.module, .standard, {}⟩ : Setting).runFunction ⟨0⟩ [] =
      .error (.unsupportedBitcast (.int 64 1) (.vector ⟨0⟩ 2)) :=
  ⟨splitBits_attained, by decide +kernel, by decide +kernel, by decide +kernel⟩

end SsaKit
