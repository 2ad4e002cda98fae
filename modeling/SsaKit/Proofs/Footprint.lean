import SsaKit.Proofs.Containment
import SsaKit.Proofs.Weight

/-! The number of nodes that a type is taken to have is the number of nodes of its zero, unless a word
is too small for that number or for the one of a type within it. -/
namespace SsaKit

namespace TypeTable

open Relation

variable {t : TypeTable} {p id : TypeId} {n : Nat} {f : TypeId → Option Nat} {zeros : TypeId → Datum}

theorem fits_eq_none : fits n = none ↔ wordSize ≤ n := by
  unfold fits
  split
  · simp only [reduceCtorEq, false_iff]
    omega
  · simp only [true_iff]
    omega

theorem fits_of_lt (h : n < wordSize) : fits n = some n := if_pos h

/-! ### One level -/

/-- Totals that grow from one field to the next one are refused as soon as the last one would be. -/
theorem foldlM_fits {fields : List TypeId} (h : ∀ p ∈ fields, f p = some (zeros p).nodes)
    {start : Nat} (hstart : start < wordSize) :
    fields.foldlM (fun total field => do fits (total + (← f field))) start =
      fits (start + Datum.nodesAll (fields.map zeros)) := by
  induction fields generalizing start with
  | nil => exact (fits_of_lt hstart).symm
  | cons field fields ih =>
    obtain ⟨hfield, hfields⟩ := List.forall_mem_cons.mp h
    rw [List.foldlM_cons, hfield, List.map_cons, Datum.nodesAll, ← Nat.add_assoc]
    show (fits (start + (zeros field).nodes)).bind _ = _
    rcases Nat.lt_or_ge (start + (zeros field).nodes) wordSize with hlt | hge
    · rw [fits_of_lt hlt]
      exact ih hfields hlt
    · rw [fits_eq_none.mpr hge]
      exact (fits_eq_none.mpr (by omega)).symm

theorem foldlM_none {fields : List TypeId} (hp : p ∈ fields) (h : f p = none) (start : Nat) :
    fields.foldlM (fun total field => do fits (total + (← f field))) start = none := by
  induction fields generalizing start with
  | nil => cases hp
  | cons field fields ih =>
    rw [List.foldlM_cons]
    rcases List.mem_cons.mp hp with rfl | hp
    · rw [h]
      rfl
    · cases f field with
      | none => rfl
      | some each =>
        show (fits (start + each)).bind _ = none
        cases fits (start + each) with
        | none => rfl
        | some total => exact ih hp total

theorem fits_row {each length : Nat} :
    (do fits ((← fits (each * length)) + 1) : Option Nat) = fits (each * length + 1) := by
  show (fits (each * length)).bind _ = _
  rcases Nat.lt_or_ge (each * length) wordSize with hlt | hge
  · rw [fits_of_lt hlt]
    rfl
  · rw [fits_eq_none.mpr hge]
    exact (fits_eq_none.mpr (by omega)).symm

/-- Where the nodes of the parts are known, those of their aggregate are. -/
theorem footprintLevel_eq_fits (h : ∀ p ∈ (t.entry id).parts, f p = some (zeros p).nodes) :
    t.footprintLevel f id = fits (t.zeroLevel zeros id).nodes := by
  have hone : fits 1 = some 1 := by decide
  unfold footprintLevel zeroLevel
  cases he : t.entry id with
  | array element length | vector element length =>
    dsimp only
    rw [h element (by simp [he, Ty.parts])]
    show (do fits ((← fits ((zeros element).nodes * length)) + 1)) = _
    rw [fits_row]
    simp [Datum.nodes, Datum.nodesAll_eq, Nat.mul_comm]
  | struct name fields isPacked =>
    cases fields with
    | none => exact hone.symm
    | some fields =>
      dsimp only
      rw [foldlM_fits (fun p hp => h p (by simpa [he, Ty.parts] using hp)) (by decide)]
      simp [Datum.nodes, Nat.add_comm]
  | _ => exact hone.symm

theorem footprintLevel_eq_none (hp : t.Holds p id) (h : f p = none) :
    t.footprintLevel f id = none := by
  unfold Holds at hp
  unfold footprintLevel
  cases he : t.entry id with
  | array element length | vector element length =>
    obtain rfl : p = element := by simpa [he, Ty.parts] using hp
    dsimp only
    rw [h]
    rfl
  | struct name fields isPacked =>
    cases fields with
    | none => simp [he, Ty.parts] at hp
    | some fields => exact foldlM_none (by simpa [he, Ty.parts] using hp) h 1
  | _ => simp [he, Ty.parts] at hp

/-! ### All levels -/

section

variable (hin : ∀ p id, t.Holds p id → t.contains p)
include hin

theorem footprint_eq_none_of_holds (hid : Acc t.Holds id) (hp : t.Holds p id)
    (h : t.footprint p = none) : t.footprint id = none := by
  rw [(footprint_resolves hin hid).1]
  exact footprintLevel_eq_none hp h

theorem footprint_eq_fits (hid : Acc t.Holds id)
    (h : ∀ p, t.Holds p id → t.footprint p ≠ none) :
    t.footprint id = fits (t.zero id).nodes := by
  rw [(footprint_resolves hin hid).1, (zero_resolves hin hid).1]
  refine footprintLevel_eq_fits fun p hp => ?_
  obtain ⟨n, hn⟩ := Option.ne_none_iff_exists'.mp (h p hp)
  rw [hn, nodes_zero hn]

/-- Only numbers that a word can hold are answered. -/
theorem footprint_lt (hid : Acc t.Holds id) (h : t.footprint id = some n) : n < wordSize := by
  have hparts : ∀ p, t.Holds p id → t.footprint p ≠ none := fun p hp hnone => by
    rw [footprint_eq_none_of_holds hin hid hp hnone] at h
    cases h
  rw [footprint_eq_fits hin hid hparts] at h
  obtain rfl := fits_eq_some h
  by_contra hge
  rw [fits_eq_none.mpr (by omega)] at h
  cases h

/-- There is no answer where a word cannot hold the number of nodes of the type or of one within
it, and only there. -/
theorem footprint_eq_none_iff (hid : Acc t.Holds id) : t.footprint id = none ↔
    ∃ p, ReflTransGen t.Holds p id ∧ wordSize ≤ (t.zero p).nodes := by
  constructor
  · induction hid with
    | intro id hparts ih =>
      intro hnone
      by_cases hpart : ∃ p, t.Holds p id ∧ t.footprint p = none
      · obtain ⟨p, hp, hnone⟩ := hpart
        obtain ⟨k, hk, hlarge⟩ := ih p hp hnone
        exact ⟨k, hk.tail hp, hlarge⟩
      · have heq := footprint_eq_fits hin (.intro id hparts) fun p hp h => hpart ⟨p, hp, h⟩
        exact ⟨id, .refl, fits_eq_none.mp (heq ▸ hnone)⟩
  · rintro ⟨p, hp, hlarge⟩
    have hbelow : ∀ k, ReflTransGen t.Holds p k → Acc t.Holds k → t.footprint k = none := by
      intro k hk
      induction hk with
      | refl =>
        intro hacc
        by_contra hsome
        obtain ⟨n, hn⟩ := Option.ne_none_iff_exists'.mp hsome
        have := footprint_lt hin hacc hn
        have := nodes_zero hn
        omega
      | tail _ hk ih => exact fun hacc => footprint_eq_none_of_holds hin hacc hk (ih (hacc.inv hk))
    exact hbelow id hp hid

end

/-! ### Tables of the toolkit -/

theorem WellFormed.contained (h : t.WellFormed) : t.Contained where
  isSized p id hp := isSized_of_mem_parts (h.fits id (contains_of_holds hp)) hp
  wellFounded := by
    obtain ⟨rank, -, hrank⟩ := h.ranked
    exact Subrelation.wf (fun hp => hrank _ _ hp) (measure rank).wf

theorem zero_of_not_isSized (h : t.isSized id = false) : t.zero id = .void := by
  unfold isSized at h
  unfold zero
  rw [zero.build]
  cases he : t.entry id with
  | struct name fields isPacked => cases fields <;> simp_all [Ty.isSized]
  | _ => simp_all [Ty.isSized]

/-- However a table was obtained, the memory counted for a type is the number of nodes of its zero,
which has the shape of the type. No number is given exactly when a word is too small for the nodes of
the type, or for those of a type that it holds by value. -/
theorem Obtained.footprint_exact (h : t.Obtained) (id : TypeId) :
    (∀ n, t.footprint id = some n → (t.zero id).nodes = n) ∧
    (t.isSized id → t.Shape id (t.zero id)) ∧ (t.isSized id = false → t.zero id = .void) ∧
    (t.footprint id = none ↔ ∃ p, ReflTransGen t.Holds p id ∧ 2 ^ 64 ≤ (t.zero p).nodes) := by
  obtain ⟨hsized, hwell⟩ := h.wellFormed.contained
  have hin (p id : TypeId) (hp : t.Holds p id) : t.contains p := contains_of_isSized (hsized p id hp)
  exact ⟨fun _ => nodes_zero, h.wellFormed.shape_zero, zero_of_not_isSized,
    footprint_eq_none_iff hin (hwell.apply id)⟩

/-! ### An example -/

/-- A pair of a number and a row of three, and as many pairs as a word counts, with none of those in
the last type. -/
def crowded : TypeTable :=
  replay {} [.ofType (.int 32), .ofType (.array ⟨0⟩ 3), .namedStruct "pair" [⟨0⟩, ⟨1⟩] false,
    .ofType (.array ⟨2⟩ (2 ^ 64 - 1)), .ofType (.array ⟨3⟩ 0)]

theorem crowded_counted : crowded.Obtained ∧ (crowded.zero ⟨2⟩).nodes = 6 ∧
    crowded.Shape ⟨2⟩ (crowded.zero ⟨2⟩) ∧
    ∃ p, ReflTransGen crowded.Holds p ⟨4⟩ ∧ 2 ^ 64 ≤ (crowded.zero p).nodes := by
  have hobtained : crowded.Obtained := .inl (Replays.reachable (by decide +kernel) .refl)
  obtain ⟨hnodes, hshape, -, -⟩ := hobtained.footprint_exact ⟨2⟩
  obtain ⟨-, -, -, hnone⟩ := hobtained.footprint_exact ⟨4⟩
  exact ⟨hobtained, hnodes 6 (by decide +kernel), hshape (by decide +kernel),
    hnone.mp (by decide +kernel)⟩

end TypeTable
end SsaKit
