import SsaKit.Proofs.Token

/-! A value that is written down is read again. -/
namespace SsaKit.Json

variable {j : Json} {items : List Json} {members : List (Option String × Json)}
  {open_ : List Frame} {r : List Token}

/-! ### Tokens to values -/

/-- No value ends an array that was just opened. -/
theorem step_item (j : Json) (r : List Token) (open_ : List Frame) :
    (tokens j r).foldlM step (.item open_) =
      (tokens j r).foldlM step (.value (.array [] :: open_)) := by
  cases j <;> rfl

/-- Tokens of a value bring the reader from where a value is expected to where it is done. -/
def Spelled (j : Json) : Prop :=
  ∀ r open_, (tokens j r).foldlM step (.value open_) = r.foldlM step (.done j open_)

theorem foldlM_items (h : ∀ j ∈ items, Spelled j) (hne : items ≠ []) (done : List Json)
    (r : List Token) (open_ : List Frame) :
    (itemTokens items (.closeArray :: r)).foldlM step (.value (.array done :: open_)) =
      r.foldlM step (.done (.array (done.reverse ++ items)) open_) := by
  induction items generalizing done with
  | nil => exact absurd rfl hne
  | cons j items ih =>
    have hj := h j List.mem_cons_self
    cases items with
    | nil =>
      rw [itemTokens, hj]
      simp [step]
    | cons j' items =>
      rw [itemTokens, hj]
      have hrest := ih (fun k hk => h k (List.mem_cons_of_mem _ hk)) (by simp) (j :: done)
      simp only [List.foldlM_cons, step, Option.bind_eq_bind, Option.bind_some, hrest,
        List.reverse_cons, List.append_assoc, List.singleton_append]
      · simp

theorem foldlM_members (h : ∀ e ∈ members, Spelled e.2) (hne : members ≠ [])
    (done : List (Option String × Json)) (r : List Token) (open_ : List Frame) :
    (memberTokens members (.closeObject :: r)).foldlM step (.key done open_) =
      r.foldlM step (.done (.object (done.reverse ++ members)) open_) := by
  induction members generalizing done with
  | nil => exact absurd rfl hne
  | cons e members ih =>
    have he := h e List.mem_cons_self
    cases members with
    | nil =>
      rw [memberTokens]
      simp [step, he _ _]
    | cons e' members =>
      have hrest := ih (fun k hk => h k (List.mem_cons_of_mem _ hk)) (by simp) (e :: done)
      rw [memberTokens]
      · simp [step, he _ _, hrest]
      · simp

theorem spelled : ∀ j : Json, Spelled j
  | .null | .bool _ | .number _ | .text _ => fun _ _ => rfl
  | .array items => fun r open_ => by
    rw [tokens, List.foldlM_cons]
    show (itemTokens items (.closeArray :: r)).foldlM step (.item open_) = _
    cases items with
    | nil => rfl
    | cons j items =>
      have hitem : (itemTokens (j :: items) (.closeArray :: r)).foldlM step (.item open_) =
          (itemTokens (j :: items) (.closeArray :: r)).foldlM step (.value (.array [] :: open_)) := by
        cases items <;> exact step_item j _ open_
      rw [hitem, foldlM_items (fun k hk => spelled k) (by simp)]
      rfl
  | .object members => fun r open_ => by
    rw [tokens, List.foldlM_cons]
    show (memberTokens members (.closeObject :: r)).foldlM step (.member open_) = _
    cases members with
    | nil => rfl
    | cons e members =>
      have hmember : (memberTokens (e :: members) (.closeObject :: r)).foldlM step (.member open_) =
          (memberTokens (e :: members) (.closeObject :: r)).foldlM step (.key [] open_) := by
        cases members <;> rfl
      rw [hmember, foldlM_members (fun k hk => spelled k.2) (by simp)]
      rfl
termination_by j => sizeOf j
decreasing_by
  · have := List.sizeOf_lt_of_mem hk
    simp only [Json.array.sizeOf_spec]
    omega
  · have := List.sizeOf_lt_of_mem hk
    have : sizeOf k.2 < sizeOf k := by
      cases k
      simp only [Prod.mk.sizeOf_spec]
      omega
    simp only [Json.object.sizeOf_spec]
    omega

theorem ofTokens?_tokens (j : Json) : ofTokens? (tokens j []) = some j := by
  rw [ofTokens?, spelled j [] []]
  rfl

/-! ### Values to bytes -/

/-- Every text of the value is one, and its numbers are literals. -/
inductive Plain : Json → Prop
  | null : Plain .null
  | bool (b : Bool) : Plain (.bool b)
  | number {literal : String} (h : Literal literal) : Plain (.number literal)
  | text (s : String) : Plain (.text (some s))
  | array {items : List Json} (h : ∀ j ∈ items, Plain j) : Plain (.array items)
  | object {members : List (Option String × Json)} (hkey : ∀ e ∈ members, e.1.isSome)
      (h : ∀ e ∈ members, Plain e.2) : Plain (.object members)

/-- Tokens that are scanned again and do not go on with a number. -/
structure Tail (r : List Token) : Prop where
  clear : ∀ t ∈ r, t.Clear
  scans : Scans r
  ends : ∀ t ∈ r.head?, t.isNumber = false

theorem Tail.nil : Tail [] := ⟨by simp, scans_nil, by simp⟩

/-- Tokens that are scanned again, whatever they start with. -/
structure Clean (r : List Token) : Prop where
  clear : ∀ t ∈ r, t.Clear
  scans : Scans r

theorem Clean.cons {t : Token} (h : Clean r) (ht : t.Clear) (hn : t.isNumber = false) :
    Tail (t :: r) where
  clear u hu := by
    rcases List.mem_cons.mp hu with rfl | hu
    · exact ht
    · exact h.clear u hu
  scans := scans_cons ht h.clear (by simp [hn]) h.scans
  ends := by simpa using hn

theorem Tail.clean (h : Tail r) : Clean r := ⟨h.clear, h.scans⟩

theorem Tail.number {s : String} (h : Tail r) (hs : Literal s) : Clean (.number s :: r) where
  clear u hu := by
    rcases List.mem_cons.mp hu with rfl | hu
    · exact hs
    · exact h.clear u hu
  scans := scans_cons hs h.clear (fun _ => h.ends) h.scans

theorem clean_items (h : ∀ j ∈ items, ∀ r, Tail r → Clean (tokens j r)) (hr : Tail r) :
    Clean (itemTokens items r) := by
  induction items with
  | nil => exact hr.clean
  | cons j items ih =>
    have hj := h j List.mem_cons_self
    cases items with
    | nil => exact hj r hr
    | cons j' items =>
      rw [itemTokens]
      · exact hj _ ((ih fun k hk => h k (List.mem_cons_of_mem _ hk)).cons trivial rfl)
      · simp

theorem clean_member {e : Option String × Json} (he : ∀ r, Tail r → Clean (tokens e.2 r))
    (hkey : e.1.isSome) (hr : Tail r) : Tail (.text e.1 :: .colon :: tokens e.2 r) :=
  ((he r hr).cons (t := .colon) trivial rfl).clean.cons hkey rfl

theorem clean_members (h : ∀ e ∈ members, ∀ r, Tail r → Clean (tokens e.2 r))
    (hkey : ∀ e ∈ members, e.1.isSome) (hr : Tail r) : Tail (memberTokens members r) := by
  induction members with
  | nil => exact hr
  | cons e members ih =>
    have he {r : List Token} (hr : Tail r) : Tail (.text e.1 :: .colon :: tokens e.2 r) :=
      clean_member (h e List.mem_cons_self) (hkey e List.mem_cons_self) hr
    cases members with
    | nil => exact he hr
    | cons e' members =>
      rw [memberTokens]
      · exact he ((ih (fun k hk => h k (List.mem_cons_of_mem _ hk))
          fun k hk => hkey k (List.mem_cons_of_mem _ hk)).clean.cons trivial rfl)
      · simp

theorem Plain.clean (h : j.Plain) (hr : Tail r) : Clean (tokens j r) := by
  induction h generalizing r with
  | null => exact (hr.clean.cons (t := .null) trivial rfl).clean
  | bool b => exact (hr.clean.cons (t := .bool b) trivial rfl).clean
  | number h => exact hr.number h
  | text s => exact (hr.clean.cons (t := .text (some s)) rfl rfl).clean
  | array _ ih =>
    have hclose : Tail (.closeArray :: r) := hr.clean.cons trivial rfl
    exact ((clean_items (fun j hj r hr => ih j hj hr) hclose).cons (t := .openArray) trivial rfl).clean
  | object hkey _ ih =>
    have hclose : Tail (.closeObject :: r) := hr.clean.cons trivial rfl
    exact ((clean_members (fun e he r hr => ih e he hr) hkey hclose).clean.cons
      (t := .openObject) trivial rfl).clean

/-- A value is read from its text. -/
theorem ofBytes?_bytes (h : j.Plain) : Json.ofBytes? j.bytes = some j := by
  rw [Json.ofBytes?, Json.bytes, ofBytes?_of_scans (h.clean .nil).scans]
  exact ofTokens?_tokens j

end SsaKit.Json
