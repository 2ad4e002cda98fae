import Mathlib.Data.List.Induction
import Mathlib.Data.Nat.Init
import Mathlib.Data.Option.Basic
import SsaKit.Proofs.StableTypes

/-! The text of a type, read from its end. No text ends in another one, so it says which type it is
of, unless named structs are in it. -/
namespace SsaKit

namespace Ty

/-! ### Lists of characters that end alike -/

section Endings

variable {α : Type} {code : α → List Char} {ok : α → Prop} {a b : α} {l m : List α}
  {xs ys us vs start : List Char} {c : Char}

/-- Behind whatever stands in front of them, these characters are told from those of all others. -/
def Apart (code : α → List Char) (ok : α → Prop) (a : α) : Prop :=
  ∀ b, ok b → ∀ xs ys, xs ++ code a = ys ++ code b → a = b ∧ xs = ys

theorem eq_of_append_digits {ds es : List Char} (hd : ∀ d ∈ ds, d.isDigit)
    (he : ∀ e ∈ es, e.isDigit) (hc : c.isDigit = false) (h : xs ++ c :: ds = ys ++ c :: es) :
    ds = es ∧ xs = ys := by
  have hrev := congrArg List.reverse h
  simp only [List.reverse_append, List.reverse_cons, List.append_assoc,
    List.singleton_append] at hrev
  have hstop (zs : List Char) (ws : List Char) (hw : ∀ w ∈ ws, w.isDigit) :
      (ws.reverse ++ c :: zs).takeWhile Char.isDigit = ws.reverse := by
    rw [List.takeWhile_append_of_pos (by simpa using hw), List.takeWhile_cons_of_neg (by simp [hc]),
      List.append_nil]
  have hdigits := congrArg (List.takeWhile Char.isDigit) hrev
  rw [hstop _ ds hd, hstop _ es he] at hdigits
  obtain rfl := List.reverse_inj.mp hdigits
  exact ⟨rfl, (List.append_left_inj _).mp h⟩

theorem toDigits_inj {n k : Nat} (h : Nat.toDigits 10 n = Nat.toDigits 10 k) : n = k := by
  have hread := congrArg (fun ds => Nat.ofDigitChars 10 ds 0) h
  simpa using hread

theorem eq_of_append_number {n k : Nat} (hc : c.isDigit = false)
    (h : xs ++ c :: Nat.toDigits 10 n = ys ++ c :: Nat.toDigits 10 k) : n = k ∧ xs = ys := by
  have hdigits (n : Nat) : ∀ d ∈ Nat.toDigits 10 n, d.isDigit := fun d hd =>
    Nat.isDigit_of_mem_toDigits (by decide) (by decide) hd
  obtain ⟨hnumber, hrest⟩ := eq_of_append_digits (hdigits n) (hdigits k) hc h
  exact ⟨toDigits_inj hnumber, hrest⟩

/-- Between the items of a list. -/
def comma : List Char := [',', ' ']

/-- A list of items that is open for one more. -/
def unfinished (code : α → List Char) (start : List Char) (l : List α) : List Char :=
  start ++ l.flatMap fun a => code a ++ comma

theorem start_intercalate (start : List Char) (l : List α) (a : α) :
    start ++ comma.intercalate ((l ++ [a]).map code) = unfinished code start l ++ code a := by
  unfold unfinished
  induction l generalizing start with
  | nil => simp [List.intercalate]
  | cons b l ih =>
    have hcons : comma.intercalate ((b :: l ++ [a]).map code) =
        code b ++ comma ++ comma.intercalate ((l ++ [a]).map code) := by
      cases l <;> simp [List.intercalate_cons_cons]
    rw [hcons, ← List.append_assoc, ih]
    simp

theorem apart_unfinished (hstart : ∀ us vs, us ++ start ≠ vs ++ comma)
    (hl : ∀ a ∈ l, Apart code ok a) (hm : ∀ b ∈ m, ok b)
    (h : xs ++ unfinished code start l = ys ++ unfinished code start m) : l = m ∧ xs = ys := by
  have hsnoc (l : List α) (a : α) :
      unfinished code start (l ++ [a]) = unfinished code start l ++ code a ++ comma := by
    simp [unfinished]
  have hnil : unfinished code start [] = start := by simp [unfinished]
  induction l using List.reverseRecOn generalizing m with
  | nil =>
    obtain rfl | ⟨m, b, rfl⟩ := m.eq_nil_or_concat'
    · exact ⟨rfl, (List.append_left_inj _).mp h⟩
    · rw [hnil, hsnoc, ← List.append_assoc] at h
      exact absurd h (hstart _ _)
  | append_singleton l a ih =>
    obtain rfl | ⟨m, b, rfl⟩ := m.eq_nil_or_concat'
    · rw [hnil, hsnoc, ← List.append_assoc] at h
      exact absurd h.symm (hstart _ _)
    · simp only [hsnoc, ← List.append_assoc, List.append_left_inj] at h
      obtain ⟨rfl, hrest⟩ := hl a (by simp) b (hm b (by simp)) _ _ h
      obtain ⟨rfl, hxs⟩ := ih (fun c hc => hl c (List.mem_append_left _ hc))
        (fun c hc => hm c (List.mem_append_left _ hc)) hrest
      exact ⟨rfl, hxs⟩

/-- Lists of items are told apart behind a start that looks neither like an item nor like what
stands between two of them. -/
theorem apart_intercalate (hstart : ∀ us vs, us ++ start ≠ vs ++ comma)
    (hclear : ∀ a ∈ l ++ m, ∀ us vs, us ++ start ≠ vs ++ code a)
    (hl : ∀ a ∈ l, Apart code ok a) (hm : ∀ b ∈ m, ok b)
    (h : xs ++ (start ++ comma.intercalate (l.map code)) =
      ys ++ (start ++ comma.intercalate (m.map code))) : l = m ∧ xs = ys := by
  have hnil : comma.intercalate (([] : List α).map code) = [] := rfl
  obtain rfl | ⟨l, a, rfl⟩ := l.eq_nil_or_concat' <;>
    obtain rfl | ⟨m, b, rfl⟩ := m.eq_nil_or_concat'
  · exact ⟨rfl, (List.append_left_inj _).mp h⟩
  · rw [start_intercalate, hnil, List.append_nil, ← List.append_assoc] at h
    exact absurd h (hclear b (by simp) _ _)
  · rw [start_intercalate, hnil, List.append_nil, ← List.append_assoc] at h
    exact absurd h.symm (hclear a (by simp) _ _)
  · rw [start_intercalate, start_intercalate, ← List.append_assoc, ← List.append_assoc] at h
    obtain ⟨rfl, hrest⟩ := hl a (by simp) b (hm b (by simp)) _ _ h
    obtain ⟨rfl, hxs⟩ := apart_unfinished hstart (fun c hc => hl c (List.mem_append_left _ hc))
      (fun c hc => hm c (List.mem_append_left _ hc)) hrest
    exact ⟨rfl, hxs⟩

end Endings

/-! ### Characters of a type -/

/-- Fields behind a brace that is not closed yet. -/
def openSpelling (fields : List (List Char)) : List Char :=
  if fields.isEmpty then ['\x7b'] else ['\x7b', ' '] ++ comma.intercalate fields ++ [' ']

/-- Fields between braces, between angle brackets too when packed. -/
def bodySpelling (fields : List (List Char)) : Bool → List Char
  | false => openSpelling fields ++ ['\x7d']
  | true => '<' :: openSpelling fields ++ ['\x7d'] ++ ['>']

/-- The parameters of a function, with a mark behind them if more arguments may follow. -/
def items (params : List TypeId) (isVariadic : Bool) : List (Option TypeId) :=
  params.map some ++ if isVariadic then [none] else []

/-- The characters of a parameter or of the mark. -/
def itemSpelling (below : TypeId → List Char) : Option TypeId → List Char
  | some id => below id
  | none => ['.', '.', '.']

/-- A length and an element between brackets. -/
def rowSpelling (first last : Char) (length : Nat) (element : List Char) : List Char :=
  first :: Nat.toDigits 10 length ++ [' ', 'x', ' '] ++ element ++ [last]

/-- The characters of a type, from those of the types that it refers to. -/
def spelling (below : TypeId → List Char) : Ty → List Char
  | void => ['v', 'o', 'i', 'd']
  | int bits => 'i' :: Nat.toDigits 10 bits
  | float => ['f', 'l', 'o', 'a', 't']
  | double => ['d', 'o', 'u', 'b', 'l', 'e']
  | pointer pointee => below pointee ++ ['*']
  | array element length => rowSpelling '[' ']' length (below element)
  | vector element length => rowSpelling '<' '>' length (below element)
  | struct (some name) _ _ => '%' :: name.toList
  | struct none fields isPacked => bodySpelling ((fields.getD []).map below) isPacked
  | function result params isVariadic =>
    below result ++ ([' ', '('] ++ comma.intercalate ((items params isVariadic).map
      (itemSpelling below))) ++ [')']

theorem spelling_congr {f g : TypeId → List Char} {ty : Ty} (hn : ty.structName = none)
    (h : ∀ c ∈ ty.children, f c = g c) : ty.spelling f = ty.spelling g := by
  cases ty with
  | void | int | float | double => rfl
  | pointer pointee => simp [spelling, h pointee (by simp [children])]
  | array element length | vector element length =>
    simp [spelling, h element (by simp [children])]
  | struct name fields isPacked =>
    obtain rfl : name = none := hn
    have hfields : (fields.getD []).map f = (fields.getD []).map g := List.map_congr_left h
    simp only [spelling]
    rw [hfields]
  | function result params isVariadic =>
    obtain ⟨hresult, hparams⟩ := List.forall_mem_cons.mp h
    have hitems : (items params isVariadic).map (itemSpelling f) =
        (items params isVariadic).map (itemSpelling g) := by
      refine List.map_congr_left fun item hitem => ?_
      cases item with
      | none => rfl
      | some c =>
        refine hparams c ?_
        cases isVariadic <;> simpa [items] using hitem
    simp only [spelling]
    rw [hresult, hitems]

/-! ### How a text closes -/

/-- How the text of a structural type closes, with one digit for all of them. -/
def closer : Ty → Char
  | void => 'd'
  | int _ => '0'
  | float => 't'
  | double => 'e'
  | pointer _ => '*'
  | array _ _ => ']'
  | vector _ _ => '>'
  | struct _ _ isPacked => if isPacked then '>' else '\x7d'
  | function _ _ _ => ')'

/-- The last character, with one digit for all of them. -/
def closing (cs : List Char) : Option Char := cs.getLast?.map fun c => if c.isDigit then '0' else c

theorem closing_concat (cs : List Char) (c : Char) :
    closing (cs ++ [c]) = some (if c.isDigit then '0' else c) := by
  simp [closing]

/-- Behind whatever stands in front of them, the characters close like this. -/
def Closes (cs : List Char) (c : Char) : Prop := ∀ us, closing (us ++ cs) = some c

section

variable {cs ds : List Char} {c d : Char}

theorem closes_concat (cs : List Char) (hc : c.isDigit = false) : Closes (cs ++ [c]) c := by
  intro us
  rw [← List.append_assoc, closing_concat, if_neg (by simp [hc])]

theorem closes_number (cs : List Char) (n : Nat) : Closes (cs ++ Nat.toDigits 10 n) '0' := by
  obtain hnil | ⟨ds, d, hd⟩ := (Nat.toDigits 10 n).eq_nil_or_concat'
  · exact absurd hnil Nat.toDigits_ne_nil
  · have hmem : d ∈ Nat.toDigits 10 n := hd ▸ by simp
    have hdigit : d.isDigit := Nat.isDigit_of_mem_toDigits (by decide) (by decide) hmem
    intro us
    rw [hd, ← List.append_assoc, ← List.append_assoc, closing_concat, if_pos hdigit]

theorem Closes.unique (h : Closes cs c) (h' : Closes cs d) : c = d :=
  Option.some.inj ((h []).symm.trans (h' []))

theorem Closes.append (h : Closes cs c) (us : List Char) : Closes (us ++ cs) c := by
  intro vs
  rw [← List.append_assoc]
  exact h _

theorem Closes.ne (h : Closes cs c) (h' : Closes ds d) (hne : c ≠ d) (us vs : List Char) :
    us ++ cs ≠ vs ++ ds := fun he =>
  hne ((h.append us).unique (he ▸ h'.append vs))

/-- Neither a space nor an opening bracket nor a dot stands at the end of a text. -/
theorem ne_closer (hc : c ∈ [' ', '(', '.']) (ty : Ty) : c ≠ ty.closer := by
  rintro rfl
  cases ty with
  | struct _ _ isPacked => cases isPacked <;> simp [closer] at hc
  | _ => simp [closer] at hc

end

theorem spelling_closes {ty : Ty} {below : TypeId → List Char} (hn : ty.structName = none) :
    Closes (ty.spelling below) ty.closer := by
  cases ty with
  | void => exact closes_concat ['v', 'o', 'i'] (by decide)
  | int bits => exact closes_number ['i'] bits
  | float => exact closes_concat ['f', 'l', 'o', 'a'] (by decide)
  | double => exact closes_concat ['d', 'o', 'u', 'b', 'l'] (by decide)
  | pointer pointee => exact closes_concat _ (by decide)
  | array element length | vector element length => exact closes_concat _ (by decide)
  | struct name fields isPacked =>
    obtain rfl : name = none := hn
    cases isPacked <;> exact closes_concat _ (by decide)
  | function result params isVariadic => exact closes_concat _ (by decide)

/-! ### One level -/

section

variable {below : TypeId → List Char} {ok : TypeId → Prop} {xs ys : List Char}

theorem row_apart {first last : Char} {e e' : TypeId} {n n' : Nat} (hfirst : first.isDigit = false)
    (he : Apart below ok e) (hok : ok e')
    (h : xs ++ rowSpelling first last n (below e) = ys ++ rowSpelling first last n' (below e')) :
    e = e' ∧ n = n' ∧ xs = ys := by
  simp only [rowSpelling, ← List.append_assoc, List.append_left_inj] at h
  obtain ⟨rfl, hrest⟩ := he e' hok _ _ h
  rw [List.append_left_inj] at hrest
  obtain ⟨rfl, hxs⟩ := eq_of_append_number hfirst hrest
  exact ⟨rfl, rfl, hxs⟩

variable (hends : ∀ c, ok c → ∃ ty : Ty, Closes (below c) ty.closer)
include hends

theorem open_apart {l m : List TypeId} (hl : ∀ c ∈ l, ok c ∧ Apart below ok c) (hm : ∀ c ∈ m, ok c)
    (h : xs ++ openSpelling (l.map below) = ys ++ openSpelling (m.map below)) :
    l = m ∧ xs = ys := by
  have hbrace (us vs cs : List Char) : us ++ ['\x7b'] ≠ vs ++ (cs ++ [' ']) :=
    (closes_concat [] (by decide)).ne (closes_concat cs (by decide)) (by decide) us vs
  have hstart (us vs : List Char) : us ++ ['\x7b', ' '] ≠ vs ++ comma := fun he => by
    cases List.append_inj_right' he rfl
  have hitems (c : TypeId) (cs : List TypeId) : openSpelling ((c :: cs).map below) =
      ['\x7b', ' '] ++ comma.intercalate ((c :: cs).map below) ++ [' '] := rfl
  rcases l with _ | ⟨c, l⟩ <;> rcases m with _ | ⟨d, m⟩
  · exact ⟨rfl, (List.append_left_inj _).mp h⟩
  · exact absurd h (hbrace _ _ _)
  · exact absurd h.symm (hbrace _ _ _)
  · rw [hitems, hitems, ← List.append_assoc, ← List.append_assoc _ _ [' '],
      List.append_left_inj] at h
    refine apart_intercalate hstart (fun a ha us vs => ?_) (fun a ha => (hl a ha).2) hm h
    have hok : ok a := (List.mem_append.mp ha).elim (fun ha => (hl a ha).1) (hm a)
    obtain ⟨ty, hty⟩ := hends a hok
    exact (closes_concat ['\x7b'] (by decide)).ne hty (ne_closer (by simp) ty) us vs

theorem body_apart {l m : List TypeId} {isPacked : Bool} (hl : ∀ c ∈ l, ok c ∧ Apart below ok c)
    (hm : ∀ c ∈ m, ok c)
    (h : xs ++ bodySpelling (l.map below) isPacked = ys ++ bodySpelling (m.map below) isPacked) :
    l = m ∧ xs = ys := by
  cases isPacked with
  | false =>
    simp only [bodySpelling, ← List.append_assoc, List.append_left_inj] at h
    exact open_apart hends hl hm h
  | true =>
    simp only [bodySpelling, ← List.append_assoc, List.append_left_inj] at h
    rw [List.append_cons, List.append_cons ys] at h
    obtain ⟨rfl, hxs⟩ := open_apart hends hl hm h
    exact ⟨rfl, (List.append_left_inj _).mp hxs⟩

omit hends in
theorem mark_closes : Closes (itemSpelling below none) '.' := closes_concat ['.', '.'] (by decide)

theorem item_apart {c : TypeId} (hok : ok c) (hc : Apart below ok c) :
    Apart (itemSpelling below) (fun item => ∀ c, item = some c → ok c) (some c) := by
  intro item hitem xs ys h
  cases item with
  | none =>
    obtain ⟨ty, hty⟩ := hends c hok
    exact absurd h.symm (mark_closes.ne hty (ne_closer (by simp) ty) ys xs)
  | some d =>
    obtain ⟨rfl, hxs⟩ := hc d (hitem d rfl) xs ys h
    exact ⟨rfl, hxs⟩

theorem mark_apart :
    Apart (itemSpelling below) (fun item => ∀ c, item = some c → ok c) none := by
  intro item hitem xs ys h
  cases item with
  | none => exact ⟨rfl, (List.append_left_inj _).mp h⟩
  | some d =>
    obtain ⟨ty, hty⟩ := hends d (hitem d rfl)
    exact absurd h (mark_closes.ne hty (ne_closer (by simp) ty) xs ys)

end

theorem items_inj {l m : List TypeId} {isVariadic isVariadic' : Bool}
    (h : items l isVariadic = items m isVariadic') : l = m ∧ isVariadic = isVariadic' := by
  have hsome : Function.Injective (List.map (some : TypeId → Option TypeId)) :=
    List.map_injective_iff.mpr (Option.some_injective _)
  have hmark (l m : List TypeId) : l.map some ≠ m.map some ++ [none] := by
    intro he
    have hmem : none ∈ l.map some := he ▸ by simp
    simp at hmem
  unfold items at h
  cases isVariadic <;> cases isVariadic'
  · exact ⟨hsome (by simpa using h), rfl⟩
  · exact absurd (by simpa using h) (hmark l m)
  · exact absurd (by simpa using h.symm) (hmark m l)
  · exact ⟨hsome (by simpa using h), rfl⟩

theorem signature_apart {below : TypeId → List Char} {ok : TypeId → Prop} {xs ys : List Char}
    (hends : ∀ c, ok c → ∃ ty : Ty, Closes (below c) ty.closer) {l m : List TypeId}
    {isVariadic isVariadic' : Bool} (hl : ∀ c ∈ l, ok c ∧ Apart below ok c) (hm : ∀ c ∈ m, ok c)
    (h : xs ++ ([' ', '('] ++ comma.intercalate ((items l isVariadic).map (itemSpelling below))) =
      ys ++ ([' ', '('] ++ comma.intercalate ((items m isVariadic').map (itemSpelling below)))) :
    l = m ∧ isVariadic = isVariadic' ∧ xs = ys := by
  have hmem {l : List TypeId} {isVariadic : Bool} {c : TypeId}
      (hc : some c ∈ items l isVariadic) : c ∈ l := by
    cases isVariadic <;> simpa [items] using hc
  have hstart (us vs : List Char) : us ++ [' ', '('] ≠ vs ++ comma := fun he => by
    cases List.append_inj_right' he rfl
  have hclear : ∀ item ∈ items l isVariadic ++ items m isVariadic', ∀ us vs,
      us ++ [' ', '('] ≠ vs ++ itemSpelling below item := by
    intro item hitem us vs
    have hopen : Closes [' ', '('] '(' := closes_concat [' '] (by decide)
    cases item with
    | none => exact hopen.ne mark_closes (by decide) us vs
    | some c =>
      have hok : ok c := (List.mem_append.mp hitem).elim (fun hc => (hl c (hmem hc)).1)
        fun hc => hm c (hmem hc)
      obtain ⟨ty, hty⟩ := hends c hok
      exact hopen.ne hty (ne_closer (by simp) ty) us vs
  have hapart : ∀ item ∈ items l isVariadic,
      Apart (itemSpelling below) (fun item => ∀ c, item = some c → ok c) item := by
    intro item hitem
    cases item with
    | none => exact mark_apart hends
    | some c => exact item_apart hends (hl c (hmem hitem)).1 (hl c (hmem hitem)).2
  obtain ⟨hitems, hxs⟩ := apart_intercalate hstart hclear hapart
    (fun item hitem c hc => hm c (hmem (hc ▸ hitem))) h
  obtain ⟨rfl, rfl⟩ := items_inj hitems
  exact ⟨rfl, rfl, hxs⟩

end Ty

namespace TypeTable

open Ty

variable {t : TypeTable} {i j id : TypeId}

theorem toList_bodyText (fields : List String) (isPacked : Bool) :
    (bodyText fields isPacked).toList = bodySpelling (fields.map String.toList) isPacked := by
  have hcomma : ", ".toList = comma := rfl
  cases fields <;> cases isPacked <;>
    simp [bodyText, bodySpelling, openSpelling, String.toList_intercalate, hcomma]

/-- One level of the text of a type. -/
theorem toList_render (t : TypeTable) (fuel : Nat) (id : TypeId) :
    (text.render t (fuel + 1) id).toList =
      (t.entry id).spelling fun c => (text.render t fuel c).toList := by
  have hcomma : ", ".toList = comma := rfl
  rw [text.render]
  cases t.entry id with
  | void | float | double => simp [Ty.spelling]
  | int bits =>
    change ("i" ++ toString bits).toList = _
    simp [Ty.spelling]
  | pointer pointee => simp [Ty.spelling]
  | array element length =>
    change ("[" ++ toString length ++ " x " ++ text.render t fuel element ++ "]").toList = _
    simp [Ty.spelling, rowSpelling]
  | vector element length =>
    change ("<" ++ toString length ++ " x " ++ text.render t fuel element ++ ">").toList = _
    simp [Ty.spelling, rowSpelling]
  | struct name fields isPacked =>
    cases name with
    | some name => simp [Ty.spelling]
    | none => simp [Ty.spelling, toList_bodyText, Function.comp_def]
  | function result params isVariadic =>
    cases isVariadic <;>
      simp [Ty.spelling, items, String.toList_intercalate, hcomma, Function.comp_def,
        itemSpelling]

section

variable {below : TypeId → List Char} {ok : TypeId → Prop} {xs ys : List Char} {ty ty' : Ty}

/-- The elements of a vector are of types that no brace closes. -/
theorem closer_element_ne (h : t.kind id ∈ [Ty.Kind.integer, .float, .pointer]) :
    (t.entry id).closer ≠ '\x7d' := by
  unfold kind at h
  cases he : t.entry id <;> simp_all [Ty.kind, closer]

theorem vector_ne_struct {element : TypeId} {length : Nat} {fields : List TypeId}
    (hends : Closes (below element) (t.entry element).closer)
    (hf : t.Fits (.vector element length)) :
    xs ++ rowSpelling '<' '>' length (below element) ≠
      ys ++ bodySpelling (fields.map below) true := by
  intro h
  simp only [rowSpelling, bodySpelling, ← List.append_assoc, List.append_left_inj] at h
  exact hends.ne (closes_concat [] (by decide)) (closer_element_ne hf.2.1) _ _ h

/-- Types are told apart by their text as soon as the types that they refer to are. -/
theorem spelling_apart (hends : ∀ c, ok c → Closes (below c) (t.entry c).closer)
    (hn : ty.structName = none) (hn' : ty'.structName = none) (ho : ty.isOpaque = false)
    (ho' : ty'.isOpaque = false) (hf : t.Fits ty) (hf' : t.Fits ty')
    (hty : ∀ c ∈ ty.children, ok c ∧ Apart below ok c) (hty' : ∀ c ∈ ty'.children, ok c)
    (h : xs ++ ty.spelling below = ys ++ ty'.spelling below) : ty = ty' ∧ xs = ys := by
  have hcloser : ty.closer = ty'.closer :=
    ((spelling_closes hn).append xs).unique (h ▸ (spelling_closes hn').append ys)
  have hends' : ∀ c, ok c → ∃ ty : Ty, Closes (below c) ty.closer := fun c hc => ⟨_, hends c hc⟩
  -- texts that close differently are out, which leaves a vector beside a packed struct
  cases ty <;> cases ty' <;> try (simp [closer, ite_eq_iff, eq_ite_iff] at hcloser; done)
  case void.void | float.float | double.double => exact ⟨rfl, (List.append_left_inj _).mp h⟩
  case int.int =>
    obtain ⟨rfl, hxs⟩ := eq_of_append_number (by decide) h
    exact ⟨rfl, hxs⟩
  case pointer.pointer p p' =>
    simp only [Ty.spelling, ← List.append_assoc, List.append_left_inj] at h
    obtain ⟨rfl, hxs⟩ := (hty p (by simp [children])).2 p' (hty' p' (by simp [children])) _ _ h
    exact ⟨rfl, hxs⟩
  case array.array e _ e' _ | vector.vector e _ e' _ =>
    obtain ⟨rfl, rfl, hxs⟩ := row_apart (by decide) (hty e (by simp [children])).2
      (hty' e' (by simp [children])) h
    exact ⟨rfl, hxs⟩
  case vector.struct e _ name fields isPacked =>
    obtain rfl : isPacked = true := by simpa [closer, eq_ite_iff] using hcloser
    obtain rfl : name = none := hn'
    exact absurd h (vector_ne_struct (hends e (hty e (by simp [children])).1) hf)
  case struct.vector name fields isPacked e _ =>
    obtain rfl : isPacked = true := by simpa [closer, ite_eq_iff] using hcloser
    obtain rfl : name = none := hn
    exact absurd h.symm (vector_ne_struct (hends e (hty' e (by simp [children]))) hf')
  case struct.struct name fields isPacked name' fields' isPacked' =>
    obtain rfl : name = none := hn
    obtain rfl : name' = none := hn'
    obtain rfl : isPacked = isPacked' := by
      cases isPacked <;> cases isPacked' <;> simp [closer] at hcloser ⊢
    obtain _ | fields := fields
    · cases ho
    obtain _ | fields' := fields'
    · cases ho'
    obtain ⟨rfl, hxs⟩ := body_apart hends' hty hty' h
    exact ⟨rfl, hxs⟩
  case function.function result params isVariadic result' params' isVariadic' =>
    obtain ⟨⟨-, hresult⟩, hparams⟩ := List.forall_mem_cons.mp hty
    obtain ⟨hresult', hparams'⟩ := List.forall_mem_cons.mp hty'
    simp only [Ty.spelling, ← List.append_assoc, List.append_left_inj] at h
    simp only [List.append_assoc _ [' ', '(']] at h
    obtain ⟨rfl, rfl, hrest⟩ := signature_apart hends' hparams hparams' h
    obtain ⟨rfl, hxs⟩ := hresult result' hresult' _ _ hrest
    exact ⟨rfl, hxs⟩

end

/-! ### All levels -/

/-- The text does not depend on how much is left to spend beyond the index. -/
theorem render_eq (h : t.Intact) {fuel fuel' : Nat} (hid : t.contains id) (hfuel : id.index < fuel)
    (hfuel' : id.index < fuel') :
    (text.render t fuel id).toList = (text.render t fuel' id).toList := by
  induction fuel generalizing id fuel' with
  | zero => omega
  | succ fuel ih =>
    obtain ⟨fuel', rfl⟩ := Nat.exists_eq_add_one_of_ne_zero (Nat.ne_zero_of_lt hfuel')
    rw [toList_render, toList_render]
    cases hn : (t.entry id).structName with
    | some name =>
      cases he : t.entry id with
      | struct _ _ _ =>
        obtain rfl : _ = some name := by simpa [he, structName] using hn
        rfl
      | _ => simp [he, structName] at hn
    | none =>
      refine spelling_congr hn fun c hc => ?_
      have hlt : c.index < id.index := (h id hid).earlier hn c hc
      exact ih ((h id hid).children c hc) (by omega) (by omega)

theorem toList_text (h : t.Intact) (hid : t.contains id) (hn : (t.entry id).structName = none) :
    (t.text id).toList = (t.entry id).spelling fun c => (t.text c).toList := by
  rw [text, toList_render]
  refine spelling_congr hn fun c hc => ?_
  exact render_eq h ((h id hid).children c hc) ((h id hid).earlier hn c hc) (Nat.lt_succ_self _)

/-- The second type is the first one or within it, behind pointers and in signatures too. -/
def Mentions (t : TypeTable) : TypeId → TypeId → Prop :=
  Relation.ReflTransGen fun id c => c ∈ (t.entry id).children

/-- A type of the table that mentions no named struct. -/
def Plain (t : TypeTable) (id : TypeId) : Prop :=
  t.contains id ∧ ∀ c, t.Mentions id c → (t.entry c).structName = none

theorem Plain.child (h : t.Plain id) (hi : t.Intact) {c : TypeId}
    (hc : c ∈ (t.entry id).children) : t.Plain c :=
  ⟨(hi id h.1).children c hc, fun d hd => h.2 d (.head hc hd)⟩

theorem apart_text (hi : t.Intact) (hw : t.WellFormed) (hu : t.Unrepeated) (h : t.Plain id) :
    Apart (fun c => (t.text c).toList) t.Plain id := by
  have hends (c : TypeId) (hc : t.Plain c) : Closes (t.text c).toList (t.entry c).closer := by
    have hn := hc.2 c .refl
    rw [toList_text hi hc.1 hn]
    exact spelling_closes hn
  induction hk : id.index using Nat.strong_induction_on generalizing id with
  | _ k ih =>
    subst hk
    have hn := h.2 id .refl
    have hchildren : ∀ c ∈ (t.entry id).children,
        t.Plain c ∧ Apart (fun c => (t.text c).toList) t.Plain c := fun c hc =>
      ⟨h.child hi hc, ih c.index ((hi id h.1).earlier hn c hc) (h.child hi hc) rfl⟩
    intro j hj xs ys he
    have hnj := hj.2 j .refl
    simp only [toList_text hi h.1 hn, toList_text hi hj.1 hnj] at he
    obtain ⟨hentry, hxs⟩ := spelling_apart hends hn hnj (hu.complete id h.1 hn)
      (hu.complete j hj.1 hnj) (hw.fits id h.1) (hw.fits j hj.1) hchildren
      (fun c hc => hj.child hi hc) he
    exact ⟨hu.structural id j h.1 hj.1 hn hentry, hxs⟩

/-- However a table was obtained, the texts of two of its types differ unless a named struct is
mentioned in one of them. -/
theorem Obtained.text_ne (h : t.Obtained) (hi : t.Plain i) (hj : t.Plain j) (hij : i ≠ j) :
    t.text i ≠ t.text j := by
  intro he
  have happart := apart_text h.intact h.wellFormed h.unrepeated hi
  exact hij (happart j hj [] [] (congrArg String.toList he)).1

/-! ### An example -/

/-- A pointer to a function, and a function of a pointer. -/
def stars : TypeTable :=
  replay {} [.ofType (.int 8), .ofType (.pointer ⟨0⟩), .ofType (.function ⟨0⟩ [⟨0⟩] false),
    .ofType (.pointer ⟨2⟩), .ofType (.function ⟨0⟩ [⟨1⟩] false)]

theorem plain_of_unnamed (hid : t.contains id) (h : ∀ ty ∈ t.entries, ty.structName = none) :
    t.Plain id := by
  refine ⟨hid, fun c _ => ?_⟩
  by_cases hc : t.contains c
  · have hlt := contains_iff.mp hc
    have he : t.entry c = t.entries[c.index] := by simp [entry, hlt]
    exact he ▸ h _ (Array.getElem_mem hlt)
  · rw [entry_of_not_contains hc]
    rfl

theorem stars_differ : stars.Obtained ∧ stars.text ⟨3⟩ = "i8 (i8)*" ∧
    stars.text ⟨4⟩ = "i8 (i8*)" ∧ stars.text ⟨3⟩ ≠ stars.text ⟨4⟩ := by
  have hobtained : stars.Obtained := .inl (Replays.reachable (by decide +kernel) .refl)
  have hunnamed : ∀ ty ∈ stars.entries, ty.structName = none := by decide +kernel
  exact ⟨hobtained, by decide +kernel, by decide +kernel,
    hobtained.text_ne (plain_of_unnamed (by decide +kernel) hunnamed)
      (plain_of_unnamed (by decide +kernel) hunnamed) (by decide)⟩

end TypeTable

end SsaKit
