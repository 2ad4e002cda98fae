import SsaKit.Proofs.Integrity
import SsaKit.Proofs.Origin

/-! Every module that can be built passes the check of a module from outside. -/
namespace SsaKit

/-! ### Nodes without an owner -/

namespace Arena

variable {kind owner : Entity} {α β : Type} {a : Arena kind owner α} {b : Arena kind owner β}
  {chain : Handle owner → Chain kind} {list : Handle owner → List (Handle kind)}
  {k anchor : Handle kind} {q : Handle owner} {xs ys : List (Handle kind)}

/-- A node without an owner has no neighbours either. -/
def Tidy (a : Arena kind owner α) : Prop :=
  ∀ k, a.parent? k = none → a.prev? k = none ∧ a.next? k = none

theorem Tidy.congr (h : a.Tidy) (hs : SameLinks a b) : b.Tidy := fun k hk => by
  rw [hs.prev, hs.next]
  exact h k (hs.parent k ▸ hk)

theorem Tidy.pushBack (h : a.Tidy) (ht : Threads chain a list) (hk : a.Has k) :
    ((chain q).pushBack a q k).2.Tidy := by
  intro j hj
  rw [Chain.parent?_pushBack hk] at hj
  split at hj
  · cases hj
  · rename_i hne
    have hlast : (chain q).last ≠ some j := fun hl => by
      have hmem : j ∈ list q := List.mem_of_getLast? ((ht.holds q).last ▸ hl)
      rw [(ht.parent j q).mpr hmem] at hj
      cases hj
    rw [Chain.prev?_pushBack hk, Chain.next?_pushBack hk fun e => (ht.holds q).has_last,
      if_neg hne, if_neg hlast, if_neg hne]
    exact h j hj

theorem Tidy.insertBefore (h : a.Tidy) (ht : Threads chain a list) (hk : a.Has k)
    (hl : list q = xs ++ anchor :: ys) : ((chain q).insertBefore a q anchor k).2.Tidy := by
  have hq := ht.holds q
  rw [hl] at hq
  have linked {j : Handle kind} (hj : a.parent? j = none) : j ∉ xs ++ anchor :: ys := fun hmem => by
    rw [(ht.parent j q).mpr (hl ▸ hmem)] at hj
    cases hj
  intro j hj
  rw [Chain.parent?_insertBefore hk] at hj
  split at hj
  · cases hj
  · rename_i hne
    have hanchor : j ≠ anchor := fun he => linked hj (by simp [he])
    have hprev : a.prev? anchor ≠ some j := fun he => linked hj (by
      rw [hq.prev xs anchor ys rfl] at he
      simp [List.mem_of_getLast? he])
    rw [Chain.prev?_insertBefore hk (hq.has anchor (by simp)),
      Chain.next?_insertBefore hk fun p => hq.has_prev, if_neg hanchor, if_neg hne, if_neg hprev,
      if_neg hne]
    exact h j hj

theorem Tidy.unlink (h : a.Tidy) (ht : Threads chain a list) (hl : list q = xs ++ k :: ys) :
    ((chain q).unlink a k).2.Tidy := by
  have hq := ht.holds q
  rw [hl] at hq
  have hk : a.Has k := hq.has k (by simp)
  have hnd := hq.nodup
  intro j hj
  rw [Chain.parent?_unlink hk] at hj
  have hout : j ∉ xs ++ ys := fun hmem => by
    split at hj
    · rename_i he
      subst he
      rw [List.nodup_middle] at hnd
      exact (List.nodup_cons.mp hnd).1 hmem
    · rw [(ht.parent j q).mpr (by rw [hl]; simp at hmem ⊢; tauto)] at hj
      cases hj
  have hnext : a.next? k ≠ some j := fun he => hout (by
    rw [hq.next xs k ys rfl] at he
    simp [List.mem_of_head? he])
  have hprev : a.prev? k ≠ some j := fun he => hout (by
    rw [hq.prev xs k ys rfl] at he
    simp [List.mem_of_getLast? he])
  rw [Chain.prev?_unlink hk fun e => hq.has_next, Chain.next?_unlink hk fun e => hq.has_prev,
    if_neg hnext, if_neg hprev]
  split
  · exact ⟨rfl, rfl⟩
  · rename_i hne
    rw [if_neg hne] at hj
    exact h j hj

end Arena

/-! ### Types -/

namespace TypeTable

variable {t u : TypeTable} {id : TypeId} {ty : Ty}

theorem contains_of_mem_children (h : t.Fits ty) : ∀ c ∈ ty.children, t.contains c := by
  intro c hc
  cases ty with
  | void | int | float | double => cases hc
  | pointer pointee =>
    obtain rfl := List.mem_singleton.mp hc
    exact h
  | array element length =>
    obtain rfl := List.mem_singleton.mp hc
    exact contains_of_isSized h
  | vector element length =>
    obtain rfl := List.mem_singleton.mp hc
    exact contains_of_isSized h.2.2
  | struct name fields isPacked => exact contains_of_isSized (h c hc)
  | function result params isVariadic =>
    obtain rfl | hc := List.mem_cons.mp hc
    · exact h.1
    · exact contains_of_isSized (h.2.2 c hc)

theorem Intact.push (h : t.Intact) (hu : u.entries = t.entries.push ty) (hf : t.Fits ty) :
    u.Intact := by
  have hx := extends_push hu
  intro id hid
  obtain hold | rfl := (contains_push hu).mp hid
  · have hi := h id hold
    have hentry := entry_push hu hold
    exact ⟨hentry ▸ hi.width, fun c hc => hx.contains c (hi.children c (hentry ▸ hc)),
      hentry ▸ hi.earlier⟩
  · have hentry := entry_push_size hu
    refine ⟨fun bits hb => ?_, fun c hc => ?_, fun _ c hc => ?_⟩
    · rw [hentry] at hb
      subst hb
      exact hf
    · rw [hentry] at hc
      exact hx.contains c (contains_of_mem_children hf c hc)
    · rw [hentry] at hc
      simpa [contains] using contains_of_mem_children hf c hc

theorem Intact.grows (h : t.Intact) (hg : Grows t u) : u.Intact := by
  cases hg with
  | intern ty _ _ hf _ => exact h.push entries_withType hf
  | declare name _ => exact h.push entries_withStruct (by simp [Fits])
  | body id name fields wasPacked isPacked he hf =>
    have hid : t.contains id := by
      by_contra hn
      simp [entry_of_not_contains hn] at he
    have hx := (Grows.body t id name fields wasPacked isPacked he hf).extends
    have hentry : ∀ k, (t.withBody id name fields isPacked).entry k = _ := entry_withBody hid
    intro k hk
    by_cases hki : k = id
    · subst hki
      have hnew := hentry k
      rw [if_pos rfl] at hnew
      refine ⟨fun bits hb => ?_, fun c hc => ?_, fun hn => ?_⟩
      · rw [hnew] at hb
        cases hb
      · rw [hnew] at hc
        exact hx.contains c (contains_of_isSized (hf c hc))
      · rw [hnew] at hn
        cases hn
    · have hold := hentry k
      rw [if_neg hki] at hold
      have hi := h k (contains_withBody.mp hk)
      exact ⟨hold ▸ hi.width, fun c hc => hx.contains c (hi.children c (hold ▸ hc)),
        hold ▸ hi.earlier⟩

end TypeTable

/-! ### Tables of names -/

namespace SymbolTable

variable {α : Type} {t : SymbolTable α} {name : String} {a b : α}

theorem mem_values_erase (h : a ∈ (t.erase name).values) : a ∈ t.values := by
  obtain ⟨e, he, rfl⟩ := List.mem_map.mp h
  exact List.mem_map_of_mem (List.mem_of_mem_filter he)

theorem mem_values_insert (h : a ∈ (t.insert name b).values) : a ∈ t.values ∨ a = b := by
  obtain ⟨e, he, rfl⟩ := List.mem_map.mp h
  rcases List.mem_append.mp he with he | he
  · exact .inl (mem_values_erase (List.mem_map_of_mem he))
  · obtain rfl := List.mem_singleton.mp he
    exact .inr rfl

end SymbolTable

namespace Module

variable {m m' : Module} {o : Order} {v w : ValueId} {f g : FunctionId} {n : Nat}

/-- What the check of a module from outside asks for beside types and order. -/
structure Kempt (m : Module) : Prop where
  types : m.types.Intact
  values : m.values.Tidy
  blocks : m.blocks.Tidy
  code : ∀ v b, m.blockOf? v = some b → m.isInstruction v
  arguments : ∀ v f n, m.kindOf v = .argument f n → m.HasFunction f ∧ (m.params f)[n]? = some v
  globalNames : ∀ v ∈ m.globalNames.values, m.values.Has v
  functionNames : ∀ f ∈ m.functionNames.values, m.HasFunction f

theorem kempt_empty (name : String) : Kempt { name } where
  types id h := by simp [TypeTable.contains, TypeTable.size] at h
  values k _ := by simp [Arena.prev?, Arena.next?]
  blocks k _ := by simp [Arena.prev?, Arena.next?]
  code v b h := by simp [blockOf?, Arena.parent?] at h
  arguments v f n h := by
    rw [kindOf, value_of_not_has (by simp [Arena.Has])] at h
    cases h
  globalNames _ h := by cases h
  functionNames _ h := by cases h

/-! ### What single changes leave alone -/

theorem Argues.sameLinks {params : List ValueId} (ha : Argues f m params m') :
    Arena.SameLinks m.values m'.values := by
  induction ha with
  | nil => exact .refl _
  | snoc type _ _ ih => exact ih.trans (sameLinks_push_value type _)

theorem Quiet.sameLinks (hq : Quiet m m') :
    Arena.SameLinks m.values m'.values ∧ Arena.SameLinks m.blocks m'.blocks := by
  cases hq with
  | prepare _ hp =>
    cases hp with
    | types t _ => exact ⟨.refl _, .refl _⟩
    | constant type kind _ _ _ _ => exact ⟨sameLinks_push_value _ _, .refl _⟩
  | instruction type i _ _ => exact ⟨sameLinks_push_value _ _, .refl _⟩
  | addGlobal type valueType name _ _ _ =>
    have hp := sameLinks_push_value (m := m) type (.global { valueType })
    have hn := sameLinks_revalued (m := m.pushed type (.global { valueType }))
      (v := ⟨m.values.size⟩) fun x => { x with name := some name }
    exact ⟨hp.trans hn, .refl _⟩
  | addFunction m₁ name type params ha _ _ _ =>
    have hblocks : m₁.blocks = m.blocks := by rw [ha.eq_values]
    exact ⟨ha.sameLinks, hblocks ▸ .refl _⟩
  | removeGlobal _ _ | link _ _ | removeFunction _ _ => exact ⟨.refl _, .refl _⟩
  | rename _ _ _ | renameGlobal _ _ _ _ | changeGlobal _ _ _ _ _ _ | addIncoming _ _ _ _ _ _ _ _ _
  | dropIncoming _ _ _ _ => exact ⟨sameLinks_revalued _, .refl _⟩
  | pushBlock name => exact ⟨.refl _, Arena.sameLinks_push _⟩
  | nameBlock b name =>
    exact ⟨.refl _, Arena.sameLinks_modifyContent (k := b) fun x : Block => { x with name }⟩
  | replace old new _ _ _ => exact ⟨Arena.sameLinks_map _, .refl _⟩

theorem Quiet.types (hq : Quiet m m') : m'.types = m.types ∨ m.types.Grows m'.types := by
  cases hq with
  | prepare _ hp =>
    cases hp with
    | types t ht => exact .inr ht
    | constant type kind _ _ _ _ => exact .inl rfl
  | addFunction m₁ name type params ha _ _ _ =>
    have htypes : m₁.types = m.types := by rw [ha.eq_values]
    exact .inl htypes
  | _ => exact .inl rfl

/-- Each argument to come is listed at its position. -/
theorem Argues.new_argument {params : List ValueId} (ha : Argues f m params m')
    (hv : ¬ m.values.Has v) (hk : m'.kindOf v = .argument g n) : g = f ∧ params[n]? = some v := by
  induction ha with
  | nil =>
    rw [kindOf, value_of_not_has hv] at hk
    cases hk
  | snoc type ha _ ih =>
    rename_i params m₁ _
    rcases kindOf_pushed (m := m₁) type (.argument f params.length) v with he | ⟨rfl, he⟩
    · obtain ⟨hg, hn⟩ := ih (he.symm.trans hk)
      exact ⟨hg, List.getElem?_append_left (List.getElem?_eq_some_iff.mp hn).1 ▸ hn⟩
    · rw [he] at hk
      obtain ⟨rfl, rfl⟩ := ValueKind.argument.inj hk
      simp

/-- A new argument belongs to a new function, which lists it at its position. -/
theorem Quiet.new_argument (hq : Quiet m m') (hv : ¬ m.values.Has v)
    (hk : m'.kindOf v = .argument f n) : m'.HasFunction f ∧ (m'.params f)[n]? = some v := by
  have hv' : m'.values.Has v := has_of_kindOf (by simp [hk])
  have hnone : m.kindOf v = .undef := by rw [kindOf, value_of_not_has hv]; rfl
  have pushed {type : TypeId} {kind : ValueKind} (hn : ∀ f n, kind ≠ .argument f n)
      (hk : (m.pushed type kind).kindOf v = .argument f n) : False := by
    rcases kindOf_pushed (m := m) type kind v with he | ⟨-, he⟩
    · rw [he, hnone] at hk
      cases hk
    · exact hn f n (he.symm.trans hk)
  cases hq with
  | addFunction m₁ name type params ha _ _ _ =>
    obtain ⟨rfl, hn⟩ := ha.new_argument hv hk
    have hfunctions := ha.functions_eq
    have hparams : (m₁.declared name type params).params ⟨m.functions.size⟩ = params := by
      simp [Module.params, function_def, declared, hfunctions]
    exact ⟨by simp [HasFunction, declared, hfunctions], by rw [hparams]; exact hn⟩
  | prepare _ hp =>
    cases hp with
    | types t _ => exact absurd hv' hv
    | constant type kind hc _ _ _ => exact (pushed (by rintro f n rfl; cases hc) hk).elim
  | instruction type i _ _ => exact (pushed (by simp) hk).elim
  | addGlobal type valueType name _ _ _ =>
    have hsame : (m.pushed type (.global { valueType })).kindOf v = .argument f n := by
      change ((m.pushed type _).revalued ⟨m.values.size⟩ _).kindOf v = _ at hk
      rw [kindOf, value_revalued (has_pushed_new m type _)] at hk
      split at hk
      · rename_i he
        rw [he]
        exact hk
      · exact hk
    exact (pushed (by simp) hsame).elim
  | removeGlobal _ _ | link _ _ | removeFunction _ _ | pushBlock _ | nameBlock _ _ =>
    exact absurd hv' hv
  | rename _ _ _ | renameGlobal _ _ _ _ | changeGlobal _ _ _ _ _ _ | addIncoming _ _ _ _ _ _ _ _ _
  | dropIncoming _ _ _ _ =>
    exact absurd (by simpa [Arena.Has, size_revalued] using hv') hv
  | replace _ _ _ _ _ => exact absurd (by simpa [Arena.Has, replaced] using hv') hv

theorem mem_clearedTable {w : ValueId} (h : v ∈ (m.clearedTable w).values) :
    v ∈ m.globalNames.values := by
  unfold clearedTable at h
  split at h
  · exact SymbolTable.mem_values_erase h
  · exact h

theorem Quiet.globalNames (hq : Quiet m m') (hv : v ∈ m'.globalNames.values) :
    v ∈ m.globalNames.values ∨ m'.values.Has v := by
  cases hq with
  | prepare _ hp =>
    cases hp with
    | types t _ => exact .inl hv
    | constant type kind _ _ _ _ => exact .inl hv
  | addGlobal type valueType name _ _ _ =>
    rcases SymbolTable.mem_values_insert hv with hv | rfl
    · exact .inl hv
    · right
      change (m.pushed type _ |>.revalued ⟨m.values.size⟩ _).values.Has _
      rw [Arena.Has, size_revalued]
      exact has_pushed_new m type _
  | removeGlobal w _ =>
    exact .inl (mem_clearedTable (w := w) hv)
  | renameGlobal w name hw _ =>
    have hhas : m.values.Has w := has_of_kindOf fun hk => by
      simp [global?, hk, ValueKind.global?] at hw
    change v ∈ (m.renamedTable w name).values at hv
    unfold renamedTable at hv
    cases name with
    | none => exact .inl (mem_clearedTable hv)
    | some new =>
      rcases SymbolTable.mem_values_insert hv with hv | rfl
      · exact .inl (mem_clearedTable hv)
      · right
        simpa [Arena.Has, size_revalued] using hhas
  | addFunction m₁ name type params ha _ _ _ =>
    have hnames : m₁.globalNames = m.globalNames := by rw [ha.eq_values]
    exact .inl (hnames ▸ hv)
  | _ => exact .inl hv

theorem Quiet.functionNames (hq : Quiet m m') (hf : f ∈ m'.functionNames.values) :
    f ∈ m.functionNames.values ∨ m'.HasFunction f := by
  cases hq with
  | prepare _ hp =>
    cases hp with
    | types t _ => exact .inl hf
    | constant type kind _ _ _ _ => exact .inl hf
  | addFunction m₁ name type params ha _ _ _ =>
    have hnames : m₁.functionNames = m.functionNames := by rw [ha.eq_values]
    rcases SymbolTable.mem_values_insert hf with hf | rfl
    · exact .inl (hnames ▸ hf)
    · right
      simp [HasFunction, declared]
  | removeFunction g _ => exact .inl (SymbolTable.mem_values_erase hf)
  | _ => exact .inl hf

theorem Extends.isInstruction (hx : m.Extends m') (hi : m.isInstruction v) : m'.isInstruction v := by
  obtain he | ⟨g, g', he, -⟩ | ⟨i, i', -, he⟩ := (hx.values v (has_of_isInstruction hi)).2.2
  · rwa [Module.isInstruction, instruction?, he]
  · simp [Module.isInstruction, instruction?, he, ValueKind.instruction?] at hi
  · simp [Module.isInstruction, instruction?, he, ValueKind.instruction?]

theorem Quiet.kempt (hq : Quiet m m') (h : m.Kempt) : m'.Kempt := by
  have hx := hq.extends
  obtain ⟨hvalues, hblocks⟩ := hq.sameLinks
  refine ⟨?_, h.values.congr hvalues, h.blocks.congr hblocks, fun v b hb => ?_, fun v f n hk => ?_,
    fun v hv => ?_, fun f hf => ?_⟩
  · obtain he | hg := hq.types
    · exact he ▸ h.types
    · exact h.types.grows hg
  · exact hx.isInstruction (h.code v b ((hvalues.parent v).symm.trans hb))
  · by_cases hv : m.values.Has v
    · obtain he | ⟨_, _, -, he, -⟩ | ⟨_, _, -, he⟩ := (hx.values v hv).2.2
      · obtain ⟨hf, hn⟩ := h.arguments v f n (he.symm.trans hk)
        obtain ⟨hf', -, hparams⟩ := hx.functions f hf
        exact ⟨hf', hparams ▸ hn⟩
      · rw [he] at hk
        cases hk
      · rw [he] at hk
        cases hk
    · exact hq.new_argument hv hk
  · exact (hq.globalNames hv).elim (fun hold => hx.has (h.globalNames v hold)) id
  · exact (hq.functionNames hf).elim (fun hold => (hx.functions f (h.functionNames f hold)).1) id

/-- A change of the order keeps what it does not touch. -/
theorem Move.kempt_of (hm : Move m m') (h : m.Kempt) (hvalues : m'.values.Tidy)
    (hblocks : m'.blocks.Tidy) (hcode : ∀ v b, m'.blockOf? v = some b → m.isInstruction v) :
    m'.Kempt := by
  have hx := hm.extends
  have htables : m'.types = m.types ∧ m'.globalNames = m.globalNames ∧
      m'.functionNames = m.functionNames := by
    cases hm <;> exact ⟨rfl, rfl, rfl⟩
  obtain ⟨htypes, hnames, hnames'⟩ := htables
  refine ⟨htypes ▸ h.types, hvalues, hblocks, fun v b hb => hx.isInstruction (hcode v b hb),
    fun v f n hk => ?_, fun v hv => hx.has (h.globalNames v (hnames ▸ hv)),
    fun f hf => (hx.functions f (h.functionNames f (hnames' ▸ hf))).1⟩
  obtain ⟨hf, hn⟩ := h.arguments v f n ((hm.kindOf_eq v).symm.trans hk)
  obtain ⟨hf', -, hparams⟩ := hx.functions f hf
  exact ⟨hf', hparams ▸ hn⟩

theorem Move.kempt_withCode {b : BlockId} {p : Chain .value × Arena .value .block Value}
    (hm : Move m (m.withCode b p)) (h : m.Kempt) (htidy : p.2.Tidy)
    (hcode : ∀ w k, p.2.parent? w = some k → m.isInstruction w) : (m.withCode b p).Kempt :=
  hm.kempt_of h htidy (h.blocks.congr sameLinks_withCode) hcode

theorem Move.kempt_withBlocks {p : Chain .block × Arena .block .function Block}
    (hm : Move m (m.withBlocks f p)) (h : m.Kempt) (htidy : p.2.Tidy) :
    (m.withBlocks f p).Kempt :=
  hm.kempt_of h h.values htidy h.code

theorem Move.kempt (hm : Move m m') (ho : m.Ordered o) (h : m.Kempt) : m'.Kempt := by
  cases hm with
  | pushCode b v hb hv hn hi =>
    have htidy := h.values.pushBack (q := b) ho.code hv
    refine (Move.pushCode m b v hb hv hn hi).kempt_withCode h htidy fun w k hk => ?_
    rw [Chain.parent?_pushBack hv] at hk
    split at hk
    · rename_i he
      exact he ▸ hi
    · exact h.code w k hk
  | insertCode b anchor v ha hv hn hi =>
    obtain ⟨xs, ys, hl⟩ := List.append_of_mem (ho.blockOf?_eq_some.mp ha)
    have htidy := h.values.insertBefore ho.code hv hl
    refine (Move.insertCode m b anchor v ha hv hn hi).kempt_withCode h htidy fun w k hk => ?_
    rw [Chain.parent?_insertBefore hv] at hk
    split at hk
    · rename_i he
      exact he ▸ hi
    · exact h.code w k hk
  | dropCode b v hv =>
    obtain ⟨xs, ys, hl⟩ := List.append_of_mem (ho.blockOf?_eq_some.mp hv)
    have htidy := h.values.unlink ho.code hl
    refine (Move.dropCode m b v hv).kempt_withCode h htidy fun w k hk => ?_
    rw [Chain.parent?_unlink (Arena.has_of_parent hv)] at hk
    split at hk
    · cases hk
    · exact h.code w k hk
  | pushBlocks f b hf hb hn =>
    have htidy := h.blocks.pushBack (q := f) ho.blocks hb
    exact (Move.pushBlocks m f b hf hb hn).kempt_withBlocks h htidy
  | insertBlocks f anchor b ha hb hn =>
    obtain ⟨xs, ys, hl⟩ := List.append_of_mem (ho.functionOf?_eq_some.mp ha)
    have htidy := h.blocks.insertBefore ho.blocks hb hl
    exact (Move.insertBlocks m f anchor b ha hb hn).kempt_withBlocks h htidy
  | dropBlocks f b hb =>
    obtain ⟨xs, ys, hl⟩ := List.append_of_mem (ho.functionOf?_eq_some.mp hb)
    have htidy := h.blocks.unlink ho.blocks hl
    exact (Move.dropBlocks m f b hb).kempt_withBlocks h htidy

theorem Changed.kempt (hc : Changed m m') (ho : m.Ordered o) (h : m.Kempt) : m'.Kempt := by
  induction hc with
  | refl => exact h
  | tail hc hs ih =>
    obtain ⟨o', ho'⟩ := Changed.ordered hc ho
    exact hs.elim (fun hq => hq.kempt ih) fun hm => hm.kempt ho' ih

/-! ### The check -/

section

variable {kind owner : Entity} {α : Type} {a : Arena kind owner α} {c : Chain kind}
  {chain : Handle owner → Chain kind} {list : Handle owner → List (Handle kind)}
  {has : Handle owner → Prop} {l : List (Handle kind)}

theorem linksIntact_of_threads (ht : Threads chain a list) (htidy : a.Tidy)
    (hown : ∀ q k, k ∈ list q → has q) (k : Handle kind) : LinksIntact a has k := by
  have hnear : ∀ j, a.prev? k = some j ∨ a.next? k = some j → a.Has j := fun j hj => by
    cases hq : a.parent? k with
    | none =>
      obtain ⟨hp, hn⟩ := htidy k hq
      simp [hp, hn] at hj
    | some q =>
      have hq' := ht.holds q
      obtain ⟨xs, ys, hl⟩ := List.append_of_mem ((ht.parent k q).mp hq)
      rw [hl] at hq'
      exact hj.elim hq'.has_prev hq'.has_next
  exact ⟨fun q hq => hown q k ((ht.parent k q).mp hq), fun j hj => hnear j (.inl hj),
    fun j hj => hnear j (.inr hj)⟩

theorem endsIntact_of_holds (h : c.Holds a l) : EndsIntact c a where
  first k hk := h.has k (List.mem_of_head? (h.first ▸ hk))
  last _ hk := h.has_last hk

end

theorem mentioned_of_kindFits {type : TypeId} {kind : ValueKind} (h : m.KindFits type kind) :
    ∀ t ∈ mentionedTypes kind, m.types.contains t := by
  intro t ht
  cases kind with
  | global g =>
    obtain rfl := List.mem_singleton.mp ht
    exact TypeTable.contains_of_isSized h.2.1
  | instruction i =>
    cases i with
    | alloca allocated count =>
      obtain rfl := List.mem_singleton.mp ht
      exact TypeTable.contains_of_isSized h.2.2.1
    | _ => cases ht
  | _ => cases ht

theorem operands_of_kindFits {type : TypeId} {kind : ValueKind} (h : m.KindFits type kind) :
    ∀ w ∈ kind.operands, m.values.Has w := by
  intro w hw
  cases kind with
  | aggregate elements => exact (h.1 w hw).1
  | global g => exact (h.2.2 w (by simpa [ValueKind.operands] using hw)).1
  | instruction i => exact h.1 w hw
  | _ => cases hw

theorem blocks_of_kindFits {type : TypeId} {kind : ValueKind} (h : m.KindFits type kind) :
    ∀ b ∈ mentionedBlocks kind, m.blocks.Has b := by
  intro b hb
  cases kind with
  | instruction i =>
    refine h.2.1 b ?_
    cases i <;> exact hb
  | _ => cases hb

theorem Kempt.intact (h : m.Kempt) (hs : m.Sound) (ho : m.Ordered o) (hg : m.ListsGlobals) :
    m.Intact where
  types := h.types
  values v hv := by
    obtain ⟨htype, hk⟩ := hs.values v hv
    refine ⟨htype, mentioned_of_kindFits hk, operands_of_kindFits hk, blocks_of_kindFits hk,
      fun f hf => ?_, fun f n he => (h.arguments v f n he).2,
      linksIntact_of_threads ho.code h.values (fun _ _ => ho.has_of_mem) v⟩
    cases he : m.kindOf v with
    | argument g n =>
      rw [he] at hf
      obtain rfl := List.mem_singleton.mp hf
      exact (h.arguments v f n he).1
    | instruction i =>
      rw [he] at hf hk
      cases i with
      | call callee args =>
        obtain rfl := List.mem_singleton.mp hf
        exact hk.2.2.1
      | _ => cases hf
    | _ =>
      rw [he] at hf
      cases hf
  blocks b hb :=
    ⟨linksIntact_of_threads ho.blocks h.blocks (fun _ _ => ho.hasFunction_of_mem) b,
      endsIntact_of_holds (ho.code.holds b)⟩
  functions f hf := by
    obtain ⟨result, params, isVariadic, he, hparams⟩ := hs.functions f hf
    have hk : m.types.kind (m.function f).type = .function := by
      rw [TypeTable.kind, he]
      rfl
    refine ⟨TypeTable.contains_of_kind hk (by simp), hk, ?_, fun v hv => ?_,
      endsIntact_of_holds (ho.blocks.holds f)⟩
    · simpa [he, Ty.params] using hparams.length_eq
    · obtain ⟨n, hn⟩ := kindOf_of_mem_params (hs.functions f hf) hv
      exact has_of_kindOf (by simp [hn])
  globals v hv := by
    obtain ⟨g, hk⟩ := hg v hv
    exact has_of_kindOf (by simp [hk])
  globalNames := h.globalNames
  functionNames := h.functionNames
  bodies f _ := by
    refine ⟨o.blocks f, (ho.blocks.holds f).runs, fun b hb => ⟨ho.functionOf?_eq_some.mpr hb,
      o.code b, (ho.code.holds b).runs, fun v hv => ?_⟩⟩
    have hparent := ho.blockOf?_eq_some.mpr hv
    exact ⟨hparent, h.code v b hparent⟩

end Module
end SsaKit
