import SsaKit.Proofs.Ending

/-! What calls take and give back. Every run is made of small changes to its memory, each of which keeps
the account; a call leaves of its own allocations just those that are not on the stack. -/
namespace SsaKit

open Relation

theorem Allocation.released_footprint (row : Allocation) : row.released.footprint = row.footprint := by
  unfold released
  split <;> rfl

theorem Allocation.released_isLive (row : Allocation) :
    row.released.isLive = (row.isLive && !row.isStack) := by
  unfold released
  split
  · rename_i h
    simp [h.1]
  · cases hs : row.isStack <;> cases hl : row.isLive <;> simp_all

namespace Memory

variable {mem mem' mem'' : Memory} {row new : Allocation} {i n : Nat} {rel : Bool → Bool → Prop}

/-! ### Allocations over time -/

/-- Every allocation is still there, as large and of the same kind, and lives as the relation says. -/
def Carries (rel : Bool → Bool → Prop) (mem mem' : Memory) : Prop :=
  ∀ (i : Nat) (row : Allocation), mem.allocations[i]? = some row →
    ∃ row', mem'.allocations[i]? = some row' ∧ row'.footprint = row.footprint ∧
      row'.isStack = row.isStack ∧ rel row.isLive row'.isLive

/-- No allocation that has died lives again. -/
def Remembers : Memory → Memory → Prop := Carries fun before after => after → before

theorem carries_refl (hr : ∀ b, rel b b) (mem : Memory) : mem.Carries rel mem :=
  fun _ row h => ⟨row, h, rfl, rfl, hr _⟩

theorem Carries.trans (ht : ∀ a b c, rel a b → rel b c → rel a c) (h : mem.Carries rel mem')
    (h' : mem'.Carries rel mem'') : mem.Carries rel mem'' := by
  intro i row hrow
  obtain ⟨row', hrow', hfootprint, hstack, hlive⟩ := h i row hrow
  obtain ⟨row'', hrow'', hfootprint', hstack', hlive'⟩ := h' i row' hrow'
  exact ⟨row'', hrow'', hfootprint'.trans hfootprint, hstack'.trans hstack, ht _ _ _ hlive hlive'⟩

theorem carries_push (hr : ∀ b, rel b b) (mem : Memory) (new : Allocation) :
    mem.Carries rel (mem.push new).2 := by
  intro i row hrow
  obtain ⟨hlt, -⟩ := Array.getElem?_eq_some_iff.mp hrow
  refine ⟨row, ?_, rfl, rfl, hr _⟩
  rw [push, Array.getElem?_push_lt hlt, ← hrow, Array.getElem?_eq_getElem hlt]

theorem carries_setCell (hr : ∀ b, rel b b) (mem : Memory) (p : Pointer) (d : Datum) :
    mem.Carries rel (mem.setCell p d) := by
  intro i row hrow
  rw [setCell_getElem?, hrow]
  split
  · exact ⟨_, rfl, rfl, rfl, hr _⟩
  · exact ⟨_, rfl, rfl, rfl, hr _⟩

theorem remembers_free (mem : Memory) (n : Nat) : mem.Remembers (mem.free n) := by
  intro i row hrow
  rw [free_getElem?, hrow]
  split
  · refine ⟨_, rfl, row.released_footprint, row.released_isStack, fun h => ?_⟩
    rw [row.released_isLive, Bool.and_eq_true] at h
    exact h.1
  · exact ⟨_, rfl, rfl, rfl, id⟩

/-- An allocation that has died is neither read nor written, however much later. -/
theorem Remembers.refuses {p : Pointer} (h : mem.Remembers mem')
    (hrow : mem.allocations[p.allocation]? = some row) (hdead : row.isLive = false) :
    mem'.load (some p) = .error (.released p.allocation) ∧
      ∀ d, mem'.changedCell (some p) d = .error (.released p.allocation) := by
  obtain ⟨row', hrow', -, -, hlive⟩ := h _ row hrow
  have hdead' : row'.isLive = false := by
    cases hl : row'.isLive with
    | false => rfl
    | true => exact absurd (hlive hl) (by simp [hdead])
  have hcell : mem'.cell p = .error (.released p.allocation) := by
    simp [cell, Memory.row, hrow', hdead', bind, Except.bind]
  refine ⟨?_, fun d => ?_⟩
  · rw [load, hcell]
    rfl
  · rw [changedCell, hcell]
    rfl

theorem Carries.mark_le (h : mem.Carries rel mem') : mem.mark ≤ mem'.mark := by
  by_contra hlt
  have hmark : mem'.mark < mem.allocations.size := Nat.lt_of_not_le hlt
  obtain ⟨row', hrow', -⟩ := h mem'.mark _ (Array.getElem?_eq_getElem hmark)
  exact Nat.lt_irrefl _ (Array.getElem?_eq_some_iff.mp hrow').1

/-- A live allocation takes up no more than is accounted for. -/
theorem Accounted.footprint_le (h : mem.Accounted) (hrow : mem.allocations[i]? = some row)
    (hlive : row.isLive = true) : row.footprint ≤ mem.used := by
  have hlt := (Array.getElem?_eq_some_iff.mp hrow).1
  have hsum := h.sum_le (List.nodup_singleton i) (by simpa using hlt)
  simpa [held_of_getElem? hrow, Allocation.held, hlive] using hsum

/-! ### One change after the other -/

/-- One change of memory: a new allocation for which there is room, a new content of a cell, or an
allocation freed if it is a live one of the stack. -/
inductive Moves : Memory → Memory → Prop
  | push (mem : Memory) (row : Allocation) : row.isLive = true →
    row.footprint ≤ mem.limit - mem.used → Moves mem (mem.push row).2
  | setCell (mem : Memory) (p : Pointer) (d : Datum) : Moves mem (mem.setCell p d)
  | free (mem : Memory) (n : Nat) : Moves mem (mem.free n)

def Moved : Memory → Memory → Prop := ReflTransGen Moves

theorem Moves.accounted (h : Moves mem mem') (ha : mem.Accounted) :
    mem'.Accounted ∧ mem'.limit = mem.limit := by
  cases h with
  | push row hlive hroom => exact ⟨ha.push hlive hroom, rfl⟩
  | setCell p d => exact ⟨ha.setCell, rfl⟩
  | free n => exact ⟨ha.free n, limit_free mem n⟩

theorem Moved.accounted (h : mem.Moved mem') (ha : mem.Accounted) :
    mem'.Accounted ∧ mem'.limit = mem.limit := by
  induction h with
  | refl => exact ⟨ha, rfl⟩
  | tail _ hmove ih =>
    obtain ⟨ha', hlimit⟩ := hmove.accounted ih.1
    exact ⟨ha', hlimit.trans ih.2⟩

theorem Moves.remembers (h : Moves mem mem') : mem.Remembers mem' := by
  cases h with
  | push row => exact carries_push (fun _ => id) mem row
  | setCell p d => exact carries_setCell (fun _ => id) mem p d
  | free n => exact remembers_free mem n

theorem Moved.remembers (h : mem.Moved mem') : mem.Remembers mem' := by
  induction h with
  | refl => exact carries_refl (fun _ => id) mem
  | tail _ hmove ih => exact ih.trans (fun _ _ _ h h' hlive => h (h' hlive)) hmove.remembers

theorem moved_releaseFrom (mem : Memory) (number : Nat) : mem.Moved (mem.releaseFrom number) := by
  have fold (n : Nat) : mem.Moved (n.fold (fun i _ mem => free mem (number + i)) mem) := by
    induction n with
    | zero => exact .refl
    | succ n ih =>
      rw [Nat.fold_succ]
      exact ih.tail (.free _ _)
  exact fold _

/-! ### What a step leaves alive -/

/-- Changes after which everything is alive that was there and alive before, or is new and not on
the stack. -/
structure Sustains (mem mem' : Memory) : Prop where
  moved : mem.Moved mem'
  old : mem.Carries (· = ·) mem'
  new : ∀ i row, mem.mark ≤ i → mem'.allocations[i]? = some row → row.isStack = false →
    row.isLive = true

theorem Sustains.refl (mem : Memory) : mem.Sustains mem where
  moved := .refl
  old := carries_refl (fun _ => rfl) mem
  new _ _ hi hrow := absurd (Array.getElem?_eq_some_iff.mp hrow).1 (Nat.not_lt.mpr hi)

theorem Sustains.trans (h : mem.Sustains mem') (h' : mem'.Sustains mem'') : mem.Sustains mem'' where
  moved := h.moved.trans h'.moved
  old := h.old.trans (fun _ _ _ => Eq.trans) h'.old
  new i row hi hrow hstack := by
    by_cases hlt : i < mem'.allocations.size
    · -- It was new in between, and stayed as it was.
      have hmid := Array.getElem?_eq_getElem hlt
      obtain ⟨row', hrow', -, hstack', hlive'⟩ := h'.old i _ hmid
      obtain rfl := Option.some_inj.mp (hrow'.symm.trans hrow)
      exact hlive' ▸ h.new i _ hi hmid (hstack'.symm.trans hstack)
    · exact h'.new i row (Nat.le_of_not_lt hlt) hrow hstack

theorem sustains_push (hlive : new.isLive = true) (hroom : new.footprint ≤ mem.limit - mem.used) :
    mem.Sustains (mem.push new).2 where
  moved := .single (.push mem new hlive hroom)
  old := carries_push (fun _ => rfl) mem new
  new i row hi hrow _ := by
    have hsize : i < mem.allocations.size + 1 := by
      simpa [push] using (Array.getElem?_eq_some_iff.mp hrow).1
    obtain rfl : i = mem.allocations.size := Nat.le_antisymm (Nat.le_of_lt_succ hsize) hi
    obtain rfl : new = row := by simpa [push] using hrow
    exact hlive

theorem sustains_setCell (mem : Memory) (p : Pointer) (d : Datum) :
    mem.Sustains (mem.setCell p d) where
  moved := .single (.setCell mem p d)
  old := carries_setCell (fun _ => rfl) mem p d
  new _ _ hi hrow _ := by
    have hlt := (Array.getElem?_eq_some_iff.mp hrow).1
    rw [setCell_size] at hlt
    exact absurd hlt (Nat.not_lt.mpr hi)

/-- Freeing the new allocations of the stack. -/
theorem Sustains.releaseFrom (h : mem.Sustains mem') :
    mem.Sustains (mem'.releaseFrom mem.mark) where
  moved := h.moved.trans (moved_releaseFrom mem' mem.mark)
  old i row hrow := by
    have hlt : ¬ mem.mark ≤ i := Nat.not_le.mpr (Array.getElem?_eq_some_iff.mp hrow).1
    rw [releaseFrom_getElem?, if_neg hlt]
    exact h.old i row hrow
  new i row hi hrow hstack := by
    rw [releaseFrom_getElem?, if_pos hi, Option.map_eq_some_iff] at hrow
    obtain ⟨row', hrow', rfl⟩ := hrow
    rw [row'.released_isStack] at hstack
    simpa [row'.released_isLive, hstack] using h.new i row' hi hrow' hstack

/-! ### What a call gives back -/

/-- The allocations behind the first so many. -/
def since (mem : Memory) (mark : Nat) : List Allocation := mem.allocations.toList.drop mark

theorem mem_since {mark : Nat} :
    row ∈ mem.since mark ↔ ∃ i, mark ≤ i ∧ mem.allocations[i]? = some row := by
  constructor
  · intro h
    obtain ⟨i, hi⟩ := List.mem_iff_getElem?.mp h
    rw [since, List.getElem?_drop, Array.getElem?_toList] at hi
    exact ⟨mark + i, Nat.le_add_right _ _, hi⟩
  · rintro ⟨i, hi, hrow⟩
    obtain ⟨k, rfl⟩ := Nat.exists_eq_add_of_le hi
    apply List.mem_of_getElem? (i := k)
    rwa [since, List.getElem?_drop, Array.getElem?_toList]

/-- What was there is alive as before; of what is new just the stack is dead, and the rest is what
more is in use. -/
structure Returned (mem mem' : Memory) : Prop where
  old : mem.Carries (· = ·) mem'
  new : ∀ row ∈ mem'.since mem.mark, row.isLive = !row.isStack
  used : mem'.used = mem.used +
    (((mem'.since mem.mark).filter fun row => !row.isStack).map (·.footprint)).sum

theorem sum_held (mem : Memory) : ((List.range mem.allocations.size).map mem.held).sum =
    (mem.allocations.toList.map Allocation.held).sum := by
  congr 1
  apply List.ext_getElem
  · simp
  · intro i h h'
    simp [held, Array.getElem?_eq_getElem (show i < mem.allocations.size by simpa using h)]

theorem sum_held_of_new {rows : List Allocation} (h : ∀ row ∈ rows, row.isLive = !row.isStack) :
    (rows.map Allocation.held).sum =
      ((rows.filter fun row => !row.isStack).map (·.footprint)).sum := by
  induction rows with
  | nil => rfl
  | cons row rows ih =>
    have hrow := h row (by simp)
    have hrows := ih fun r hr => h r (by simp [hr])
    cases hs : row.isStack <;> simp [Allocation.held, hrow, hs, hrows]

/-- Where everything that was there is alive as before, it holds what it held. -/
theorem Carries.sum_held (h : mem.Carries (· = ·) mem') :
    ((mem'.allocations.toList.take mem.mark).map Allocation.held).sum =
      (mem.allocations.toList.map Allocation.held).sum := by
  have hmark : mem.allocations.size ≤ mem'.allocations.size := h.mark_le
  congr 1
  apply List.ext_getElem
  · simpa [mark] using hmark
  · intro i hi hi'
    have hlt : i < mem.allocations.size := by simpa using hi'
    obtain ⟨row', hrow', hfootprint, -, hlive⟩ := h i _ (Array.getElem?_eq_getElem hlt)
    obtain ⟨hlt', rfl⟩ := Array.getElem?_eq_some_iff.mp hrow'
    simp [Allocation.held, hfootprint, ← hlive]

theorem Sustains.returned (h : mem.Sustains mem')
    (hdead : ∀ i row, mem.mark ≤ i → mem'.allocations[i]? = some row → row.isStack = true →
      row.isLive = false) (ha : mem.Accounted) : mem.Returned mem' := by
  have hnew : ∀ row ∈ mem'.since mem.mark, row.isLive = !row.isStack := by
    intro row hrow
    obtain ⟨i, hi, hrow⟩ := mem_since.mp hrow
    cases hs : row.isStack with
    | true => exact hdead i row hi hrow hs
    | false => exact h.new i row hi hrow hs
  refine ⟨h.old, hnew, ?_⟩
  have hsplit := List.take_append_drop mem.mark mem'.allocations.toList
  calc mem'.used
      = (mem'.allocations.toList.map Allocation.held).sum := by
        rw [(h.moved.accounted ha).1.used, sum_held]
    _ = ((mem'.allocations.toList.take mem.mark).map Allocation.held).sum +
          ((mem'.since mem.mark).map Allocation.held).sum := by
        rw [since, ← List.sum_append_nat, ← List.map_append, hsplit]
    _ = _ := by
        rw [h.old.sum_held, ← sum_held, ← ha.used, sum_held_of_new hnew]

theorem returned_refl (ha : mem.Accounted) : mem.Returned mem :=
  (Sustains.refl mem).returned (fun _ _ hi hrow _ =>
    absurd (Array.getElem?_eq_some_iff.mp hrow).1 (Nat.not_lt.mpr hi)) ha

theorem Sustains.returned_releaseFrom (h : mem.Sustains mem') (ha : mem.Accounted) :
    mem.Returned (mem'.releaseFrom mem.mark) := by
  refine h.releaseFrom.returned (fun i row hi hrow hstack => ?_) ha
  rw [releaseFrom_getElem?, if_pos hi, Option.map_eq_some_iff] at hrow
  obtain ⟨row', -, rfl⟩ := hrow
  rw [row'.released_isStack] at hstack
  simp [row'.released_isLive, hstack]

end Memory

/-! ### Runs -/

namespace Run

variable {m : Module} {α β : Type}

/-- A step frees nothing that was there before it, and of what it makes at most the stack. -/
def Sustains (α : Type) (step _ : Run α) : Prop :=
  ∀ s : Machine, s.memory.Sustains (step.run.run s).2.memory

theorem sustains_bind {step step' : Run β} {next next' : β → Run α} (h : Sustains β step step')
    (hn : ∀ b, Sustains α (next b) (next' b)) : Sustains α (step >>= next) (step' >>= next') :=
  along_bind (fun s t => s.memory.Sustains t.memory) (fun _ _ _ => .trans) h hn

theorem sustains_bounded (e : Setting) : Bounded e e.limits Sustains where
  ofExcept _ _ _ := .refl _
  bind := sustains_bind
  zero _ _ := .refl _
  known v _ _ h s := h s.globals[v]? s
  record _ _ _ _ := .refl _
  allocate type count isStack s := by
    rw [allocate_run]
    cases hrow : s.memory.newRow e.host e.module.types type count isStack with
    | error fault => exact .refl _
    | ok row =>
      obtain ⟨n, hroom, -, rfl⟩ := Memory.newRow_eq_ok.mp hrow
      exact Memory.sustains_push rfl (Memory.room_eq_ok.mp hroom).2
  load _ _ := .refl _
  store target d s := by
    rw [store_run]
    cases s.memory.changedCell target d with
    | error fault => exact .refl _
    | ok r => exact Memory.sustains_setCell _ _ _
  stepLimit _ _ := .refl _
  callDepth _ _ _ := .refl _
  tick s := by
    rw [tick_run]
    exact .refl _
  deeper name _ _ h s := by
    rw [deeper_run]
    split
    · exact .refl _
    · exact h s
  nested h s := (h { s with depth := s.depth + 1 }).releaseFrom

end Run

/-- Memory at this stage of a run came from an earlier one. -/
def Stage.From (mem : Memory) : Stage → Prop
  | .running _ _ s => mem.Moved s.memory
  | .finished _ => True

namespace Setting

open Run Stage

variable {e : Setting} {mem : Memory} {callers : List Activation} {s t : Machine} {mark : Nat}
  {f : FunctionId} {b : BlockId} {frame : Frame} {data : List Datum} {a : Activation} {st : Stage}

theorem sustained (e : Setting) : Bounded e e.limits Run.Sustains := sustains_bounded e

theorem from_returned {d : Datum} (h : mem.Moved s.memory) : (returned callers d s).From mem := by
  cases callers with
  | nil => trivial
  | cons a callers => exact h

theorem from_settled {r : Except Fault Datum × Machine} (h : mem.Moved r.2.memory) :
    (settled callers r).From mem := by
  obtain ⟨fault | d, s⟩ := r
  · trivial
  · exact from_returned h

theorem from_entered {previous : Option BlockId} (h : mem.Moved s.memory) :
    (e.entered callers mark f previous b frame s).From mem := by
  have hphis : Run.Sustains _ (e.readPhis f b previous frame (e.module.instructions b))
      (e.readPhis f b previous frame (e.module.instructions b)) :=
    readPhis_parallel e.sustained.toParallel rfl rfl
  have hs := (hphis s).moved
  unfold entered
  rcases hr : (e.readPhis f b previous frame (e.module.instructions b)).run.run s with
    ⟨fault | ⟨merged, rest⟩, t⟩
  · trivial
  · rw [hr] at hs
    exact h.trans hs

theorem from_called (h : mem.Moved s.memory) : (e.called callers f data s).From mem := by
  unfold called
  split
  · trivial
  · split
    · exact from_settled h
    · split
      · trivial
      · split
        · trivial
        · exact from_entered h

theorem from_left {r : Except Fault Flow × Machine} (h : mem.Moved r.2.memory) :
    (e.left callers mark f b r).From mem := by
  obtain ⟨fault | ⟨dest, frame⟩ | d, s⟩ := r
  · trivial
  · exact from_entered h
  · exact from_returned (h.trans (Memory.moved_releaseFrom s.memory mark))

theorem from_leaves {v : ValueId} (h : mem.Moved s.memory) :
    (e.leaves callers a v s).From mem := by
  have hrun : Run.Sustains Flow (e.runInstructions idle a.function a.block [v] a.frame)
      (e.runInstructions idle a.function a.block [v] a.frame) :=
    runInstructions_parallel e.sustained rfl rfl fun _ _ => e.sustained.toParallel.throw _ rfl
  exact from_left (h.trans (hrun s).moved)

theorem from_opens {args : List ValueId} (h : mem.Moved s.memory) :
    (e.opens callers a f args s).From mem := by
  have hasks : Run.Sustains (List Datum) (e.asks a.frame args) (e.asks a.frame args) :=
    e.sustained.bind e.sustained.tick fun _ => e.sustained.toParallel.mapM fun v _ =>
      operand_parallel e.sustained.toParallel rfl rfl a.frame v
  have hs := (hasks s).moved
  unfold opens
  rcases hr : (e.asks a.frame args).run.run s with ⟨fault | data, t⟩
  · trivial
  · rw [hr] at hs
    exact from_called (h.trans hs)

/-- One instruction changes memory by such changes only. -/
theorem from_proceed (h : st.From mem) : (e.proceed st).From mem := by
  cases st with
  | finished r => trivial
  | running a callers s =>
    unfold proceed
    dsimp only
    split
    · trivial
    · rename_i v rest _
      split
      · exact from_leaves h
      · exact from_opens h
      · rename_i i hi hcall
        split
        · exact from_leaves h
        · have hrun : Run.Sustains Datum (e.computes a.frame v i) (e.computes a.frame v i) :=
            e.sustained.bind e.sustained.tick fun _ => evaluate_parallel e.sustained.toParallel rfl rfl
              fun _ _ _ _ => e.sustained.toParallel.throw _ rfl
          exact from_settled (h.trans (hrun s).moved)

theorem from_iterate (h : st.From mem) (k : Nat) : (e.proceed^[k] st).From mem := by
  induction k with
  | zero => exact h
  | succ k ih =>
    rw [Function.iterate_succ_apply']
    exact from_proceed ih

theorem call_sustains (levels : Nat) (f : FunctionId) (data : List Datum) :
    Run.Sustains Datum (e.call levels f data) (e.call levels f data) :=
  call_parallel e.sustained rfl rfl (Nat.le_refl _) (Nat.le_refl _) f data

theorem call_returned (levels : Nat) (ha : s.memory.Accounted) :
    s.memory.Returned ((e.call levels f data).run.run s).2.memory := by
  rw [call_run]
  split
  · exact Memory.returned_refl ha
  · split
    · exact Memory.returned_refl ha
    · split
      · exact Memory.returned_refl ha
      · cases levels with
        | zero => exact Memory.returned_refl ha
        | succ levels =>
          have hbody : Run.Sustains Datum (e.execute (e.call levels) f data)
              (e.execute (e.call levels) f data) :=
            execute_parallel e.sustained rfl rfl (Nat.le_refl _) (call_sustains levels)
          exact (hbody { s with depth := s.depth + 1 }).returned_releaseFrom ha

end Setting

/-- What an earlier machine had allocated, a later one still has under its number. None of it that was
dead lives again, or can be read or written, and new allocations get other numbers. -/
structure Machine.Remembers (s t : Machine) : Prop where
  rows : s.memory.Remembers t.memory
  fresh : ∀ host types type count isStack p u,
    (Run.allocate host types type count isStack).run.run t = (.ok p, u) → s.memory.mark ≤ p.allocation
  refuses : ∀ (p : Pointer) row, s.memory.allocations[p.allocation]? = some row →
    row.isLive = false →
      (Run.load (some p)).run.run t = (.error (.released p.allocation), t) ∧
        ∀ d, (Run.store (some p) d).run.run t = (.error (.released p.allocation), t)

theorem Memory.Moved.recalled {s t : Machine} (h : s.memory.Moved t.memory) : s.Remembers t where
  rows := h.remembers
  fresh host types type count isStack p u hp := by
    rw [Run.allocate_run] at hp
    cases hrow : t.memory.newRow host types type count isStack with
    | error fault =>
      rw [hrow] at hp
      cases hp
    | ok row =>
      rw [hrow] at hp
      cases hp
      exact h.remembers.mark_le
  refuses p row hrow hdead := by
    obtain ⟨hload, hstore⟩ := h.remembers.refuses hrow hdead
    refine ⟨by rw [Run.load_run, hload], fun d => ?_⟩
    rw [Run.store_run, hstore d]

namespace Setting

open Stage

/-- All along every run memory changes by small changes, from one instruction to any later one. After
each of these changes it is accounted for, so that what is freed next is not more than is in use, and
nothing that has died comes back. A call, whether it fails or not, leaves as many calls open as it
found, what was there as it was, and of its own allocations just those that are not on the stack. -/
theorem frames_given_back (e : Setting) :
    (∀ f data k a callers s, e.proceed^[k] (e.opening f data) = .running a callers s →
      e.start.memory.Moved s.memory ∧ ∀ l a' callers' t,
        e.proceed^[l] (.running a callers s) = .running a' callers' t → s.memory.Moved t.memory) ∧
    (∀ mem, e.start.memory.Moved mem → mem.Accounted ∧ mem.limit = e.limits.cells ∧
      ∀ (i : Nat) (row : Allocation), mem.allocations[i]? = some row → row.isLive = true →
        row.footprint ≤ mem.used) ∧
    (∀ s t : Machine, s.memory.Moved t.memory → s.Remembers t) ∧
    ∀ levels f data s, s.memory.Accounted →
      let t := ((e.call levels f data).run.run s).2
      t.depth = s.depth ∧ s.memory.Moved t.memory ∧ s.memory.Returned t.memory := by
  refine ⟨fun f data k a callers s hs => ⟨?_, fun l a' callers' t ht => ?_⟩, fun mem h => ?_,
    fun s t h => h.recalled, fun levels f data s ha => ⟨?_, ?_, ?_⟩⟩
  · have hfrom : (e.opening f data).From e.start.memory := from_called .refl
    have hstage := from_iterate (e := e) hfrom k
    rwa [hs] at hstage
  · have hfrom : (running a callers s).From s.memory := ReflTransGen.refl
    have hstage := from_iterate (e := e) hfrom l
    rwa [ht] at hstage
  · obtain ⟨ha, hlimit⟩ := h.accounted (Memory.accounted_empty e.limits.cells)
    exact ⟨ha, hlimit, fun i row hrow hlive => ha.footprint_le hrow hlive⟩
  · exact (call_keeps levels f data s).1
  · exact (call_sustains levels f data s).moved
  · exact call_returned levels ha

/-- A helper that has a slot and reads a global, and a function with a slot that calls it twice. -/
def lending : List Call :=
  [.types (.ofType (.int 32)),
    .symbol (.addGlobal ⟨0⟩ "g"),
    .symbol (.declareFunction "helper" ⟨0⟩ [] false),
    .symbol (.declareFunction "main" ⟨0⟩ [] false),
    .layout (.appendBlock ⟨0⟩ "entry"),
    .setCursor (some { block := ⟨0⟩ }),
    .emission (.alloca ⟨0⟩),
    .emission (.load ⟨0⟩),
    .emission (.ret ⟨2⟩),
    .layout (.appendBlock ⟨1⟩ "entry"),
    .setCursor (some { block := ⟨1⟩ }),
    .emission (.alloca ⟨0⟩),
    .emission (.call ⟨0⟩ []),
    .emission (.call ⟨0⟩ []),
    .emission (.ret ⟨6⟩)]

/-- The program behind those calls, with room for three numbers. -/
def lent : Setting :=
  ⟨(Builder.replay { module := { name := "lending" } } lending).module, .standard, { cells := 3 }⟩

/-- What is in use, and of each allocation whether it is on the stack and whether it is alive. -/
def outline (mem : Memory) : Nat × List (Bool × Bool) :=
  (mem.used, mem.allocations.toList.map fun row => (row.isStack, row.isLive))

theorem lent_run : outline ((lent.call 2 ⟨1⟩ []).run.run lent.start).2.memory =
    (1, [(true, false), (true, false), (false, true), (true, false)]) := by
  decide +kernel

/-- The second call of the helper finds room because the first one has given its slot back. In the end
just the global is alive. -/
theorem lent_given_back :
    let t := ((lent.call 2 ⟨1⟩ []).run.run lent.start).2
    lent.start.memory.Accounted ∧ t.depth = lent.start.depth ∧
      lent.start.memory.Returned t.memory ∧
      outline t.memory = (1, [(true, false), (true, false), (false, true), (true, false)]) := by
  obtain ⟨-, -, -, hcall⟩ := lent.frames_given_back
  have haccounted : lent.start.memory.Accounted := Memory.accounted_empty 3
  obtain ⟨hdepth, -, hreturned⟩ := hcall 2 ⟨1⟩ [] lent.start haccounted
  exact ⟨haccounted, hdepth, hreturned, lent_run⟩

end Setting
end SsaKit
