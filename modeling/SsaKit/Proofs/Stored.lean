import SsaKit.Proofs.Json
import SsaKit.Stored.Module

/-! What is written in its stored form is read back, part by part. -/
namespace SsaKit

open Stored

namespace Stored

variable {α β : Type} {entity : Entity}

/-- A value whose stored form is plain text that says the value. -/
structure Kept [Stored α] (a : α) : Prop where
  plain : (write a : Json).Plain
  reads : Stored.read (write a) = some a

/-- A value whose stored form is plain text, and what that text is read as. -/
structure Rereads [Stored α] (a : α) (r : Option α) : Prop where
  plain : (write a : Json).Plain
  reads : Stored.read (write a) = r

theorem Kept.rereads [Stored α] {a : α} (h : Kept a) : Rereads a (some a) := ⟨h.plain, h.reads⟩

theorem Rereads.kept [Stored α] {a : α} (h : Rereads a (some a)) : Kept a := ⟨h.plain, h.reads⟩

/-! ### Records and variants -/

theorem members?_record (members : List (String × Json)) :
    (Json.record members).members? = some members := by
  simp only [Json.record, Json.members?]
  induction members with
  | nil => rfl
  | cons e members ih => simp [ih]

theorem plain_record {members : List (String × Json)} (h : ∀ j ∈ members.map (·.2), j.Plain) :
    (Json.record members).Plain := by
  refine .object (fun e he => ?_) (fun e he => ?_)
  · obtain ⟨m, -, rfl⟩ := List.mem_map.mp he
    rfl
  · obtain ⟨m, hm, rfl⟩ := List.mem_map.mp he
    exact h m.2 (List.mem_map_of_mem hm)

theorem plain_holding {tag : String} {payload : Json} (h : payload.Plain) :
    (holding tag payload).Plain :=
  plain_record (by simpa using h)

theorem plain_variant {tag : String} {members : List (String × Json)}
    (h : ∀ j ∈ members.map (·.2), j.Plain) : (holding tag (.record members)).Plain :=
  plain_holding (plain_record h)

section Fields

variable {γ δ : Type} {x : Option α} {y : Option β} {z : Option γ} {a : α} {b : β} {c : γ}

/-! All fields of a record can be read, so the record can. -/

theorem reads₁ {f : α → δ} (hx : x = some a) : (do return f (← x)) = some (f a) := by
  rw [hx]
  rfl

theorem reads₂ {f : α → β → δ} (hx : x = some a) (hy : y = some b) :
    (do return f (← x) (← y)) = some (f a b) := by
  rw [hx, hy]
  rfl

theorem reads₃ {f : α → β → γ → δ} (hx : x = some a) (hy : y = some b) (hz : z = some c) :
    (do return f (← x) (← y) (← z)) = some (f a b c) := by
  rw [hx, hy, hz]
  rfl

end Fields

/-! ### Basic forms -/

theorem kept_nat {n : Nat} (h : n < 2 ^ 64) : Kept n where
  plain := .number (Json.literal_toString n)
  reads := Json.nat?_ofNat h

theorem narrow?_ofNat {n : Nat} (h : n < 2 ^ 32) : narrow? (.ofNat n) = some n := by
  rw [narrow?, Json.nat?_ofNat (by omega)]
  simpa using h

theorem kept_handle {k : Handle entity} (h : k.index < 2 ^ 32) : Kept k where
  plain := .number (Json.literal_toString k.index)
  reads := by
    show (narrow? (.ofNat k.index)).map Handle.mk = some k
    rw [narrow?_ofNat h]
    rfl

theorem kept_word (w : UInt64) : Kept w where
  plain := .number (Json.literal_toString w.toNat)
  reads := by
    show (Json.ofNat w.toNat).nat?.map UInt64.ofNat = some w
    rw [Json.nat?_ofNat w.toNat_lt, Option.map_some, UInt64.ofNat_toNat]

theorem kept_byte (b : UInt8) : Kept b where
  plain := .number (Json.literal_toString b.toNat)
  reads := by
    show ((Json.ofNat b.toNat).nat?.filter (· < 2 ^ 8)).map UInt8.ofNat = some b
    have hlt := b.toNat_lt
    rw [Json.nat?_ofNat (by omega), Option.filter_some, if_pos (by simpa using hlt),
      Option.map_some, UInt8.ofNat_toNat]

theorem kept_bool (b : Bool) : Kept b := ⟨.bool b, rfl⟩

theorem kept_string (s : String) : Kept s := ⟨.text s, rfl⟩

theorem read_some [Stored α] {j : Json} (hj : j ≠ .null) :
    (Stored.read j : Option (Option α)) = (Stored.read j).map some := by
  cases j with
  | null => exact absurd rfl hj
  | _ => rfl

theorem kept_option [Stored α] {o : Option α} (h : ∀ a ∈ o, Kept a)
    (hn : ∀ a ∈ o, (write a : Json) ≠ .null) : Kept o := by
  cases o with
  | none => exact ⟨.null, rfl⟩
  | some a =>
    refine ⟨(h a rfl).plain, ?_⟩
    refine (read_some (hn a rfl)).trans ?_
    rw [(h a rfl).reads]
    rfl

theorem kept_name (o : Option String) : Kept o :=
  kept_option (fun s _ => kept_string s) (fun _ _ => nofun)

theorem kept_link {o : Option (Handle entity)} (h : ∀ k ∈ o, k.index < 2 ^ 32) : Kept o :=
  kept_option (fun k hk => kept_handle (h k hk)) (fun _ _ => nofun)

theorem mapM_rereads [Stored α] {as : List α} {f : α → Option α}
    (h : ∀ a ∈ as, Rereads a (f a)) : (as.map write).mapM (m := Option) Stored.read = as.mapM f := by
  induction as with
  | nil => rfl
  | cons a as ih =>
    rw [List.map_cons, List.mapM_cons, List.mapM_cons, (h a List.mem_cons_self).reads,
      ih fun b hb => h b (List.mem_cons_of_mem _ hb)]

theorem rereads_list [Stored α] {as : List α} {f : α → Option α}
    (h : ∀ a ∈ as, Rereads a (f a)) : Rereads as (as.mapM f) :=
  ⟨.array (by simpa using fun a ha => (h a ha).plain), mapM_rereads h⟩

theorem rereads_array [Stored α] {as : Array α} {f : α → Option α}
    (h : ∀ a ∈ as.toList, Rereads a (f a)) :
    Rereads as ((as.toList.mapM f).map List.toArray) where
  plain := (rereads_list h).plain
  reads := congrArg (Option.map List.toArray) (rereads_list h).reads

theorem kept_list [Stored α] {as : List α} (h : ∀ a ∈ as, Kept a) : Kept as := by
  have hread := rereads_list fun a ha => (h a ha).rereads
  have hall : as.mapM some = some as :=
    (List.mapM_pure (m := Option) (l := as) (f := id)).trans (congrArg some as.map_id)
  exact (hall ▸ hread).kept

theorem kept_array [Stored α] {as : Array α} (h : ∀ a ∈ as.toList, Kept a) : Kept as where
  plain := (kept_list h).plain
  reads := congrArg (Option.map List.toArray) (kept_list h).reads

theorem kept_pair [Stored α] [Stored β] {p : α × β} (h : Kept p.1) (h' : Kept p.2) : Kept p where
  plain := .array (by simpa using ⟨h.plain, h'.plain⟩)
  reads := by
    show (do return (← Stored.read (write p.1), ← Stored.read (write p.2))) = some p
    rw [h.reads, h'.reads]
    rfl

theorem kept_chain {c : Chain entity} (hf : ∀ k ∈ c.first, k.index < 2 ^ 32)
    (hl : ∀ k ∈ c.last, k.index < 2 ^ 32) (hn : c.length < 2 ^ 64) : Kept c where
  plain := plain_record (by simp [(kept_link hf).plain, (kept_link hl).plain, (kept_nat hn).plain])
  reads := reads₃ (f := Chain.mk) (kept_link hf).reads (kept_link hl).reads (kept_nat hn).reads

theorem kept_handles {ks : List (Handle entity)} (h : ∀ k ∈ ks, k.index < 2 ^ 32) : Kept ks :=
  kept_list fun k hk => kept_handle (h k hk)

end Stored

namespace BinaryOp

theorem kept (op : BinaryOp) : Kept op := ⟨.text _, by cases op <;> rfl⟩

end BinaryOp

theorem IntPredicate.kept (p : IntPredicate) : Kept p := ⟨.text _, by cases p <;> rfl⟩

theorem FloatPredicate.kept (p : FloatPredicate) : Kept p := ⟨.text _, by cases p <;> rfl⟩

theorem CastOp.kept (op : CastOp) : Kept op := ⟨.text _, by cases op <;> rfl⟩

theorem Linkage.kept (l : Linkage) : Kept l := ⟨.text _, by cases l <;> rfl⟩

/-! ### Types -/

namespace Ty

/-- A length fits the field it is stored in. -/
def lengthFits : Ty → Bool
  | array _ n => n < 2 ^ 64
  | vector _ n => n < 2 ^ 32
  | _ => true

/-- The numbers of an entry fit the fields they are stored in. -/
structure Narrow (ty : Ty) : Prop where
  children : ∀ t ∈ ty.children, t.index < 2 ^ 32
  width : ∀ n, ty = .int n → n < 2 ^ 32
  length : ty.lengthFits

theorem kept {ty : Ty} (h : ty.Narrow) : Kept ty := by
  have hchild {t : TypeId} (ht : t ∈ ty.children) : Kept t := kept_handle (h.children t ht)
  cases ty with
  | void | float | double => exact ⟨.text _, rfl⟩
  | int bits =>
    refine ⟨plain_holding (.number (Json.literal_toString bits)), ?_⟩
    show (narrow? (.ofNat bits)).map int = _
    rw [narrow?_ofNat (h.width bits rfl)]
    rfl
  | pointer t =>
    have ht := hchild List.mem_cons_self
    exact ⟨plain_holding ht.plain, congrArg (Option.map pointer) ht.reads⟩
  | array t n =>
    have ht := hchild List.mem_cons_self
    have hn := kept_nat (of_decide_eq_true h.length)
    exact ⟨plain_variant (by simpa using ⟨ht.plain, hn.plain⟩), reads₂ (f := array) ht.reads hn.reads⟩
  | vector t n =>
    have ht := hchild List.mem_cons_self
    exact ⟨plain_variant (by simpa using ⟨ht.plain, .number (Json.literal_toString n)⟩),
      reads₂ (f := vector) ht.reads (narrow?_ofNat (of_decide_eq_true h.length))⟩
  | struct name fields isPacked =>
    have hfields : Kept fields :=
      kept_option (fun ts hts => kept_list fun t ht => hchild (by cases hts; exact ht))
        (fun _ _ => nofun)
    exact ⟨plain_variant (by simpa using ⟨(kept_name name).plain, hfields.plain, .bool isPacked⟩),
      reads₃ (f := struct) (kept_name name).reads hfields.reads (kept_bool isPacked).reads⟩
  | function result params isVariadic =>
    have hr := hchild List.mem_cons_self
    have hp : Kept params := kept_list fun t ht => hchild (List.mem_cons_of_mem _ ht)
    exact ⟨plain_variant (by simpa using ⟨hr.plain, hp.plain, .bool isVariadic⟩),
      reads₃ (f := function) hr.reads hp.reads (kept_bool isVariadic).reads⟩

end Ty

/-! ### Values -/

namespace ValueKind

def isFloat : ValueKind → Bool
  | float _ => true
  | _ => false

/-- The place of a parameter or of a part of an aggregate fits the field it is stored in. -/
def positionFits : ValueKind → Bool
  | argument _ n => n < 2 ^ 64
  | instruction (.extractValue _ n) | instruction (.insertValue _ _ n) => n < 2 ^ 32
  | _ => true

/-- The numbers of a kind fit the fields they are stored in, and none of them is a double, which
need not be read back as it was. -/
structure Narrow (k : ValueKind) : Prop where
  types : ∀ t ∈ Module.mentionedTypes k, t.index < 2 ^ 32
  operands : ∀ v ∈ k.operands, v.index < 2 ^ 32
  blocks : ∀ b ∈ Module.mentionedBlocks k, b.index < 2 ^ 32
  functions : ∀ f ∈ Module.mentionedFunctions k, f.index < 2 ^ 32
  position : k.positionFits
  exact : k.isFloat = false

end ValueKind

namespace Instruction

theorem kept {i : Instruction} (h : (ValueKind.instruction i).Narrow) : Kept i := by
  have hv {v : ValueId} (hv : v ∈ i.operands) : Kept v := kept_handle (h.operands v hv)
  have hb {b : BlockId} (hb : b ∈ Module.mentionedBlocks (.instruction i)) : Kept b :=
    kept_handle (h.blocks b hb)
  have hoption {o : Option ValueId} (ho : ∀ v ∈ o, v ∈ i.operands) : Kept o :=
    kept_link fun v hv => h.operands v (ho v hv)
  have hlist {vs : List ValueId} (hvs : ∀ v ∈ vs, v ∈ i.operands) : Kept vs :=
    kept_handles fun v hv => h.operands v (hvs v hv)
  cases i with
  | binary op a b =>
    have ha : Kept a := hv (by simp [operands])
    have hb : Kept b := hv (by simp [operands])
    exact ⟨plain_variant (by simpa using ⟨op.kept.plain, ha.plain, hb.plain⟩),
      reads₃ (f := binary) op.kept.reads ha.reads hb.reads⟩
  | icmp p a b =>
    have ha : Kept a := hv (by simp [operands])
    have hb : Kept b := hv (by simp [operands])
    exact ⟨plain_variant (by simpa using ⟨p.kept.plain, ha.plain, hb.plain⟩),
      reads₃ (f := icmp) p.kept.reads ha.reads hb.reads⟩
  | fcmp p a b =>
    have ha : Kept a := hv (by simp [operands])
    have hb : Kept b := hv (by simp [operands])
    exact ⟨plain_variant (by simpa using ⟨p.kept.plain, ha.plain, hb.plain⟩),
      reads₃ (f := fcmp) p.kept.reads ha.reads hb.reads⟩
  | alloca t count =>
    have ht : Kept t := kept_handle (h.types t (by simp [Module.mentionedTypes]))
    have hc : Kept count := hoption (by simp [operands])
    exact ⟨plain_variant (by simpa using ⟨ht.plain, hc.plain⟩),
      reads₂ (f := alloca) ht.reads hc.reads⟩
  | load ptr =>
    have hp : Kept ptr := hv (by simp [operands])
    exact ⟨plain_variant (by simpa using hp.plain), reads₁ (f := load) hp.reads⟩
  | store a ptr =>
    have ha : Kept a := hv (by simp [operands])
    have hp : Kept ptr := hv (by simp [operands])
    exact ⟨plain_variant (by simpa using ⟨ha.plain, hp.plain⟩),
      reads₂ (f := store) ha.reads hp.reads⟩
  | elementPtr base indices =>
    have hbase : Kept base := hv (by simp [operands])
    have hi : Kept indices := hlist (by simp +contextual [operands])
    exact ⟨plain_variant (by simpa using ⟨hbase.plain, hi.plain⟩),
      reads₂ (f := elementPtr) hbase.reads hi.reads⟩
  | branch dest =>
    have hd : Kept dest := hb (by simp [Module.mentionedBlocks, successors])
    exact ⟨plain_variant (by simpa using hd.plain), reads₁ (f := branch) hd.reads⟩
  | condBranch c t e =>
    have hc : Kept c := hv (by simp [operands])
    have ht : Kept t := hb (by simp [Module.mentionedBlocks, successors])
    have he : Kept e := hb (by simp [Module.mentionedBlocks, successors])
    exact ⟨plain_variant (by simpa using ⟨hc.plain, ht.plain, he.plain⟩),
      reads₃ (f := condBranch) hc.reads ht.reads he.reads⟩
  | switch a d cases =>
    have ha : Kept a := hv (by simp [operands])
    have hd : Kept d := hb (by simp [Module.mentionedBlocks, successors])
    have hcases : Kept cases := kept_list fun e he => kept_pair
      (hv (List.mem_cons_of_mem _ (List.mem_map_of_mem he)))
      (hb (List.mem_cons_of_mem _ (List.mem_map_of_mem he)))
    exact ⟨plain_variant (by simpa using ⟨ha.plain, hd.plain, hcases.plain⟩),
      reads₃ (f := switch) ha.reads hd.reads hcases.reads⟩
  | phi incoming =>
    have hi : Kept incoming := kept_list fun e he =>
      kept_pair (hb (List.mem_map_of_mem he)) (hv (List.mem_map_of_mem he))
    exact ⟨plain_variant (by simpa using hi.plain), reads₁ (f := phi) hi.reads⟩
  | call callee args =>
    have hc : Kept callee :=
      kept_handle (h.functions callee (by simp [Module.mentionedFunctions]))
    have ha : Kept args := hlist (by simp [operands])
    exact ⟨plain_variant (by simpa using ⟨hc.plain, ha.plain⟩),
      reads₂ (f := call) hc.reads ha.reads⟩
  | ret value =>
    have ho : Kept value := hoption (by simp [operands])
    exact ⟨plain_holding ho.plain, congrArg (Option.map ret) ho.reads⟩
  | unreachable => exact ⟨.text _, rfl⟩
  | cast op a =>
    have ha : Kept a := hv (by simp [operands])
    exact ⟨plain_variant (by simpa using ⟨op.kept.plain, ha.plain⟩),
      reads₂ (f := cast) op.kept.reads ha.reads⟩
  | extractValue a n =>
    have ha : Kept a := hv (by simp [operands])
    exact ⟨plain_variant (by simpa using ⟨ha.plain, .number (Json.literal_toString n)⟩),
      reads₂ (f := extractValue) ha.reads (narrow?_ofNat (of_decide_eq_true h.position))⟩
  | insertValue a e n =>
    have ha : Kept a := hv (by simp [operands])
    have he : Kept e := hv (by simp [operands])
    exact ⟨plain_variant (by simpa using ⟨ha.plain, he.plain, .number (Json.literal_toString n)⟩),
      reads₃ (f := insertValue) ha.reads he.reads (narrow?_ofNat (of_decide_eq_true h.position))⟩
  | extractElement a n =>
    have ha : Kept a := hv (by simp [operands])
    have hn : Kept n := hv (by simp [operands])
    exact ⟨plain_variant (by simpa using ⟨ha.plain, hn.plain⟩),
      reads₂ (f := extractElement) ha.reads hn.reads⟩
  | insertElement a e n =>
    have ha : Kept a := hv (by simp [operands])
    have he : Kept e := hv (by simp [operands])
    have hn : Kept n := hv (by simp [operands])
    exact ⟨plain_variant (by simpa using ⟨ha.plain, he.plain, hn.plain⟩),
      reads₃ (f := insertElement) ha.reads he.reads hn.reads⟩
  | shuffle a b mask =>
    have ha : Kept a := hv (by simp [operands])
    have hb : Kept b := hv (by simp [operands])
    have hm : Kept mask := hv (by simp [operands])
    exact ⟨plain_variant (by simpa using ⟨ha.plain, hb.plain, hm.plain⟩),
      reads₃ (f := shuffle) ha.reads hb.reads hm.reads⟩
  | select c t e =>
    have hc : Kept c := hv (by simp [operands])
    have ht : Kept t := hv (by simp [operands])
    have he : Kept e := hv (by simp [operands])
    exact ⟨plain_variant (by simpa using ⟨hc.plain, ht.plain, he.plain⟩),
      reads₃ (f := select) hc.reads ht.reads he.reads⟩

end Instruction

namespace ValueKind

theorem Narrow.kept_global {g : Global} (h : (global g).Narrow) : Kept g := by
  have ht : Kept g.valueType := kept_handle (h.types _ (by simp [Module.mentionedTypes]))
  have hi : Kept g.initializer := kept_link fun v hv => h.operands v (Option.mem_toList.mpr hv)
  refine ⟨plain_record (by
    simpa using ⟨ht.plain, hi.plain, g.linkage.kept.plain, .bool g.isConstant⟩), ?_⟩
  show (do
    return Global.mk (← Stored.read (Stored.write g.valueType))
      (← Stored.read (Stored.write g.initializer)) (← Stored.read (Stored.write g.linkage))
      (← Stored.read (Stored.write g.isConstant))) = _
  rw [ht.reads, hi.reads, g.linkage.kept.reads, (kept_bool g.isConstant).reads]
  rfl

theorem kept {k : ValueKind} (h : k.Narrow) : Kept k := by
  cases k with
  | int word => exact ⟨plain_holding (kept_word word).plain,
      congrArg (Option.map int) (kept_word word).reads⟩
  | float number => cases h.exact
  | null | undef => exact ⟨.text _, rfl⟩
  | aggregate elements =>
    have he : Kept elements := kept_handles h.operands
    exact ⟨plain_holding he.plain, congrArg (Option.map aggregate) he.reads⟩
  | bytes data =>
    have hd : Kept data := kept_list fun b _ => kept_byte b
    exact ⟨plain_holding hd.plain, congrArg (Option.map bytes) hd.reads⟩
  | argument f n =>
    have hf : Kept f := kept_handle (h.functions f (by simp [Module.mentionedFunctions]))
    have hn : Kept n := kept_nat (of_decide_eq_true h.position)
    exact ⟨plain_variant (by simpa using ⟨hf.plain, hn.plain⟩),
      reads₂ (f := argument) hf.reads hn.reads⟩
  | global g =>
    exact ⟨plain_holding h.kept_global.plain, congrArg (Option.map global) h.kept_global.reads⟩
  | instruction i =>
    have hi : Kept i := Instruction.kept h
    exact ⟨plain_holding hi.plain, congrArg (Option.map instruction) hi.reads⟩

end ValueKind

end SsaKit
