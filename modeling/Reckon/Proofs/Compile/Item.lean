import Mathlib.Algebra.GroupWithZero.Nat
import Reckon.Code.Program
import Reckon.Proofs.Compile.Semantics
import Reckon.Proofs.Pool
import Reckon.Proofs.Single.Near

/-!
# Operations without slots

Postfix as it is meant: constants by the literals they come from, labels by
name, and the place of a label as one thing. An operation with a slot means the
same for as long as the tables only grow, so the meaning of what has been put
out can be stated while there is more to come. That is `Carries`, and a program
`Emits` the items that its operations carry.

A program is looked at in two ways. `Emits` says what all of it is and is kept
up while the program grows; `Seg` says what stands at a position and is what a
machine needs. Jumps are resolved by `Item.find?`, which searches items and
agrees with the search through operations.
-/

namespace Reckon

/-- An operation without slots. -/
inductive Item where
  /-- An operation that never had any. -/
  | op (o : Op)
  | number (v : Single)
  /-- A label as an operand. -/
  | label (l : String)
  /-- The place that a label names. -/
  | place (l : String)
deriving DecidableEq

/-- Operations that mean the same whatever the tables are. -/
def Op.isPlain : Op → Bool
  | .constant _ | .label _ | .mark => false
  | _ => true

namespace Item

/-- The literal of an item, if it has one. -/
def number? : Item → Option Single
  | number v => some v
  | _ => none

/-- The literals of some items, in order. -/
def numbers (items : List Item) : List Single := items.filterMap number?

@[simp] theorem numbers_nil : numbers [] = [] := rfl

@[simp] theorem numbers_op (o : Op) (items : List Item) :
    numbers (op o :: items) = numbers items := rfl

@[simp] theorem numbers_number (v : Single) (items : List Item) :
    numbers (number v :: items) = v :: numbers items := rfl

@[simp] theorem numbers_label (l : String) (items : List Item) :
    numbers (label l :: items) = numbers items := rfl

@[simp] theorem numbers_place (l : String) (items : List Item) :
    numbers (place l :: items) = numbers items := rfl

@[simp] theorem numbers_append (a b : List Item) :
    numbers (a ++ b) = numbers a ++ numbers b := List.filterMap_append

@[simp] theorem numbers_ops (ops : List Op) : numbers (ops.map op) = [] := by
  simp [numbers, number?]

/-- The number of operations that an item takes. -/
def size : Item → Nat
  | place _ => 2
  | _ => 1

/-- The number of operations that some items take. -/
def sizes (items : List Item) : Nat := (items.map size).sum

@[simp] theorem sizes_nil : sizes [] = 0 := rfl

@[simp] theorem sizes_cons (item : Item) (items : List Item) :
    sizes (item :: items) = item.size + sizes items := by
  simp [sizes]

@[simp] theorem sizes_append (a b : List Item) :
    sizes (a ++ b) = sizes a + sizes b := by
  simp [sizes]

/-- The position behind the first place of a label, searched from a position
on. -/
def find? (l : String) : (position : Nat) → List Item → Option Nat
  | _, [] => none
  | position, item :: rest =>
      if item = place l then some (position + 2)
      else find? l (position + item.size) rest

@[simp] theorem find?_place (l : String) (k : Nat) (rest : List Item) :
    find? l k (place l :: rest) = some (k + 2) :=
  if_pos rfl

/-- The search passes over items without a place of the label. -/
theorem find?_append {l : String} {a : List Item} (ha : .place l ∉ a)
    (b : List Item) :
    ∀ k, find? l k (a ++ b) = find? l (k + sizes a) b := by
  induction a with
  | nil => exact fun _ => rfl
  | cons item a ih =>
      intro k
      rw [List.mem_cons, not_or] at ha
      rw [List.cons_append, find?, if_neg (Ne.symm ha.1), ih ha.2, sizes_cons,
        Nat.add_assoc]

end Item

/-! ## What operations carry -/

/-- The slot of a literal, in this pool and in every longer one. -/
def Pooled (constants : List Single) (slot : Nat) (v : Single) : Prop :=
  ∀ later, constants <+: later →
    later[slot]? = some ((later.find? (·.near v)).getD v)

/-- The operations of an item, with slots of the tables of a program. -/
inductive Carries (p : Program) : Item → List Op → Prop where
  | op {o : Op} : o.isPlain = true → Carries p (.op o) [o]
  | number {slot : Nat} {v : Single} :
      Pooled p.constants slot v → Carries p (.number v) [.constant slot]
  | label {slot : Nat} {l : String} :
      p.labels[slot]? = some l → Carries p (.label l) [.label slot]
  | place {slot : Nat} {l : String} :
      p.labels[slot]? = some l → Carries p (.place l) [.label slot, .mark]

/-- The operations of items, one behind the other. -/
inductive CarriesAll (p : Program) : List Item → List Op → Prop where
  | nil : CarriesAll p [] []
  | cons {item : Item} {items : List Item} {u v : List Op} :
      Carries p item u → CarriesAll p items v →
        CarriesAll p (item :: items) (u ++ v)

/-- The tables of a program are continued by those of another. -/
def Program.Grows (p q : Program) : Prop :=
  p.constants <+: q.constants ∧ p.labels <+: q.labels

variable {p q : Program} {items a b : List Item} {l : String} {k slot : Nat}
  {u v ops : List Op}

namespace Program

theorem Grows.refl (p : Program) : p.Grows p :=
  ⟨List.prefix_rfl, List.prefix_rfl⟩

theorem Grows.trans {p' : Program} (h : p.Grows q) (h' : q.Grows p') :
    p.Grows p' :=
  ⟨h.1.trans h'.1, h.2.trans h'.2⟩

/-- Operations add nothing to the tables. -/
theorem grows_pushAll (p : Program) (ops : List Op) : p.Grows (p.pushAll ops) :=
  Grows.refl p

theorem grows_pushConstant (p : Program) (w : Single) :
    p.Grows (p.pushConstant w) :=
  ⟨Pool.intern_keeps Single.near p.constants w, List.prefix_rfl⟩

theorem grows_pushLabel (p : Program) (l : String) : p.Grows (p.pushLabel l) :=
  ⟨List.prefix_rfl, Pool.intern_keeps (· == ·) p.labels l⟩

end Program

theorem Carries.mono {item : Item} (h : Carries p item u)
    (hgrows : p.Grows q) : Carries q item u := by
  cases h with
  | op hplain => exact .op hplain
  | number hpooled =>
      exact .number fun later hlater => hpooled later (hgrows.1.trans hlater)
  | label hslot => exact .label (getElem?_of_isPrefix hgrows.2 hslot)
  | place hslot => exact .place (getElem?_of_isPrefix hgrows.2 hslot)

theorem Carries.length_eq {item : Item} (h : Carries p item u) :
    u.length = item.size := by
  cases h <;> rfl

/-- A mark stands only behind its label. -/
theorem Carries.head_ne_mark {item : Item} (h : Carries p item u) :
    ∃ o rest, u = o :: rest ∧ o ≠ .mark := by
  cases h with
  | op hplain => exact ⟨_, _, rfl, by rintro rfl; cases hplain⟩
  | number | label | place => exact ⟨_, _, rfl, nofun⟩

namespace CarriesAll

theorem mono (h : CarriesAll p items u) (hgrows : p.Grows q) :
    CarriesAll q items u := by
  induction h with
  | nil => exact .nil
  | cons hitem _ ih => exact .cons (hitem.mono hgrows) ih

theorem append (ha : CarriesAll p a u) (hb : CarriesAll p b v) :
    CarriesAll p (a ++ b) (u ++ v) := by
  induction ha with
  | nil => exact hb
  | cons hitem _ ih =>
      rw [List.append_assoc]
      exact .cons hitem ih

theorem one {item : Item} (h : Carries p item u) : CarriesAll p [item] u := by
  have := CarriesAll.cons h CarriesAll.nil
  rwa [List.append_nil] at this

theorem plain (h : ∀ o ∈ ops, o.isPlain = true) :
    CarriesAll p (ops.map .op) ops := by
  induction ops with
  | nil => exact .nil
  | cons o ops ih =>
      obtain ⟨ho, hops⟩ := List.forall_mem_cons.mp h
      exact .cons (.op ho) (ih hops)

theorem split (h : CarriesAll p (a ++ b) ops) :
    ∃ u v, ops = u ++ v ∧ CarriesAll p a u ∧ CarriesAll p b v := by
  induction a generalizing ops with
  | nil => exact ⟨[], ops, rfl, .nil, h⟩
  | cons item a ih =>
      cases h with
      | cons hitem hrest =>
          obtain ⟨u, v, rfl, ha, hb⟩ := ih hrest
          exact ⟨_, v, (List.append_assoc ..).symm, .cons hitem ha, hb⟩

theorem length_eq (h : CarriesAll p items u) : u.length = Item.sizes items := by
  induction h with
  | nil => rfl
  | cons hitem _ ih =>
      rw [List.length_append, hitem.length_eq, ih, Item.sizes_cons]

theorem head_ne_mark (h : CarriesAll p items u) : u.head? ≠ some .mark := by
  cases h with
  | nil => nofun
  | cons hitem _ =>
      obtain ⟨o, rest, rfl, ho⟩ := hitem.head_ne_mark
      exact fun he => ho (Option.some.inj he)

end CarriesAll

/-! ## Interning -/

/-- A literal is pooled where it is interned. What is not finite is near nothing
and found by nothing later either. -/
theorem pooled_intern (constants : List Single) (v : Single) :
    Pooled (Pool.intern Single.near constants v).2
      (Pool.intern Single.near constants v).1 v := by
  rintro _ ⟨rest, rfl⟩
  unfold Pool.intern
  cases hfind : constants.findIdx? (·.near v) with
  | some slot =>
      obtain ⟨hlt, hnear, hfirst⟩ := List.findIdx?_eq_some_iff_getElem.mp hfind
      have hfound : constants.find? (·.near v) = some constants[slot] :=
        List.find?_eq_some_iff_getElem.mpr
          ⟨hnear, slot, hlt, rfl, fun j hj => by simpa using hfirst j hj⟩
      simp only [List.find?_append, hfound, Option.some_or, Option.getD_some]
      rw [List.getElem?_append_left hlt, List.getElem?_eq_getElem hlt]
  | none =>
      have hnone : constants.find? (·.near v) = none := by
        simpa using hfind
      have hslot : (constants ++ [v] ++ rest)[constants.length]? = some v := by
        simp
      simp only [hslot, List.find?_append, hnone, Option.none_or]
      cases hself : v.near v with
      | true => simp [hself]
      | false =>
          have hinfinite : ∀ w ∈ rest, ¬ w.near v = true := by
            intro w _ hw
            have hfinite := Single.isFinite_of_near hw
            rw [Single.near_self hfinite.2] at hself
            cases hself
          simp [hself, List.find?_eq_none.mpr hinfinite]

theorem getElem?_intern (labels : List String) (l : String) :
    (Pool.intern (· == ·) labels l).2[(Pool.intern (· == ·) labels l).1]? =
      some l := by
  obtain ⟨w, hw, hsame⟩ := Pool.exists_getElem?_intern (· == ·) labels l
  rw [hw, hsame.elim id beq_iff_eq.mp]

theorem nodup_intern {labels : List String} (h : labels.Nodup) (l : String) :
    (Pool.intern (· == ·) labels l).2.Nodup := by
  have hapart : labels.Pairwise fun a b => (a == b) = false :=
    h.imp fun hne => beq_eq_false_iff_ne.mpr hne
  exact (Pool.pairwise_intern hapart l).imp fun hne =>
    beq_eq_false_iff_ne.mp hne

/-- The pool that some literals fill. -/
def Pool.ofNumbers (numbers : List Single) : List Single :=
  numbers.foldl (fun pool v => (intern Single.near pool v).2) []

theorem Pool.ofNumbers_snoc (numbers : List Single) (v : Single) :
    ofNumbers (numbers ++ [v]) =
      (intern Single.near (ofNumbers numbers) v).2 := by
  simp [ofNumbers]

/-! ## What a program emits -/

/-- The items that all of a program carries. Their literals have filled its
pool, and labels have one slot each. -/
structure Emits (p : Program) (items : List Item) : Prop where
  carries : CarriesAll p items p.ops
  constants : p.constants = Pool.ofNumbers (Item.numbers items)
  nodup : p.labels.Nodup

namespace Emits

theorem empty : Emits {} [] := ⟨.nil, rfl, .nil⟩

theorem pushAll (h : Emits p items) (hplain : ∀ o ∈ ops, o.isPlain = true) :
    Emits (p.pushAll ops) (items ++ ops.map .op) := by
  refine ⟨(h.carries.mono (p.grows_pushAll ops)).append (.plain hplain),
    ?_, h.nodup⟩
  rw [Item.numbers_append, Item.numbers_ops, List.append_nil]
  exact h.constants

theorem push {o : Op} (h : Emits p items) (hplain : o.isPlain = true) :
    Emits (p.push o) (items ++ [.op o]) := by
  have hall : ∀ o' ∈ [o], o'.isPlain = true := by
    simpa using hplain
  exact h.pushAll hall

theorem pushConstant (h : Emits p items) (w : Single) :
    Emits (p.pushConstant w) (items ++ [.number w]) := by
  refine ⟨(h.carries.mono (p.grows_pushConstant w)).append
    (.one (.number (pooled_intern p.constants w))), ?_, h.nodup⟩
  show (Pool.intern Single.near p.constants w).2 = _
  rw [Item.numbers_append, h.constants]
  exact (Pool.ofNumbers_snoc _ w).symm

theorem pushLabel (h : Emits p items) (l : String) :
    Emits (p.pushLabel l) (items ++ [.label l]) := by
  refine ⟨(h.carries.mono (p.grows_pushLabel l)).append
    (.one (.label (getElem?_intern p.labels l))), ?_, nodup_intern h.nodup l⟩
  rw [Item.numbers_append]
  exact h.constants.trans (congrArg _ (List.append_nil _).symm)

/-- A mark makes a place of the label in front of it. -/
theorem mark (h : Emits p (items ++ [.label l])) :
    Emits (p.pushAll [.mark]) (items ++ [.place l]) := by
  obtain ⟨u, v, hops, hitems, hlabel⟩ := h.carries.split
  cases hlabel with
  | cons hlabel hnil =>
      cases hnil
      cases hlabel with
      | @label slot _ hslot =>
          have hmarked :
              (p.pushAll [.mark]).ops = u ++ [.label slot, .mark] := by
            simp [Program.pushAll, hops]
          refine ⟨?_, ?_, h.nodup⟩
          · rw [hmarked]
            exact (hitems.mono (p.grows_pushAll [.mark])).append
              (.one (.place hslot))
          · have hconstants := h.constants
            rw [Item.numbers_append] at hconstants ⊢
            exact hconstants

/-- The last item is the last operation, if it is one. -/
theorem getLast? {o : Op} (h : Emits p (items ++ [.op o])) :
    p.ops.getLast? = some o := by
  obtain ⟨u, v, hops, -, hlast⟩ := h.carries.split
  cases hlast with
  | cons hitem hnil =>
      cases hnil
      cases hitem
      simp [hops]

theorem findMark (hcarries : CarriesAll p items ops) (hnodup : p.labels.Nodup)
    (hslot : p.labels[slot]? = some l) :
    ∀ k, Program.findMark slot k ops = Item.find? l k items := by
  have hsame : ∀ {other : Nat} {m : String}, p.labels[other]? = some m →
      (other = slot ↔ m = l) := by
    intro other m hother
    constructor
    · rintro rfl
      exact Option.some.inj (hother.symm.trans hslot)
    · rintro rfl
      have hlt := (List.getElem?_eq_some_iff.mp hother).1
      exact (List.getElem?_inj hlt hnodup).mp (hother.trans hslot.symm)
  induction hcarries with
  | nil => exact fun _ => rfl
  | @cons item rest u v hitem hrest ih =>
      intro k
      rw [Item.find?]
      cases hitem with
      | op hplain =>
          rw [if_neg nofun, ← ih]
          rename_i o
          cases o <;> first | rfl | cases hplain
      | number => rw [if_neg nofun, ← ih]; rfl
      | @label other m =>
          rw [if_neg nofun, ← ih]
          have hmark := hrest.head_ne_mark
          cases v with
          | nil => rfl
          | cons o v =>
              cases o with
              | mark => exact absurd rfl hmark
              | _ => rfl
      | @place other m hother =>
          rw [← ih]
          show (if other = slot then _ else Program.findMark slot (k + 2) v) = _
          by_cases hl : m = l
          · rw [if_pos ((hsame hother).mpr hl), if_pos (congrArg Item.place hl)]
          · rw [if_neg (mt (hsame hother).mp hl),
              if_neg fun he => hl (Item.place.inj he)]
            rfl

/-- A jump to a label leads to its first place. -/
theorem target? (h : Emits p items) (hslot : p.labels[slot]? = some l) :
    p.target? slot = Item.find? l 0 items := by
  unfold Program.target?
  rw [if_pos (List.getElem?_eq_some_iff.mp hslot).1]
  exact findMark h.carries h.nodup hslot 0

end Emits

/-! ## What stands at a position -/

/-- From a position on a program carries the given items. -/
def Seg (p : Program) (k : Nat) (items : List Item) : Prop :=
  ∃ before behind, CarriesAll p (before ++ items ++ behind) p.ops ∧
    Item.sizes before = k

namespace Seg

theorem left (h : Seg p k (a ++ b)) : Seg p k a := by
  obtain ⟨before, behind, hall, hk⟩ := h
  exact ⟨before, b ++ behind, by simpa using hall, hk⟩

theorem right (h : Seg p k (a ++ b)) : Seg p (k + Item.sizes a) b := by
  obtain ⟨before, behind, hall, rfl⟩ := h
  exact ⟨before ++ a, behind, by simpa using hall, Item.sizes_append before a⟩

theorem tail {item : Item} (h : Seg p k (item :: items)) :
    Seg p (k + item.size) items :=
  right (a := [item]) h

/-- The operations at a position are those of the item there. No mark is behind
them that would belong to them. -/
theorem head {item : Item} (h : Seg p k (item :: items)) :
    ∃ before u behind, p.ops = before ++ (u ++ behind) ∧ before.length = k ∧
      Carries p item u ∧ behind.head? ≠ some .mark := by
  obtain ⟨before, behind, hall, rfl⟩ := h
  rw [List.append_assoc] at hall
  obtain ⟨u, v, hops, hbefore, hrest⟩ := hall.split
  cases hrest with
  | cons hitem hrest =>
      exact ⟨u, _, _, hops, hbefore.length_eq, hitem, hrest.head_ne_mark⟩

theorem op {o : Op} (h : Seg p k (.op o :: items)) : p.ops[k]? = some o := by
  obtain ⟨before, u, behind, hops, rfl, hitem, -⟩ := h.head
  cases hitem
  simp [hops]

theorem number {w : Single} (h : Seg p k (.number w :: items)) :
    ∃ slot, p.ops[k]? = some (.constant slot) ∧
      p.constants[slot]? = some (p.literal w) := by
  obtain ⟨before, u, behind, hops, rfl, hitem, -⟩ := h.head
  cases hitem with
  | number hpooled => exact ⟨_, by simp [hops], hpooled _ List.prefix_rfl⟩

theorem label (h : Seg p k (.label l :: items)) :
    ∃ slot, p.ops[k]? = some (.label slot) ∧ p.ops[k + 1]? ≠ some .mark ∧
      p.labels[slot]? = some l := by
  obtain ⟨before, u, behind, hops, rfl, hitem, hmark⟩ := h.head
  cases hitem with
  | label hslot =>
      have hbehind : p.ops[before.length + 1]? = behind.head? := by
        rw [hops, List.getElem?_append_right (Nat.le_add_right ..),
          Nat.add_sub_cancel_left]
        exact List.head?_eq_getElem?.symm
      exact ⟨_, by simp [hops], hbehind ▸ hmark, hslot⟩

theorem place (h : Seg p k (.place l :: items)) :
    ∃ slot, p.ops[k]? = some (.label slot) ∧ p.ops[k + 1]? = some .mark := by
  obtain ⟨before, u, behind, hops, rfl, hitem, -⟩ := h.head
  cases hitem with
  | @place slot =>
      refine ⟨slot, by simp [hops], ?_⟩
      rw [hops, List.getElem?_append_right (Nat.le_add_right ..),
        Nat.add_sub_cancel_left]
      rfl

end Seg

theorem Emits.seg (h : Emits p (a ++ items ++ b)) :
    Seg p (Item.sizes a) items :=
  ⟨a, b, h.carries, rfl⟩

/-- All of a program stands at its start. -/
theorem Emits.seg_start (h : Emits p items) : Seg p 0 items :=
  ⟨[], [], by simpa using h.carries, rfl⟩

/-- Behind all of a program there is no operation. -/
theorem Emits.getElem?_end (h : Emits p items) :
    p.ops[0 + Item.sizes items]? = none := by
  rw [Nat.zero_add, ← h.carries.length_eq]
  exact List.getElem?_eq_none (Nat.le_refl _)

end Reckon
