import Reckon.Proofs.Compile.Jumps

/-!
# Places of labels

The labels that operations define, read off the operations: those in front of a
mark. While a program grows they are only added to, at its end, as long as its
slots are those of its table. A label that is defined somewhere can be jumped
to, so a jump that leads nowhere has a label that is not.

A mark defines whatever label stands in front of it. So it matters which label a
program ends with.
-/

namespace Reckon

/-- The slots of the labels that stand in front of a mark, in order. -/
def markedSlots : List Op → List Nat
  | [] => []
  | .label slot :: .mark :: rest => slot :: markedSlots rest
  | _ :: rest => markedSlots rest

/-- The labels that have a place in a program, in order. -/
def Program.definitions (p : Program) : List String :=
  (markedSlots p.ops).filterMap (p.labels[·]?)

/-- The slot of a label that is pushed or marked. -/
def Op.slot? : Op → Option Nat
  | .label slot => some slot
  | _ => none

variable {p : Program} {ops : List Op} {op : Op} {slot : Nat} {l : String}
  {given : String → Prop}

/-! ## Marks -/

/-- A mark at the end belongs to the label that is last. -/
theorem markedSlots_concat (ops : List Op) (op : Op) :
    markedSlots (ops ++ [op]) =
      markedSlots ops ++
        if op = .mark then (ops.getLast?.bind Op.slot?).toList else [] := by
  induction ops with
  | nil => cases op <;> rfl
  | cons first rest ih =>
      cases rest with
      | nil => cases first <;> cases op <;> rfl
      | cons second rest =>
          have hlast :
              (first :: second :: rest).getLast? = (second :: rest).getLast? :=
            List.getLast?_cons_cons
          rw [hlast]
          cases first with
          | label slot =>
              cases second with
              | mark =>
                  show slot :: markedSlots (rest ++ [op]) =
                    slot :: markedSlots rest ++ _
                  exact congrArg (slot :: ·) ih
              | _ => exact ih
          | _ => exact ih

theorem label_mem_of_markedSlots : ∀ {ops : List Op}, slot ∈ markedSlots ops →
    .label slot ∈ ops := by
  intro ops h
  fun_induction markedSlots ops with
  | case1 => cases h
  | case2 slot' rest ih =>
      rcases List.mem_cons.mp h with rfl | h
      · exact List.mem_cons_self
      · exact List.mem_cons_of_mem _ (List.mem_cons_of_mem _ (ih h))
  | case3 first rest _ ih => exact List.mem_cons_of_mem _ (ih h)

/-- A slot that stands in front of a mark is found. -/
theorem findMark_ne_none (h : slot ∈ markedSlots ops) :
    ∀ k, Program.findMark slot k ops ≠ none := by
  fun_induction markedSlots ops with
  | case1 => cases h
  | case2 slot' rest ih =>
      intro k
      rw [Program.findMark]
      split
      · nofun
      · next hne =>
          have hmem := (List.mem_cons.mp h).resolve_left fun he => hne he.symm
          exact ih hmem _
  | case3 first rest hfirst ih =>
      intro k
      rw [Program.findMark.eq_3 _ _ _ _ hfirst]
      exact ih h _

/-! ## Tables that fit -/

/-- The slots of labels in a program are those of its table, which has each
label once, and if the program ends with a label this is a given one. -/
structure Program.Tabled (given : String → Prop) (p : Program) : Prop where
  nodup : p.labels.Nodup
  slots : ∀ slot, .label slot ∈ p.ops → slot < p.labels.length
  last : ∀ slot l, p.ops.getLast? = some (.label slot) →
    p.labels[slot]? = some l → given l

theorem Op.slot?_of_isPlain (h : op.isPlain = true) : op.slot? = none := by
  cases op <;> first | rfl | cases h

namespace Program

theorem pushAll_cons (p : Program) (op : Op) (ops : List Op) :
    p.pushAll (op :: ops) = (p.push op).pushAll ops := by
  simp [pushAll, push]

theorem pushAll_nil (p : Program) : p.pushAll [] = p := by
  simp [pushAll]

theorem definitions_push (p : Program) (hop : op ≠ .mark) :
    (p.push op).definitions = p.definitions := by
  rw [definitions, definitions, push, markedSlots_concat, if_neg hop,
    List.append_nil]

theorem definitions_pushAll (hplain : ∀ op ∈ ops, op.isPlain = true)
    (p : Program) : (p.pushAll ops).definitions = p.definitions := by
  induction ops generalizing p with
  | nil => rw [pushAll_nil]
  | cons op ops ih =>
      obtain ⟨hop, hops⟩ := List.forall_mem_cons.mp hplain
      rw [pushAll_cons, ih hops, definitions_push]
      rintro rfl
      cases hop

theorem definitions_pushConstant (p : Program) (v : Single) :
    (p.pushConstant v).definitions = p.definitions :=
  definitions_push _ nofun

namespace Tabled

theorem empty : Tabled given {} := ⟨.nil, nofun, nofun⟩

theorem mono {given' : String → Prop} (h : p.Tabled given)
    (hgiven : ∀ l, given l → given' l) : p.Tabled given' :=
  { h with last := fun slot l hlast hl => hgiven l (h.last slot l hlast hl) }

/-- Behind anything but a label it does not matter which ones are given. -/
theorem push {given' : String → Prop} (h : p.Tabled given)
    (hop : op.slot? = none) : (p.push op).Tabled given' where
  nodup := h.nodup
  slots slot hmem := by
    rcases List.mem_append.mp hmem with hmem | hmem
    · exact h.slots slot hmem
    · rw [← List.mem_singleton.mp hmem] at hop
      cases hop
  last slot l hlast _ := by
    have hlabel := Option.some.inj (List.getLast?_concat.symm.trans hlast)
    rw [hlabel] at hop
    cases hop

variable (h : p.Tabled given)
include h

theorem pushAll (hplain : ∀ op ∈ ops, op.isPlain = true) :
    (p.pushAll ops).Tabled given := by
  induction ops generalizing p with
  | nil => rwa [pushAll_nil]
  | cons op ops ih =>
      obtain ⟨hop, hops⟩ := List.forall_mem_cons.mp hplain
      rw [pushAll_cons]
      exact ih (h.push (Op.slot?_of_isPlain hop)) hops

theorem pushConstant (v : Single) : (p.pushConstant v).Tabled given :=
  push (p := (p.internConstant v).2) ⟨h.nodup, h.slots, h.last⟩ rfl

theorem pushLabel (hl : given l) : (p.pushLabel l).Tabled given where
  nodup := nodup_intern h.nodup l
  slots slot hmem := by
    rcases List.mem_append.mp hmem with hmem | hmem
    · exact Nat.lt_of_lt_of_le (h.slots slot hmem)
        (Pool.intern_keeps (· == ·) p.labels l).length_le
    · cases List.mem_singleton.mp hmem
      exact Pool.intern_slot_lt (· == ·) p.labels l
  last slot l' hlast hslot := by
    cases List.getLast?_concat.symm.trans hlast
    have hname := (getElem?_intern p.labels l).symm.trans hslot
    rwa [← Option.some.inj hname]

/-- A label with an operation behind it need not be given. -/
theorem behindLabel (l : String) (hop : op.slot? = none) :
    ((p.pushLabel l).pushAll [op]).Tabled given :=
  have hgiven : p.Tabled (fun l' => given l' ∨ l' = l) := h.mono fun _ => .inl
  (hgiven.pushLabel (.inr rfl)).push hop

theorem definitions_pushLabel (l : String) :
    (p.pushLabel l).definitions = p.definitions := by
  have hother : Op.label (p.internLabel l).1 ≠ .mark := nofun
  refine (definitions_push (p.internLabel l).2 hother).trans ?_
  refine List.filterMap_congr fun slot hmem => ?_
  have hlt := h.slots slot (label_mem_of_markedSlots hmem)
  rw [List.getElem?_eq_getElem hlt]
  exact getElem?_of_isPrefix (Pool.intern_keeps (· == ·) p.labels l)
    (List.getElem?_eq_getElem hlt)

/-- A label in front of a mark is defined. -/
theorem definitions_place (l : String) :
    ((p.pushLabel l).pushAll [.mark]).definitions = p.definitions ++ [l] := by
  have hslots : markedSlots ((p.pushLabel l).pushAll [.mark]).ops =
      markedSlots (p.pushLabel l).ops ++ [(p.internLabel l).1] := by
    refine (markedSlots_concat _ .mark).trans (congrArg _ ?_)
    rw [if_pos rfl]
    exact congrArg (fun last => (Option.bind last Op.slot?).toList)
      List.getLast?_concat
  rw [definitions, hslots, List.filterMap_append, ← h.definitions_pushLabel l]
  exact congrArg _ (List.filterMap_cons_some (getElem?_intern p.labels l))

/-- A mark defines a given label if it defines any. -/
theorem definitions_mark :
    ∃ ls, (p.pushAll [.mark]).definitions = p.definitions ++ ls ∧
    ∀ l ∈ ls, given l := by
  refine ⟨_, (congrArg _ (markedSlots_concat p.ops .mark)).trans
    List.filterMap_append, ?_⟩
  intro l hl
  obtain ⟨slot, hslot, hname⟩ := List.mem_filterMap.mp hl
  rw [if_pos rfl, Option.mem_toList, Option.bind_eq_some_iff] at hslot
  obtain ⟨op, hlast, hop⟩ := hslot
  cases op with
  | label slot' =>
      cases hop
      exact h.last slot l hlast hname
  | _ => cases hop

end Tabled

end Program

/-! ## Jumps to labels that are defined -/

/-- A label that has a place is the target of its slot. -/
theorem Program.target?_ne_none (h : p.labels.Nodup)
    (hslot : p.labels[slot]? = some l) (hl : l ∈ p.definitions) :
    p.target? slot ≠ none := by
  obtain ⟨slot', hmarked, hslot'⟩ := List.mem_filterMap.mp hl
  obtain ⟨hlt, hget⟩ := List.getElem?_eq_some_iff.mp hslot
  obtain ⟨hlt', hget'⟩ := List.getElem?_eq_some_iff.mp hslot'
  obtain rfl : slot = slot' := h.getElem_inj_iff.mp (hget.trans hget'.symm)
  rw [target?, if_pos hlt]
  exact findMark_ne_none hmarked 0

/-- A run does not end for want of a place that there is. -/
theorem Machine.run_fault_ne_of_definitions (h : p.Tabled given)
    (hl : l ∈ p.definitions) {limit room : Option Nat} {budget : Nat}
    {store : Store} {input : List UInt8} {halt : Halt}
    (hrun : run limit p budget (.start store input room) = some halt) :
    halt.fault ≠ some (.undefinedLabel l) := by
  intro hfault
  have howns : Owns p (start store input room).stack :=
    fun _ hmem => absurd hmem List.not_mem_nil
  obtain ⟨slot, ⟨i, hpushes, -⟩, hnowhere, hname⟩ :=
    explains_of_run howns hrun _ hfault l rfl
  have hlt := h.slots slot (List.mem_of_getElem? hpushes)
  have hslot : p.labels[slot]? = some l := by
    rw [List.getElem?_eq_getElem hlt] at hname ⊢
    exact congrArg some hname.symm
  exact Program.target?_ne_none h.nodup hslot hl hnowhere

end Reckon
