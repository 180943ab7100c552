import Mathlib.Order.Bounds.Defs
import Reckon.Code.Listing
import Reckon.Proofs.Compile.Safety

/-!
# Where jumps lead

What defines a label is decided in three places: the search for the target of
a jump, the machine, which passes over a definition instead of pushing the
label, and the listing, which sets off the targets. All three go by one thing,
a label with a mark behind it (`Program.Defines`), whatever else the
operations of a program are.

A jump goes on behind the first definition of its slot, if the slot is one of
the table (`Program.Leads`). A definition is two operations of the program, so
that no jump and no step leads beyond the end (`Machine.position_of_step?`), and
the places that the listing sets off are those that some slot leads to
(`Program.listed_eq`).
-/

namespace Reckon

variable {p : Program} {slot target : Nat} {op : Op} {ops : List Op}

/-! ## Definitions of labels -/

namespace Program

/-- A label and a mark stand at the position and behind it. -/
def Defines (p : Program) (slot i : Nat) : Prop :=
  p.ops[i]? = some (.label slot) ∧ p.ops[i + 1]? = some .mark

/-- A jump to the slot goes on at the target: behind its first definition. -/
def Leads (p : Program) (slot target : Nat) : Prop :=
  slot < p.labels.length ∧
    ∃ i, IsLeast {i | p.Defines slot i} i ∧ target = i + 2

theorem findMark_cons (slot position : Nat) (op : Op) (ops : List Op) :
    findMark slot position (op :: ops) =
      if op = .label slot ∧ ops.head? = some .mark then some (position + 2)
      else findMark slot (position + 1) ops := by
  cases op with
  | label s =>
      cases ops with
      | nil => simp [findMark]
      | cons o ops =>
          cases o with
          | mark => simp [findMark]
          | _ => simp [findMark]
  | _ => simp [findMark]

/-- The search stops at the first definition. -/
theorem findMark_eq_some_iff {position : Nat} :
    findMark slot position ops = some target ↔
    ∃ i, IsLeast {i | ops[i]? = some (.label slot) ∧
      ops[i + 1]? = some .mark} i ∧ target = position + i + 2 := by
  induction ops generalizing position with
  | nil => simp [findMark, IsLeast]
  | cons op ops ih =>
      -- What is a place of the rest is one of all, one behind.
      have hfront : (op :: ops)[0]? = some (.label slot) ∧
          (op :: ops)[0 + 1]? = some .mark ↔
          op = .label slot ∧ ops.head? = some .mark := by
        simp [List.head?_eq_getElem?]
      rw [findMark_cons]
      split
      · next hfirst =>
          constructor
          · intro h
            exact ⟨0, ⟨hfront.mpr hfirst, fun i _ => Nat.zero_le i⟩,
              (Option.some.inj h).symm⟩
          · rintro ⟨i, hleast, rfl⟩
            obtain rfl := Nat.le_zero.mp (hleast.2 (hfront.mpr hfirst))
            rfl
      · next hlater =>
          rw [ih]
          constructor
          · rintro ⟨i, ⟨hmem, hleast⟩, rfl⟩
            refine ⟨i + 1, ⟨hmem, fun j hj => ?_⟩, by omega⟩
            cases j with
            | zero => exact absurd (hfront.mp hj) hlater
            | succ j => exact Nat.succ_le_succ (hleast hj)
          · rintro ⟨i, ⟨hmem, hleast⟩, rfl⟩
            cases i with
            | zero => exact absurd (hfront.mp hmem) hlater
            | succ i =>
                refine ⟨i, ⟨hmem, fun j hj => ?_⟩, by omega⟩
                exact Nat.le_of_succ_le_succ (hleast hj)

theorem target?_eq_some_iff :
    p.target? slot = some target ↔ p.Leads slot target := by
  unfold target? Leads Defines
  split
  · next hlt =>
      rw [findMark_eq_some_iff, and_iff_right hlt]
      simp only [Nat.zero_add]
  · next hge => exact iff_of_false nofun fun h => hge h.1

theorem target?_eq_none (h : ∀ target, ¬p.Leads slot target) :
    p.target? slot = none := by
  cases hfound : p.target? slot with
  | none => rfl
  | some target => exact absurd (target?_eq_some_iff.mp hfound) (h target)

/-- Nothing leads beyond the end of a program. -/
theorem Leads.le_size (h : p.Leads slot target) : target ≤ p.size := by
  obtain ⟨-, i, hleast, rfl⟩ := h
  obtain ⟨hmark, -⟩ := List.getElem?_eq_some_iff.mp hleast.1.2
  exact hmark

end Program

/-! ## Positions -/

namespace Machine

variable {m m' : Machine} {limit : Option Nat} {behind : Option Op}

/-- Where a machine can stand after an operation. -/
inductive Lands (p : Program) (m : Machine) (behind : Option Op)
    (m' : Machine) : Prop where
  | stays : m'.position = m.position → Lands p m behind m'
  | next : m'.position = m.position + 1 → Lands p m behind m'
  | skips :
      behind = some .mark → m'.position = m.position + 2 → Lands p m behind m'
  | jumps {slot : Nat} : p.Leads slot m'.position → Lands p m behind m'

theorem lands_jumpTo (p : Program) (m : Machine) (behind : Option Op)
    (slot : Nat) (rest : List Operand) :
    Lands p m behind ({ m with stack := rest }.jumpTo p slot).machine := by
  unfold jumpTo
  split
  · next htarget => exact .jumps (Program.target?_eq_some_iff.mp htarget)
  · exact .stays rfl

theorem lands_perform (p : Program) (m : Machine) (op : Op)
    (behind : Option Op) :
    Lands p m behind (m.perform p op behind).machine := by
  have hsame : Lands p m behind m := .stays rfl
  have htaken : ∀ o rest, m.stack = o :: rest →
      Lands p m behind { m with stack := rest } := fun _ _ _ => .stays rfl
  cases op with
  | mark | name x => exact .next rfl
  | label slot =>
      unfold perform
      dsimp only
      split
      · next hmark => exact .skips hmark rfl
      · exact .next rfl
  | constant slot =>
      unfold perform
      dsimp only
      split
      · exact .next rfl
      · exact hsame
  | neg | not => exact popNumber_machine hsame htaken fun _ _ _ _ => .next rfl
  | binary operator =>
      exact popNumber_machine hsame htaken fun _ _ _ _ =>
        popNumber_machine (.stays rfl) (fun _ _ _ => .stays rfl)
          fun _ _ _ _ => .next rfl
  | assign =>
      exact popNumber_machine hsame htaken fun _ _ _ _ =>
        popName_machine (.stays rfl) (fun _ _ _ => .stays rfl)
          fun _ _ _ => .next rfl
  | jump =>
      exact popLabel_machine hsame htaken fun slot rest _ =>
        lands_jumpTo p m _ slot rest
  | jumpIfFalse =>
      refine popLabel_machine hsame htaken fun slot _ _ =>
        popNumber_machine (.stays rfl) (fun _ _ _ => .stays rfl)
          fun _ rest _ _ => ?_
      split
      · exact lands_jumpTo p m _ slot rest
      · exact .next rfl
  | read =>
      exact popName_machine hsame htaken fun _ _ _ =>
        readNumber_machine (fun _ => .stays rfl) fun _ _ => .next rfl
  | write =>
      refine popName_machine hsame htaken fun _ _ _ => ?_
      split
      · exact .stays rfl
      · exact write_machine (fun _ _ => .stays rfl) fun _ _ => .next rfl

/-- An operation leads to a place of the program or to its end. -/
theorem position_of_step? {outcome : Outcome} (h : m.step? p = some outcome) :
    outcome.machine.position ≤ p.size := by
  obtain ⟨op, hop, rfl⟩ := Option.map_eq_some_iff.mp h
  obtain ⟨hlt, -⟩ := List.getElem?_eq_some_iff.mp hop
  have hlands :=
    lands_perform p { m with steps := m.steps + 1 } op p.ops[m.position + 1]?
  cases hlands with
  | stays hposition => exact (Nat.le_of_eq hposition).trans (Nat.le_of_lt hlt)
  | next hposition => exact (Nat.le_of_eq hposition).trans hlt
  | skips hmark hposition =>
      obtain ⟨hbehind, -⟩ := List.getElem?_eq_some_iff.mp hmark
      exact (Nat.le_of_eq hposition).trans hbehind
  | jumps hleads => exact hleads.le_size

theorem position_of_stepWithin? {outcome : Outcome} (h : m.position ≤ p.size)
    (hstep : m.stepWithin? limit p = some outcome) :
    outcome.machine.position ≤ p.size := by
  rcases stepWithin?_eq_some hstep with hstep | ⟨n, rfl⟩
  · exact position_of_step? hstep
  · exact h

theorem position_of_visits (h : m.position ≤ p.size)
    (hvisits : Visits limit p m m') : m'.position ≤ p.size := by
  induction hvisits with
  | refl => exact h
  | tail _ hstep ih => exact position_of_stepWithin? ih hstep

theorem position_of_run {budget : Nat} {halt : Halt} (h : m.position ≤ p.size)
    (hrun : run limit p budget m = some halt) :
    halt.machine.position ≤ p.size :=
  run_keeps (P := fun m => m.position ≤ p.size)
    (fun _ hstep => position_of_step? hstep)
    id h hrun

/-! ## Labels -/

/-- A definition is passed over, and any other label is pushed. -/
theorem step?_label (h : p.ops[m.position]? = some (.label slot)) : m.step? p =
    some (.ok (if p.ops[m.position + 1]? = some .mark then
        { m with position := m.position + 2, steps := m.steps + 1 }
      else { m with
        position := m.position + 1, steps := m.steps + 1,
        stack := .label slot :: m.stack })) := by
  rw [step?, h, Option.map_some, perform]
  split <;> rfl

/-- No other operation pushes a label. -/
theorem label_of_step? (h : m.step? p = some (.ok m'))
    (hstack : m'.stack = .label slot :: m.stack) :
    p.ops[m.position]? = some (.label slot) ∧
    p.ops[m.position + 1]? ≠ some .mark := by
  obtain ⟨op, hop, hperform⟩ := Option.map_eq_some_iff.mp h
  have hgrown : ∀ n, m'.stack ≠ m.stack.drop n := by
    intro n hdrop
    have hlength := congrArg List.length (hstack.symm.trans hdrop)
    rw [List.length_drop, List.length_cons] at hlength
    omega
  have hchange := (effect_perform p { m with steps := m.steps + 1 } op
    p.ops[m.position + 1]?).change
  rw [hperform] at hchange
  cases hchange with
  | takes n hdrop => exact absurd hdrop (hgrown n)
  | sets n x v _ hdrop => exact absurd hdrop (hgrown n)
  | leaves n o _ hlabel hleft =>
      obtain ⟨hpushed, -⟩ := List.cons.inj (hstack.symm.trans hleft)
      have hop : p.ops[m.position]? = some (.label slot) :=
        hop.trans (congrArg some (hlabel slot hpushed.symm))
      refine ⟨hop, fun hmark => ?_⟩
      rw [step?_label hop, if_pos hmark] at h
      obtain rfl := Outcome.ok.inj (Option.some.inj h)
      exact (List.cons_ne_self _ _ hstack.symm).elim

/-! ## Jumps -/

/-- The operation at the position is a jump to a slot, and it is taken: a
condition, if there is one, is false. Below the operands that it takes is the
rest of the stack. -/
inductive Jumps (m : Machine) (p : Program) (slot : Nat)
    (rest : List Operand) : Prop where
  | always : p.ops[m.position]? = some .jump → m.stack = .label slot :: rest →
      Jumps m p slot rest
  | ifFalse {o : Operand} {v : Single} :
      p.ops[m.position]? = some .jumpIfFalse →
      m.stack = .label slot :: o :: rest → Denotes m.store o v →
      v.le .zero = true → Jumps m p slot rest

theorem step?_of_jumps {rest : List Operand} (h : m.Jumps p slot rest) :
    m.step? p =
      some ({ m with stack := rest, steps := m.steps + 1 }.jumpTo p slot) := by
  cases h with
  | always hop hstack =>
      rw [step?, hop, Option.map_some, perform, popLabel, pop]
      simp only [hstack]
  | ifFalse hop hstack hdenotes hfalse =>
      rw [step?, hop, Option.map_some, perform, popLabel, pop]
      simp only [hstack]
      cases hdenotes with
      | number v =>
          rw [popNumber, pop]
          simp only [if_pos hfalse]
      | name hget =>
          rw [popNumber, pop]
          simp only [hget, if_pos hfalse]

theorem jumpTo_of_leads (h : p.Leads slot target) :
    m.jumpTo p slot = .ok { m with position := target } := by
  rw [jumpTo, Program.target?_eq_some_iff.mpr h]

theorem jumpTo_of_nowhere (h : ∀ target, ¬p.Leads slot target) :
    m.jumpTo p slot =
      .fault (.undefinedLabel (p.labels[slot]?.getD ("#" ++ toString slot)))
      m := by
  rw [jumpTo, Program.target?_eq_none h]

end Machine

/-! ## The listing -/

namespace Program

/-- A line of the listing, set off or not. -/
def lineAt (p : Program) (marked : Bool) (position : Nat) (op : Op) : String :=
  (if marked then bar else "") ++ Text.zeroFilled 4 position ++ " " ++
    (if marked then "► " else "  ") ++
    p.listedOp (p.ops[position + 1]? == some .mark) op ++ "\n"

theorem mem_targets_iff : target ∈ p.targets ↔ ∃ slot, p.Leads slot target := by
  unfold targets links
  simp only [List.mem_filterMap, List.mem_map, List.mem_range, id]
  constructor
  · rintro ⟨_, ⟨slot, -, rfl⟩, htarget⟩
    exact ⟨slot, target?_eq_some_iff.mp htarget⟩
  · rintro ⟨slot, hleads⟩
    exact ⟨_, ⟨slot, hleads.1, rfl⟩, target?_eq_some_iff.mpr hleads⟩

/-- The operation behind the place of a line is the next one of the program. -/
theorem listedFrom_eq (targets : List Nat) {position : Nat} {rest : List Op}
    (hrest : p.ops.drop position = rest) : p.listedFrom targets position rest =
      String.join (rest.mapIdx fun i op =>
        p.lineAt (targets.contains (position + i)) (position + i) op) := by
  induction rest generalizing position with
  | nil => rfl
  | cons op rest ih =>
      have hbehind : rest.head? = p.ops[position + 1]? := by
        rw [← List.head?_drop, ← List.tail_drop, hrest, List.tail_cons]
      have htail : p.ops.drop (position + 1) = rest := by
        rw [← List.tail_drop, hrest, List.tail_cons]
      have hlater : ∀ i, position + 1 + i = position + (i + 1) :=
        fun i => by omega
      rw [listedFrom, ih htail, List.mapIdx_cons, String.join_cons, hbehind]
      simp only [hlater, lineAt, Nat.add_zero]
      cases targets.contains position <;> simp [String.append_assoc]

/-- The listing has a line for each operation, and one for the end if
that is a target. -/
theorem listed_eq (p : Program) : p.listed =
    String.join (p.ops.mapIdx fun i op =>
      p.lineAt (p.targets.contains i) i op) ++
      if p.targets.contains p.size
      then bar ++ Text.zeroFilled 4 p.size ++ " ► END\n"
      else "" := by
  rw [listed, listedFrom_eq p.targets List.drop_zero]
  simp only [Nat.zero_add]

end Program

/-! ## Runs -/

/-- At a machine the program goes by its definitions: what it makes of a label,
and where a jump that is taken goes on. -/
structure Machine.GoesBy (p : Program) (m : Machine) : Prop where
  within : m.position ≤ p.size
  label {slot : Nat} : p.ops[m.position]? = some (.label slot) → m.step? p =
    some (.ok (if p.ops[m.position + 1]? = some .mark then
        { m with position := m.position + 2, steps := m.steps + 1 }
      else { m with
        position := m.position + 1, steps := m.steps + 1,
        stack := .label slot :: m.stack }))
  pushed {slot : Nat} {m' : Machine} : m.step? p = some (.ok m') →
    m'.stack = .label slot :: m.stack →
      p.ops[m.position]? = some (.label slot) ∧
      p.ops[m.position + 1]? ≠ some .mark
  taken {slot target : Nat} {rest : List Operand} : m.Jumps p slot rest →
    p.Leads slot target → m.step? p = some (.ok { m with
      position := target, stack := rest, steps := m.steps + 1 })
  nowhere {slot : Nat} {rest : List Operand} : m.Jumps p slot rest →
    (∀ target, ¬p.Leads slot target) →
    m.step? p = some (.fault
      (.undefinedLabel (p.labels[slot]?.getD ("#" ++ toString slot)))
      { m with stack := rest, steps := m.steps + 1 })

theorem Machine.goesBy {m : Machine} (h : m.position ≤ p.size) :
    m.GoesBy p where
  within := h
  label := step?_label
  pushed := label_of_step?
  taken hjumps hleads := by rw [step?_of_jumps hjumps, jumpTo_of_leads hleads]
  nowhere hjumps hleads := by
    rw [step?_of_jumps hjumps, jumpTo_of_nowhere hleads]

/-- Every run of a program goes by its definitions, whatever its operations
are, and ends within it. What the listing sets off, the end among it, is
where jumps can lead. -/
theorem Program.runs_by_definitions (p : Program) :
    (∀ limit store input room m, Visits limit p (.start store input room) m →
      m.GoesBy p) ∧
    (∀ limit store input room budget halt,
      Machine.run limit p budget (.start store input room) = some halt →
        halt.machine.position ≤ p.size) ∧
    ∃ marked : Nat → Bool,
      (∀ target, marked target = true ↔ ∃ slot, p.Leads slot target) ∧
      p.listed = String.join (p.ops.mapIdx fun i op =>
        p.lineAt (marked i) i op) ++
        if marked p.size then bar ++ Text.zeroFilled 4 p.size ++ " ► END\n"
        else "" := by
  refine ⟨fun limit store input room m hvisits => ?_,
    fun limit store input room budget halt hrun => ?_, p.targets.contains,
    fun target => ?_, ?_⟩
  · exact Machine.goesBy (Machine.position_of_visits (Nat.zero_le _) hvisits)
  · exact Machine.position_of_run (Nat.zero_le _) hrun
  · rw [List.contains_iff_mem]
    exact p.mem_targets_iff
  · exact p.listed_eq

/-- A jump to a label that the last operations define. -/
def Program.leaving : Program :=
  { ops := [.label 0, .jump, .label 0, .mark], labels := ["out"] }

/-- The machine in front of that jump. -/
def Machine.leaving : Machine :=
  { position := 1, stack := [.label 0], steps := 1 }

theorem Program.leaving_runs_by_definitions :
    Visits none leaving (.start .empty [] none) .leaving ∧
      Machine.leaving.Jumps leaving 0 [] ∧ leaving.Leads 0 leaving.size ∧
      Machine.leaving.step? leaving =
        some (.ok { position := 4, steps := 2 }) := by
  have hvisits : Visits none leaving (.start .empty [] none) .leaving :=
    .single rfl
  have hjumps : Machine.leaving.Jumps leaving 0 [] := .always rfl rfl
  have hleads : leaving.Leads 0 leaving.size := target?_eq_some_iff.mp rfl
  exact ⟨hvisits, hjumps, hleads,
    (leaving.runs_by_definitions.1 none .empty [] none _ hvisits).taken
      hjumps hleads⟩

end Reckon
