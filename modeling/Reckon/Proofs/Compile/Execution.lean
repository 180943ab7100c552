import Mathlib.Data.List.Forall2
import Mathlib.Logic.Relation
import Reckon.Machine.Run
import Reckon.Proofs.Compile.Evaluating
import Reckon.Proofs.Compile.Layout

/-!
# How code runs

What the machine does with the code of a formula or of a part of a line. Between
two operations only the position and the stack change, except where the code
says otherwise, so `standing` names the two and leaves the rest of a machine
alone. The number of operations begun is of no interest here: `Next` relates
machines whatever these numbers are.

Names are pushed as names. So what a formula leaves on the stack is an operand
that *denotes* its value, and the value is fetched by the operation that needs
it; nothing is assigned to in between.
-/

namespace Reckon

open Composer (labelName limitName)

/-- A machine with another position and another stack. -/
def Machine.standing (m : Machine) (k : Nat) (stack : List Operand) : Machine :=
  { m with position := k, stack := stack }

/-- One operation leads from one machine to the other. -/
def Next (p : Program) (m m' : Machine) : Prop :=
  ∀ n, ∃ j, { m with steps := n }.step? p = some (.ok { m' with steps := j })

/-- The operation at the position faults. -/
def Faults (p : Program) (m : Machine) (cause : Fault) (m' : Machine) : Prop :=
  ∀ n, ∃ j, { m with steps := n }.step? p =
    some (.fault cause { m' with steps := j })

/-- Some operations lead from one machine to the other. -/
abbrev Reaches (p : Program) : Machine → Machine → Prop :=
  Relation.ReflTransGen (Next p)

/-- An operand stands for a value: for itself or for that of its variable. -/
inductive Denotes (store : Store) : Operand → Single → Prop where
  | number (v : Single) : Denotes store (.number v) v
  | name {x : String} {v : Single} :
      store.get? x = some v → Denotes store (.name x) v

variable {p : Program} {m m' : Machine} {k slot : Nat} {s : List Operand}
  {o o' : Operand} {v w : Single} {l x : String} {rest : List Item}

/-! ## One operation -/

theorem next_of_perform {op : Op} (hop : p.ops[k]? = some op)
    (h : ∀ n, Machine.perform p ({ m with steps := n }.standing k s) op
      p.ops[k + 1]? = .ok { m' with steps := n }) :
    Next p (m.standing k s) m' := by
  intro n
  refine ⟨n + 1, ?_⟩
  unfold Machine.step?
  show (p.ops[k]?).map _ = _
  rw [hop]
  exact congrArg some (h (n + 1))

theorem faults_of_perform {op : Op} {cause : Fault} (hop : p.ops[k]? = some op)
    (h : ∀ n, Machine.perform p ({ m with steps := n }.standing k s) op
      p.ops[k + 1]? = .fault cause { m' with steps := n }) :
    Faults p (m.standing k s) cause m' := by
  intro n
  refine ⟨n + 1, ?_⟩
  unfold Machine.step?
  show (p.ops[k]?).map _ = _
  rw [hop]
  exact congrArg some (h (n + 1))

namespace Machine

theorem popNumber_standing (m : Machine) {op : Op}
    {next : Single → Machine → Outcome} (h : Denotes m.store o v) :
    (m.standing k (o :: s)).popNumber op next = next v (m.standing k s) := by
  cases h with
  | number v => rfl
  | name hget => simp only [popNumber, pop, standing, hget]

theorem popName_standing (m : Machine) {op : Op}
    {next : String → Machine → Outcome} :
    (m.standing k (.name x :: s)).popName op next = next x (m.standing k s) :=
  rfl

theorem popLabel_standing (m : Machine) {op : Op}
    {next : Nat → Machine → Outcome} :
    (m.standing k (.label slot :: s)).popLabel op next =
      next slot (m.standing k s) :=
  rfl

end Machine

/-- An operand on top of the stack is the result of a run. -/
theorem Machine.result_of_denotes (hstack : m.stack = o :: s)
    (ho : Denotes m.store o v) : m.result = some v := by
  unfold result
  rw [hstack]
  cases ho with
  | number v => rfl
  | name hget => exact hget

theorem next_name (h : Seg p k (.op (.name x) :: rest)) :
    Next p (m.standing k s) (m.standing (k + 1) (.name x :: s)) :=
  next_of_perform h.op fun _ => rfl

theorem next_number (h : Seg p k (.number v :: rest)) :
    Next p (m.standing k s)
      (m.standing (k + 1) (.number (p.literal v) :: s)) := by
  obtain ⟨slot, hop, hslot⟩ := h.number
  refine next_of_perform hop fun n => ?_
  simp only [Machine.perform, hslot]
  rfl

theorem next_label (h : Seg p k (.label l :: rest)) :
    ∃ slot, p.labels[slot]? = some l ∧ ∀ {m : Machine} {s : List Operand},
      Next p (m.standing k s) (m.standing (k + 1) (.label slot :: s)) := by
  obtain ⟨slot, hop, hmark, hslot⟩ := h.label
  refine ⟨slot, hslot, next_of_perform hop fun n => ?_⟩
  rw [Machine.perform, if_neg hmark]
  rfl

theorem next_place (h : Seg p k (.place l :: rest)) :
    Next p (m.standing k s) (m.standing (k + 2) s) := by
  obtain ⟨slot, hop, hmark⟩ := h.place
  refine next_of_perform hop fun n => ?_
  rw [Machine.perform, if_pos hmark]
  rfl

theorem next_neg (h : Seg p k (.op .neg :: rest)) (ho : Denotes m.store o v) :
    Next p (m.standing k (o :: s))
      (m.standing (k + 1) (.number (-v) :: s)) := by
  refine next_of_perform h.op fun n => ?_
  rw [Machine.perform, Machine.popNumber_standing { m with steps := n } ho]
  rfl

theorem next_not (h : Seg p k (.op .not :: rest)) (ho : Denotes m.store o v) :
    Next p (m.standing k (o :: s))
      (m.standing (k + 1) (.number (.ofBool (v.le .zero)) :: s)) := by
  refine next_of_perform h.op fun n => ?_
  rw [Machine.perform, Machine.popNumber_standing { m with steps := n } ho]
  rfl

theorem next_binary {operator : Binary}
    (h : Seg p k (.op (.binary operator) :: rest))
    (ho : Denotes m.store o v) (ho' : Denotes m.store o' w) :
    Next p (m.standing k (o' :: o :: s))
      (m.standing (k + 1) (.number (operator.apply v w) :: s)) := by
  refine next_of_perform h.op fun n => ?_
  rw [Machine.perform, Machine.popNumber_standing { m with steps := n } ho',
    Machine.popNumber_standing { m with steps := n } ho]
  rfl

theorem next_assign (h : Seg p k (.op .assign :: rest))
    (ho : Denotes m.store o v) :
    Next p (m.standing k (o :: .name x :: s))
      ({ m with store := m.store.set x v }.standing (k + 1) s) := by
  refine next_of_perform h.op fun n => ?_
  rw [Machine.perform, Machine.popNumber_standing { m with steps := n } ho]
  rfl

theorem next_jump {target : Nat} (h : Seg p k (.op .jump :: rest))
    (htarget : p.target? slot = some target) :
    Next p (m.standing k (.label slot :: s)) (m.standing target s) := by
  refine next_of_perform h.op fun n => ?_
  rw [Machine.perform, Machine.popLabel_standing, Machine.jumpTo, htarget]
  rfl

theorem faults_jump (h : Seg p k (.op .jump :: rest))
    (htarget : p.target? slot = none) (hslot : p.labels[slot]? = some l) :
    Faults p (m.standing k (.label slot :: s)) (.undefinedLabel l)
      (m.standing k s) := by
  refine faults_of_perform h.op fun n => ?_
  rw [Machine.perform, Machine.popLabel_standing, Machine.jumpTo, htarget,
    hslot]
  rfl

/-- A conditional jump is taken if the condition is false. -/
theorem next_jumpIfFalse {target : Nat} (h : Seg p k (.op .jumpIfFalse :: rest))
    (ho : Denotes m.store o v) (htarget : p.target? slot = some target) :
    Next p (m.standing k (.label slot :: o :: s))
      (m.standing (if v.le .zero then target else k + 1) s) := by
  refine next_of_perform h.op fun n => ?_
  rw [Machine.perform, Machine.popLabel_standing,
    Machine.popNumber_standing { m with steps := n } ho, Machine.jumpTo,
    htarget]
  split <;> rfl

theorem next_jumpIfFalse_of_true (h : Seg p k (.op .jumpIfFalse :: rest))
    (ho : Denotes m.store o v) (hv : v.le .zero = false) :
    Next p (m.standing k (.label slot :: o :: s)) (m.standing (k + 1) s) := by
  refine next_of_perform h.op fun n => ?_
  rw [Machine.perform, Machine.popLabel_standing,
    Machine.popNumber_standing { m with steps := n } ho, hv]
  rfl

theorem faults_jumpIfFalse (h : Seg p k (.op .jumpIfFalse :: rest))
    (ho : Denotes m.store o v) (hv : v.le .zero = true)
    (htarget : p.target? slot = none) (hslot : p.labels[slot]? = some l) :
    Faults p (m.standing k (.label slot :: o :: s)) (.undefinedLabel l)
      (m.standing k s) := by
  refine faults_of_perform h.op fun n => ?_
  rw [Machine.perform, Machine.popLabel_standing,
    Machine.popNumber_standing { m with steps := n } ho, if_pos hv,
    Machine.jumpTo, htarget, hslot]
  rfl

/-- The end of a loop adds to its parameter what a one denotes. -/
theorem reaches_increased {entry exit : String}
    (h : Seg p k (nextCode x entry exit)) (hget : m.store.get? x = some v) :
    Reaches p (m.standing k s)
      ({ m with store := m.store.set x (v + p.literal .one) }.standing
        (k + 5) s) := by
  have hadd := next_binary (s := .name x :: s) h.tail.tail.tail (.name hget)
    (.number (p.literal .one))
  have hassign := next_assign (m := m) (x := x) (s := s) h.tail.tail.tail.tail
    (.number (v + p.literal .one))
  exact .head (next_name h)
    (.head (next_name h.tail) (.head (next_number h.tail.tail)
      (.head hadd (.single hassign))))

theorem Machine.readNumber_eq (m : Machine) (x : String)
    (next : Single → Machine → Outcome) :
    m.readNumber x next =
      match Situation.takeNumber x m.input with
      | (.ok v, later) => next v { m with input := later }
      | (.error cause, later) => .fault cause { m with input := later } := by
  unfold readNumber Situation.takeNumber
  cases splitLine m.input with
  | mk line later =>
      dsimp only
      split
      · rfl
      · cases Text.decode? line with
        | none => rfl
        | some text =>
            dsimp only
            cases Single.parse? (Text.trim text) <;> rfl

theorem next_read {later : List UInt8} (h : Seg p k (.op .read :: rest))
    (hinput : Situation.takeNumber x m.input = (.ok v, later)) :
    Next p (m.standing k (.name x :: s))
      ({ m with store := m.store.set x v, input := later }.standing
        (k + 1) s) := by
  refine next_of_perform h.op fun n => ?_
  rw [Machine.perform, Machine.popName_standing, Machine.readNumber_eq]
  show (match Situation.takeNumber x m.input with
    | (.ok _, _) => _ | (.error _, _) => _) = _
  rw [hinput]
  rfl

theorem faults_read {cause : Fault} {later : List UInt8}
    (h : Seg p k (.op .read :: rest))
    (hinput : Situation.takeNumber x m.input = (.error cause, later)) :
    Faults p (m.standing k (.name x :: s)) cause
      ({ m with input := later }.standing k s) := by
  refine faults_of_perform h.op fun n => ?_
  rw [Machine.perform, Machine.popName_standing, Machine.readNumber_eq]
  show (match Situation.takeNumber x m.input with
    | (.ok _, _) => _ | (.error _, _) => _) = _
  rw [hinput]
  rfl

namespace Machine

theorem perform_write (m : Machine) {behind : Option Op}
    (hget : m.store.get? x = some v) :
    perform p (m.standing k (.name x :: s)) .write behind =
      ((m.standing k s).write (x ++ " = " ++ v.toText)).andThen
        fun m => .ok (m.advance 1) := by
  rw [perform, popName_standing]
  simp only [standing, hget]

theorem write_of_room_none (text : String) (h : m.room = none) :
    m.write text = .ok { m with output := m.output ++ text.toUTF8.data } := by
  unfold write
  rw [h]

theorem write_of_size_le {room : Nat} (text : String) (h : m.room = some room)
    (hsize : text.toUTF8.data.size ≤ room) :
    m.write text = .ok { m with
      output := m.output ++ (text.toUTF8.data.take room)
      room := some (room - text.toUTF8.data.size) } := by
  unfold write
  rw [h]
  exact if_pos hsize

theorem write_of_lt_size {room : Nat} (text : String) (h : m.room = some room)
    (hsize : room < text.toUTF8.data.size) :
    m.write text = .fault .outputFull { m with
      output := m.output ++ (text.toUTF8.data.take room)
      room := some (room - text.toUTF8.data.size) } := by
  unfold write
  rw [h]
  exact if_neg (Nat.not_le.mpr hsize)

end Machine

theorem next_write (h : Seg p k (.op .write :: rest)) (hroom : m.room = none)
    (hget : m.store.get? x = some v) :
    Next p (m.standing k (.name x :: s))
      ({ m with
         output := m.output ++ (x ++ " = " ++ v.toText).toUTF8.data }.standing
        (k + 1) s) := by
  refine next_of_perform h.op fun n => ?_
  refine (Machine.perform_write { m with steps := n } hget).trans ?_
  have hempty : ({ m with steps := n }.standing k s).room = none := hroom
  rw [Machine.write_of_room_none _ hempty]
  rfl

/-- A variable is written, or as much of it as there is room for. -/
theorem write_or_full (h : Seg p k (.op .write :: rest))
    (hget : m.store.get? x = some v) : ∃ output room,
    Next p (m.standing k (.name x :: s))
        ({ m with output, room }.standing (k + 1) s) ∨
      Faults p (m.standing k (.name x :: s)) .outputFull
        ({ m with output, room }.standing k s) := by
  cases hroom : m.room with
  | none => exact ⟨_, m.room, .inl (next_write h hroom hget)⟩
  | some room =>
      let bytes := (x ++ " = " ++ v.toText).toUTF8.data
      have hleft : ∀ n, ({ m with steps := n }.standing k s).room = some room :=
        fun _ => hroom
      refine ⟨m.output ++ bytes.take room, some (room - bytes.size), ?_⟩
      by_cases hfits : bytes.size ≤ room
      · refine .inl (next_of_perform h.op fun n => ?_)
        refine (Machine.perform_write { m with steps := n } hget).trans ?_
        rw [Machine.write_of_size_le _ (hleft n) hfits]
        rfl
      · refine .inr (faults_of_perform h.op fun n => ?_)
        refine (Machine.perform_write { m with steps := n } hget).trans ?_
        rw [Machine.write_of_lt_size _ (hleft n) (Nat.lt_of_not_le hfits)]
        rfl

/-! ## Formulas -/

/-- Operands that denote the numbers of a stack, one by one. -/
abbrev DenoteAll (store : Store) : List Operand → List Single → Prop :=
  List.Forall₂ (Denotes store)

theorem Item.act_runs {item : Item} {values : String → Single}
    {os : List Operand} {vs ws : List Single} (h : Seg p k (item :: rest))
    (hvalues : ∀ x, item = .op (.name x) → m.store.get? x = some (values x))
    (hos : DenoteAll m.store os vs)
    (hact : item.act p.literal values vs = some ws) : ∃ os',
      DenoteAll m.store os' ws ∧ ∀ s : List Operand,
        Next p (m.standing k (os ++ s))
          (m.standing (k + item.size) (os' ++ s)) := by
  unfold act at hact
  split at hact
  · obtain rfl := Option.some.inj hact
    exact ⟨_, .cons (.name (hvalues _ rfl)) hos, fun _ => next_name h⟩
  · obtain rfl := Option.some.inj hact
    exact ⟨_, .cons (.number _) hos, fun _ => next_number h⟩
  · obtain rfl := Option.some.inj hact
    cases hos with
    | cons ho hos => exact ⟨_, .cons (.number _) hos, fun _ => next_neg h ho⟩
  · obtain rfl := Option.some.inj hact
    cases hos with
    | cons ho hos => exact ⟨_, .cons (.number _) hos, fun _ => next_not h ho⟩
  · obtain rfl := Option.some.inj hact
    cases hos with
    | cons ho' hos =>
        cases hos with
        | cons ho hos =>
            exact ⟨_, .cons (.number _) hos, fun _ => next_binary h ho ho'⟩
  · cases hact

/-- The machine does with operands what items do with the numbers they denote,
and nothing else changes. -/
theorem Item.runs {values : String → Single} {items : List Item}
    (hvalues : ∀ x, .op (.name x) ∈ items → m.store.get? x = some (values x)) :
    ∀ {k : Nat} {os : List Operand} {vs ws : List Single}, Seg p k items →
      DenoteAll m.store os vs → evaluate p.literal values items vs = some ws →
      ∃ os', DenoteAll m.store os' ws ∧ ∀ s : List Operand,
        Reaches p (m.standing k (os ++ s))
          (m.standing (k + sizes items) (os' ++ s)) := by
  induction items with
  | nil =>
      intro k os vs ws _ hos heval
      obtain rfl := Option.some.inj heval
      exact ⟨os, hos, fun _ => .refl⟩
  | cons item items ih =>
      intro k os vs ws h hos heval
      obtain ⟨us, hact, heval⟩ := Option.bind_eq_some_iff.mp heval
      obtain ⟨os₁, hos₁, hnext⟩ := act_runs h
        (fun x hx => hvalues x (hx ▸ List.mem_cons_self)) hos hact
      obtain ⟨os₂, hos₂, hreach⟩ :=
        ih (fun x hx => hvalues x (List.mem_cons_of_mem _ hx)) h.tail hos₁ heval
      refine ⟨os₂, hos₂, fun s => .head (hnext s) ?_⟩
      rw [sizes_cons, ← Nat.add_assoc]
      exact hreach s

/-- Items with a value leave an operand that denotes it. -/
theorem Item.runs_value {values : String → Single} {items : List Item}
    (hvalues : ∀ x, .op (.name x) ∈ items → m.store.get? x = some (values x))
    (h : Seg p k items) (heval : evaluate p.literal values items [] = some [v])
    (s : List Operand) : ∃ o, Denotes m.store o v ∧
      Reaches p (m.standing k s) (m.standing (k + sizes items) (o :: s)) := by
  obtain ⟨os, hos, hreach⟩ := runs hvalues h .nil heval
  cases hos with
  | cons ho hos =>
      cases hos
      exact ⟨_, ho, hreach s⟩

theorem Formula.mem_lexemes_of_code {t : Tier} (e : Formula t) :
    ∀ {negative : Bool}, .op (.name x) ∈ e.code negative →
      .identifier x ∈ e.lexemes := by
  induction e with
  | name y =>
      intro negative h
      cases negative <;> simpa [code, Op.signs, lexemes] using h
  | constant v =>
      intro negative h
      cases negative <;> simp [code, Op.signs] at h
  | group e ih =>
      intro negative h
      have he : .op (.name x) ∈ e.code false := by
        cases negative <;> simpa [code, Op.signs] using h
      simp [lexemes, ih he]
  | bracket c ih =>
      intro negative h
      simp [lexemes, ih h]
  | only a ih | negated a ih =>
      intro negative h
      simp [lexemes, ih h]
  | not a ih =>
      intro negative h
      have ha : .op (.name x) ∈ a.code false := by simpa [code] using h
      simp [lexemes, ih ha]
  | compare a o b iha ihb =>
      intro negative h
      have hside :
          .op (.name x) ∈ a.code false ∨ .op (.name x) ∈ b.code false := by
        simpa [code] using h
      rcases hside with ha | hb
      · simp [lexemes, iha ha]
      · simp [lexemes, ihb hb]
  | join a o b iha ihb =>
      intro negative h
      have hside : .op (.name x) ∈ a.code negative ∨
          .op (.name x) ∈ b.code false := by
        simpa [code] using h
      rcases hside with ha | hb
      · simp [lexemes, iha ha]
      · simp [lexemes, ihb hb]

/-- The code of a formula leaves an operand that denotes its value, and nothing
else changes. -/
theorem Formula.runs {values : String → Single} {t : Tier} (e : Formula t)
    (hvalues : ∀ x,
      .identifier x ∈ e.lexemes → m.store.get? x = some (values x))
    {negative : Bool} {k : Nat} {s : List Operand}
    (h : Seg p k (e.code negative)) :
    ∃ o, Denotes m.store o (e.value p.literal values negative) ∧
      Reaches p (m.standing k s)
        (m.standing (k + Item.sizes (e.code negative)) (o :: s)) :=
  Item.runs_value (fun x hx => hvalues x (e.mem_lexemes_of_code hx)) h
    (e.evaluate_code p.literal values negative []) s

end Reckon
