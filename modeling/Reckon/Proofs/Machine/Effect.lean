import Reckon.Machine.Run

/-!
# What an operation can change

Twelve kinds of operations, each of which may fault halfway, do three things to
the stack and the variables: they take operands; they take operands and leave
one; or they take operands, the name of a variable among them, and set this
variable. A name or a label that is left is the one in the operation.
`effect_perform` says so once, for the machine after an operation whether or not
it faulted, and what a run keeps is read off the three cases. So a program
changes no variable that it does not name (`run_get?`).
-/

namespace Reckon.Machine

variable {p : Program} {op : Op} {m m' : Machine} {behind : Option Op}
  {P : Machine → Prop} {limit : Option Nat}

/-- How the stack and the variables come out of an operation. -/
inductive Change (op : Op) (m m' : Machine) : Prop where
  | takes (n : Nat) :
      m'.stack = m.stack.drop n → m'.store = m.store → Change op m m'
  | leaves (n : Nat) (o : Operand) : (∀ x, o = .name x → op = .name x) →
      (∀ slot, o = .label slot → op = .label slot) →
      m'.stack = o :: m.stack.drop n → m'.store = m.store → Change op m m'
  | sets (n : Nat) (x : String) (v : Single) : .name x ∈ m.stack →
      m'.stack = m.stack.drop n → m'.store = m.store.set x v → Change op m m'

/-- How a machine comes out of an operation that has been counted already. -/
structure Effect (op : Op) (m m' : Machine) : Prop where
  steps : m'.steps = m.steps
  change : Change op m m'

namespace Effect

/-- Operands were taken, and nothing else was done to stack and variables. -/
theorem takes (n : Nat) (hstack : m'.stack = m.stack.drop n)
    (hstore : m'.store = m.store) (hsteps : m'.steps = m.steps) :
    Effect op m m' :=
  ⟨hsteps, .takes n hstack hstore⟩

/-- A number is left by any operation. -/
theorem number (n : Nat) (v : Single)
    (hstack : m'.stack = .number v :: m.stack.drop n)
    (hstore : m'.store = m.store) (hsteps : m'.steps = m.steps) :
    Effect op m m' :=
  ⟨hsteps, .leaves n (.number v) nofun nofun hstack hstore⟩

theorem sets {x : String} (n : Nat) (v : Single) (hx : .name x ∈ m.stack)
    (hstack : m'.stack = m.stack.drop n) (hstore : m'.store = m.store.set x v)
    (hsteps : m'.steps = m.steps) : Effect op m m' :=
  ⟨hsteps, .sets n x v hx hstack hstore⟩

end Effect

/-! ## Parts of operations -/

/-- A fault leaves the machine as it was, or without the operand that was
taken. -/
theorem popNumber_machine {next : Single → Machine → Outcome} (hempty : P m)
    (htaken : ∀ o rest, m.stack = o :: rest → P { m with stack := rest })
    (hnext : ∀ o rest v, m.stack = o :: rest →
      P (next v { m with stack := rest }).machine) :
    P (m.popNumber op next).machine := by
  unfold popNumber pop
  split
  · exact hempty
  · next o rest hstack =>
      cases o with
      | number v => exact hnext _ rest v hstack
      | name x =>
          dsimp only
          split
          · exact hnext _ rest _ hstack
          · exact htaken _ rest hstack
      | label slot => exact htaken _ rest hstack

theorem popName_machine {next : String → Machine → Outcome} (hempty : P m)
    (htaken : ∀ o rest, m.stack = o :: rest → P { m with stack := rest })
    (hnext : ∀ x rest, m.stack = .name x :: rest →
      P (next x { m with stack := rest }).machine) :
    P (m.popName op next).machine := by
  unfold popName pop
  split
  · exact hempty
  · next o rest hstack =>
      cases o with
      | name x => exact hnext x rest hstack
      | number v | label slot => exact htaken _ rest hstack

theorem popLabel_machine {next : Nat → Machine → Outcome} (hempty : P m)
    (htaken : ∀ o rest, m.stack = o :: rest → P { m with stack := rest })
    (hnext : ∀ slot rest, m.stack = .label slot :: rest →
      P (next slot { m with stack := rest }).machine) :
    P (m.popLabel op next).machine := by
  unfold popLabel pop
  split
  · exact hempty
  · next o rest hstack =>
      cases o with
      | label slot => exact hnext slot rest hstack
      | number v | name x => exact htaken _ rest hstack

/-- A jump that leads nowhere leaves the machine where it is. -/
theorem jumpTo_machine {slot : Nat} (hstay : P m)
    (hgo : ∀ target, P { m with position := target }) :
    P (m.jumpTo p slot).machine := by
  unfold jumpTo
  split
  · exact hgo _
  · exact hstay

/-- A line that is no number is read all the same. -/
theorem readNumber_machine {x : String} {next : Single → Machine → Outcome}
    (hread : ∀ input, P { m with input })
    (hnext : ∀ v input, P (next v { m with input }).machine) :
    P (m.readNumber x next).machine := by
  unfold readNumber
  dsimp only
  split
  · exact hread _
  · split
    · exact hread _
    · split
      · exact hnext _ _
      · exact hread _

theorem write_machine {text : String} {next : Machine → Outcome}
    (hfull : ∀ output room, P { m with output, room })
    (hnext : ∀ output room, P (next { m with output, room }).machine) :
    P ((m.write text).andThen next).machine := by
  unfold write
  dsimp only
  split
  · exact hnext _ m.room
  · split
    · exact hnext _ _
    · exact hfull _ _

/-! ## Operations -/

theorem drop_one {o : Operand} {rest stack : List Operand}
    (h : stack = o :: rest) : rest = stack.drop 1 := by
  rw [h]
  rfl

theorem drop_two {o o' : Operand} {rest later stack : List Operand}
    (h : stack = o :: rest) (hrest : rest = o' :: later) :
    later = stack.drop 2 := by
  rw [h, hrest]
  rfl

/-- Every operation has an effect of the three kinds. -/
theorem effect_perform (p : Program) (m : Machine) (op : Op)
    (behind : Option Op) : Effect op m (m.perform p op behind).machine := by
  have hsame : Effect op m m := .takes 0 rfl rfl rfl
  have hone :
      ∀ o rest, m.stack = o :: rest → Effect op m { m with stack := rest } :=
    fun o rest h => .takes 1 (drop_one h) rfl rfl
  have htwo : ∀ {o rest}, m.stack = o :: rest → ∀ o' later, rest = o' :: later →
      Effect op m { m with stack := later } :=
    fun h o' later h' => .takes 2 (drop_two h h') rfl rfl
  cases op with
  | mark => exact .takes 0 rfl rfl rfl
  | name x =>
      have hleft : ∀ y, Operand.name x = .name y → Op.name x = .name y :=
        fun y h => congrArg _ (Operand.name.inj h)
      exact ⟨rfl, .leaves 0 (.name x) hleft nofun rfl rfl⟩
  | label slot =>
      unfold perform
      dsimp only
      split
      · exact .takes 0 rfl rfl rfl
      · have hleft :
            ∀ s, Operand.label slot = .label s → Op.label slot = .label s :=
          fun s h => congrArg _ (Operand.label.inj h)
        exact ⟨rfl, .leaves 0 (.label slot) nofun hleft rfl rfl⟩
  | constant slot =>
      unfold perform
      dsimp only
      split
      · exact .number 0 _ rfl rfl rfl
      · exact hsame
  | neg | not =>
      exact popNumber_machine hsame hone fun o rest v h =>
        .number 1 _ (congrArg _ (drop_one h)) rfl rfl
  | binary operator =>
      exact popNumber_machine hsame hone fun o rest v h =>
        popNumber_machine (hone o rest h) (htwo h) fun o' later w h' =>
          .number 2 _ (congrArg _ (drop_two h h')) rfl rfl
  | assign =>
      refine popNumber_machine hsame hone fun o rest v h =>
        popName_machine (hone o rest h) (htwo h) fun x later h' => ?_
      have hrest : rest = .name x :: later := h'
      exact .sets 2 v (by simp [h, hrest]) (drop_two h hrest) rfl rfl
  | jump =>
      exact popLabel_machine hsame hone fun slot rest h =>
        jumpTo_machine (hone _ rest h) fun target =>
          .takes 1 (drop_one h) rfl rfl
  | jumpIfFalse =>
      refine popLabel_machine hsame hone fun slot rest h =>
        popNumber_machine (hone _ rest h) (htwo h) fun o later v h' => ?_
      split
      · exact jumpTo_machine (htwo h o later h') fun target =>
          .takes 2 (drop_two h h') rfl rfl
      · exact .takes 2 (drop_two h h') rfl rfl
  | read =>
      refine popName_machine hsame hone fun x rest h =>
        readNumber_machine (fun input => .takes 1 (drop_one h) rfl rfl)
          fun v input => ?_
      exact .sets 1 v (by simp [h]) (drop_one h) rfl rfl
  | write =>
      refine popName_machine hsame hone fun x rest h => ?_
      split
      · exact hone _ rest h
      · exact write_machine (fun output room => .takes 1 (drop_one h) rfl rfl)
          fun output room => .takes 1 (drop_one h) rfl rfl

/-- A step runs the operation at the position, and counts it. -/
theorem effect_step {outcome : Outcome} (h : m.step? p = some outcome) :
    ∃ op ∈ p.ops, outcome.machine.steps = m.steps + 1 ∧
      Change op m outcome.machine := by
  obtain ⟨op, hop, rfl⟩ := Option.map_eq_some_iff.mp h
  have heffect := effect_perform p { m with steps := m.steps + 1 } op
    p.ops[m.position + 1]?
  refine ⟨op, List.mem_of_getElem? hop, heffect.steps, ?_⟩
  cases heffect.change with
  | takes n hstack hstore => exact .takes n hstack hstore
  | leaves n o hname hlabel hstack hstore =>
      exact .leaves n o hname hlabel hstack hstore
  | sets n x v hx hstack hstore => exact .sets n x v hx hstack hstore

/-! ## Runs -/

/-- A step within a limit is a step, or it is the one that the limit forbids. -/
theorem stepWithin?_eq_some {outcome : Outcome}
    (h : m.stepWithin? limit p = some outcome) : m.step? p = some outcome ∨
      ∃ n, outcome = .fault (.stepLimit n) { m with steps := m.steps + 1 } := by
  cases limit with
  | none => exact .inl h
  | some n =>
      obtain ⟨next, hnext, hlimited⟩ := Option.map_eq_some_iff.mp h
      split at hlimited
      · exact .inr ⟨n, hlimited.symm⟩
      · exact .inl (hlimited ▸ hnext)

section

variable (hstep : ∀ {m outcome}, P m → m.step? p = some outcome →
  P outcome.machine)
  (hcount : ∀ {m : Machine}, P m → P { m with steps := m.steps + 1 })
include hstep hcount

theorem stepWithin?_keeps {outcome : Outcome} (h : P m)
    (hsome : m.stepWithin? limit p = some outcome) : P outcome.machine := by
  rcases stepWithin?_eq_some hsome with hsome | ⟨n, rfl⟩
  · exact hstep h hsome
  · exact hcount h

/-- What every step keeps a run keeps, the step that a limit forbids
included. -/
theorem run_keeps {budget : Nat} : ∀ {m : Machine} {halt : Halt}, P m →
    run limit p budget m = some halt → P halt.machine := by
  induction budget with
  | zero => exact nofun
  | succ budget ih =>
      intro m halt h hrun
      unfold run at hrun
      split at hrun
      · cases hrun
        exact h
      · next hfault =>
          cases hrun
          exact stepWithin?_keeps hstep hcount h hfault
      · next hok => exact ih (stepWithin?_keeps hstep hcount h hok) hrun

/-- A fault that ends a run is the fault of a step, unless it is the limit. What
every step keeps is true in front of this one. -/
theorem run_fault {cause : Fault} {budget : Nat} :
    ∀ {m : Machine} {halt : Halt}, P m →
    run limit p budget m = some halt → halt.fault = some cause →
      (∃ n, cause = .stepLimit n) ∨
        ∃ m', P m' ∧ m'.step? p = some (.fault cause halt.machine) := by
  induction budget with
  | zero => exact nofun
  | succ budget ih =>
      intro m halt h hrun hcause
      unfold run at hrun
      split at hrun
      · cases hrun
        cases hcause
      · next hfault =>
          cases hrun
          cases hcause
          rcases stepWithin?_eq_some hfault with hfault | ⟨n, hlimit⟩
          · exact .inr ⟨m, h, hfault⟩
          · cases hlimit
            exact .inl ⟨n, rfl⟩
      · next hok => exact ih (stepWithin?_keeps hstep hcount h hok) hrun hcause

end

/-- The names on the stack are those of a program, and the variables that it
does not name are those of a store. -/
structure Frames (p : Program) (s : Store) (m : Machine) : Prop where
  names : ∀ x, .name x ∈ m.stack → .name x ∈ p.ops
  others : ∀ x, .name x ∉ p.ops → m.store.get? x = s.get? x

theorem Frames.step {s : Store} {outcome : Outcome} (h : Frames p s m)
    (hstep : m.step? p = some outcome) : Frames p s outcome.machine := by
  obtain ⟨op, hop, -, hchange⟩ := effect_step hstep
  cases hchange with
  | takes n hstack hstore =>
      refine ⟨fun x hx => h.names x (List.mem_of_mem_drop (hstack ▸ hx)), ?_⟩
      rw [hstore]
      exact h.others
  | leaves n o hname _ hstack hstore =>
      refine ⟨fun x hx => ?_, ?_⟩
      · rw [hstack] at hx
        rcases List.mem_cons.mp hx with hleft | hx
        · exact hname x hleft.symm ▸ hop
        · exact h.names x (List.mem_of_mem_drop hx)
      · rw [hstore]
        exact h.others
  | sets n y v hy hstack hstore =>
      refine ⟨fun x hx => h.names x (List.mem_of_mem_drop (hstack ▸ hx)),
        fun x hx => ?_⟩
      have hne : x ≠ y := fun hxy => hx (hxy ▸ h.names y hy)
      rw [hstore, Store.get?_set, if_neg hne]
      exact h.others x hx

/-- A variable that a program does not name keeps its value, or goes on without
one. -/
theorem run_get? {x : String} {budget : Nat} {halt : Halt}
    (hx : .name x ∉ p.ops) (hstack : m.stack = [])
    (hrun : run limit p budget m = some halt) :
    halt.machine.store.get? x = m.store.get? x := by
  have hstart : Frames p m.store m := ⟨by simp [hstack], fun _ _ => rfl⟩
  exact (run_keeps (P := Frames p m.store) (fun h hstep => h.step hstep)
    (fun h => ⟨h.names, h.others⟩) hstart hrun).others x hx

end Reckon.Machine
