import Reckon.Proofs.Machine.Effect

/-!
# The variables that a program names

The names on the stack of a machine are those that its program pushes, wherever
its jumps lead and however it ends. So a program sets no other variables, and it
takes none away.

An operation that misses a variable has found its name on the stack. If all
names of a program were declared before, there is no such operation: what is
declared stays, and a run ends with the same variables that it began with.
-/

namespace Reckon

variable {p : Program} {x y : String}

/-! ## Names of a program -/

namespace Program

theorem mem_addName {names : List String} {op : Op} :
    y ∈ addName names op ↔ y ∈ names ∨ .name y = op := by
  cases op with
  | name z =>
      rw [addName, Op.name.injEq]
      split
      · next hz =>
          have hmem : y = z → y ∈ names :=
            fun h => h ▸ List.contains_iff_mem.mp hz
          exact ⟨.inl, (·.elim id hmem)⟩
      · rw [List.mem_append, List.mem_singleton]
  | _ => simp [addName]

/-- The names in a program are those that it pushes. -/
theorem mem_identifiers {p : Program} :
    y ∈ p.identifiers ↔ .name y ∈ p.ops := by
  have hfold : ∀ (ops : List Op) (names : List String),
      y ∈ ops.foldl addName names ↔ y ∈ names ∨ .name y ∈ ops := by
    intro ops
    induction ops with
    | nil => simp
    | cons op ops ih =>
        intro names
        rw [List.foldl_cons, ih, mem_addName, List.mem_cons, or_assoc]
  rw [identifiers, hfold]
  simp

end Program

namespace Store

theorem get?_declare (s : Store) (z : String) :
    (s.declare z).get? y = (s.get? y).or (if y = z then some .zero
      else none) := by
  unfold declare contains
  by_cases hy : y = z
  · subst hy
    cases hget : s.get? y <;> simp [hget]
  · split <;> simp [hy]

/-- A name in a program keeps the value that it has, or starts at zero. -/
theorem get?_prepare_eq_or (s : Store) : (s.prepare p).get? y =
    (s.get? y).or (if y ∈ p.identifiers then some .zero else none) := by
  have hfold : ∀ (names : List String) (s : Store),
      (names.foldl declare s).get? y =
        (s.get? y).or (if y ∈ names then some .zero else none) := by
    intro names
    induction names with
    | nil => simp
    | cons z names ih =>
        intro s
        rw [List.foldl_cons, ih, get?_declare, Option.or_assoc]
        congr 1
        by_cases hy : y = z <;> simp [hy]
  exact hfold _ _

/-- Every name in a program starts at zero, and there are no other variables. -/
theorem get?_prepare : (empty.prepare p).get? y =
    if y ∈ p.identifiers then some .zero else none :=
  get?_prepare_eq_or empty

/-- Preparing declares every name in a program. -/
theorem contains_prepare (s : Store) (h : .name y ∈ p.ops) :
    (s.prepare p).contains y = true := by
  unfold contains
  rw [get?_prepare_eq_or, if_pos (Program.mem_identifiers.mpr h)]
  cases s.get? y <;> rfl

theorem contains_set {s : Store} (h : s.contains x = true) (y : String)
    (v : Single) : (s.set y v).contains x = true := by
  unfold contains at h ⊢
  rw [get?_set]
  split
  · rfl
  · exact h

end Store

namespace Machine

variable {m m' : Machine} {op : Op} {behind : Option Op} {outcome : Outcome}
  {limit : Option Nat} {budget : Nat} {halt : Halt}

/-! ## Variables that are missing -/

/-- If a variable is missed, its name was on the stack. -/
def Misses (m : Machine) (outcome : Outcome) : Prop :=
  ∀ x m', outcome = .fault (.undefinedVariable x) m' →
    .name x ∈ m.stack ∧ m.store.get? x = none

namespace Misses

/-- What is missed later was on the stack before operands were taken. -/
theorem of_drop {m' : Machine} (h : Misses m' outcome)
    (hstack : m'.stack ⊆ m.stack) (hstore : m'.store = m.store) :
    Misses m outcome := by
  intro x after he
  obtain ⟨hx, hget⟩ := h x after he
  exact ⟨hstack hx, hstore ▸ hget⟩

theorem pop {next : Operand → Machine → Outcome}
    (hnext : ∀ o rest, m.stack = o :: rest →
      Misses m (next o { m with stack := rest })) :
    Misses m (m.pop op next) := by
  unfold Machine.pop
  split
  · exact nofun
  · next o rest hstack => exact hnext o rest hstack

theorem popNumber {next : Single → Machine → Outcome}
    (hnext : ∀ v rest, rest ⊆ m.stack →
      Misses m (next v { m with stack := rest })) :
    Misses m (m.popNumber op next) := by
  refine pop fun o rest hstack => ?_
  have hrest : rest ⊆ m.stack := hstack ▸ List.subset_cons_self o rest
  cases o with
  | number v => exact hnext v rest hrest
  | name y =>
      dsimp only
      split
      · exact hnext _ rest hrest
      · next hget =>
          rintro _ _ ⟨⟩
          exact ⟨hstack ▸ List.mem_cons_self, hget⟩
  | label slot => exact nofun

theorem popName {next : String → Machine → Outcome}
    (hnext : ∀ y rest, m.stack = .name y :: rest →
      Misses m (next y { m with stack := rest })) :
    Misses m (m.popName op next) := by
  refine pop fun o rest hstack => ?_
  cases o with
  | name y => exact hnext y rest hstack
  | number v | label slot => exact nofun

theorem popLabel {next : Nat → Machine → Outcome}
    (hnext : ∀ slot rest, rest ⊆ m.stack →
      Misses m (next slot { m with stack := rest })) :
    Misses m (m.popLabel op next) := by
  refine pop fun o rest hstack => ?_
  cases o with
  | label slot => exact hnext slot rest (hstack ▸ List.subset_cons_self _ rest)
  | number v | name y => exact nofun

theorem jumpTo (slot : Nat) : Misses m (m'.jumpTo p slot) := by
  unfold Machine.jumpTo
  split <;> exact nofun

theorem readNumber {next : Single → Machine → Outcome}
    (hnext : ∀ v m', Misses m (next v m')) :
    Misses m (m'.readNumber y next) := by
  unfold Machine.readNumber
  dsimp only
  split
  · exact nofun
  · split
    · exact nofun
    · split
      · exact hnext _ _
      · exact nofun

theorem write {text : String} {next : Machine → Outcome}
    (hnext : ∀ m', Misses m (next m')) :
    Misses m ((m'.write text).andThen next) := by
  unfold Machine.write
  dsimp only
  split
  · exact hnext _
  · split
    · exact hnext _
    · exact nofun

end Misses

/-- Every operation that misses a variable has found its name on the stack. -/
theorem misses_perform (p : Program) (m : Machine) (op : Op)
    (behind : Option Op) : Misses m (m.perform p op behind) := by
  cases op with
  | mark | name => exact nofun
  | label slot =>
      unfold perform
      dsimp only
      split <;> exact nofun
  | constant slot =>
      unfold perform
      dsimp only
      split <;> exact nofun
  | neg | not => exact .popNumber fun _ _ _ => nofun
  | binary operator =>
      refine .popNumber fun v rest hrest => ?_
      exact .of_drop (.popNumber fun _ _ _ => nofun) hrest rfl
  | assign =>
      refine .popNumber fun v rest hrest => ?_
      exact .of_drop (.popName fun _ _ _ => nofun) hrest rfl
  | jump => exact .popLabel fun slot _ _ => .jumpTo slot
  | jumpIfFalse =>
      refine .popLabel fun slot rest hrest => ?_
      refine .of_drop (.popNumber fun v _ _ => ?_) hrest rfl
      split
      · exact .jumpTo slot
      · exact nofun
  | read => exact .popName fun _ _ _ => .readNumber fun _ _ => nofun
  | write =>
      refine .popName fun y rest hstack => ?_
      split
      · next hget =>
          rintro _ _ ⟨⟩
          exact ⟨hstack ▸ List.mem_cons_self, hget⟩
      · exact .write fun _ => nofun

theorem missing_of_step?
    (h : m.step? p = some (.fault (.undefinedVariable x) m')) :
    .name x ∈ m.stack ∧ m.store.get? x = none := by
  obtain ⟨op, -, hperform⟩ := Option.map_eq_some_iff.mp h
  exact misses_perform p { m with steps := m.steps + 1 } op _ x m' hperform

/-! ## Runs -/

/-- No operation takes a variable away. -/
theorem contains_step (h : m.store.contains x = true)
    (hstep : m.step? p = some outcome) :
    outcome.machine.store.contains x = true := by
  obtain ⟨op, -, -, hchange⟩ := effect_step hstep
  cases hchange with
  | takes n _ hstore => rwa [hstore]
  | leaves n o _ _ _ hstore => rwa [hstore]
  | sets n y v _ _ hstore =>
      rw [hstore]
      exact Store.contains_set h y v

theorem run_contains (h : m.store.contains x = true)
    (hrun : run limit p budget m = some halt) :
    halt.machine.store.contains x = true :=
  run_keeps (P := fun m => m.store.contains x = true) contains_step id h hrun

/-- A machine that knows all names of its program, those on its
stack among them. -/
structure Knows (p : Program) (m : Machine) : Prop where
  names : ∀ x, .name x ∈ m.stack → .name x ∈ p.ops
  known : ∀ x, .name x ∈ p.ops → m.store.contains x = true

/-- Where the names of a program are declared a run of it knows them. -/
theorem Knows.start (p : Program) (s : Store) (input : List UInt8)
    (room : Option Nat) : Knows p (.start (s.prepare p) input room) where
  names _ hmem := absurd hmem List.not_mem_nil
  known _ hx := s.contains_prepare hx

theorem Knows.step (h : Knows p m) (hstep : m.step? p = some outcome) :
    Knows p outcome.machine :=
  have hframes : Frames p m.store m := ⟨h.names, fun _ _ => rfl⟩
  ⟨(hframes.step hstep).names, fun x hx => contains_step (h.known x hx) hstep⟩

/-- What knows all names never misses one. -/
theorem Knows.run (h : Knows p m) (hrun : run limit p budget m = some halt) :
    halt.fault ≠ some (.undefinedVariable x) := by
  intro hfault
  obtain ⟨n, hlimit⟩ | ⟨m', hm', hstep⟩ := run_fault (P := Knows p) Knows.step
    (fun h => ⟨h.names, h.known⟩) h hrun hfault
  · cases hlimit
  · obtain ⟨hx, hget⟩ := missing_of_step? hstep
    have hknown := hm'.known x (hm'.names x hx)
    rw [Store.contains, hget] at hknown
    cases hknown

/-- Whatever a program is and whatever becomes of its run: a variable that it
does not name is as it was before, and no variable is taken away. If its names
were declared first, none of them is ever missed, and there are the same
variables afterwards. -/
theorem run_confined (p : Program) (s : Store) (input : List UInt8)
    (room limit : Option Nat) :
    (∀ budget halt, run limit p budget (.start s input room) = some halt →
      (∀ x, x ∉ p.identifiers → halt.machine.store.get? x = s.get? x) ∧
        ∀ x, s.contains x = true → halt.machine.store.contains x = true) ∧
    ∀ budget halt, run limit p budget (.start (s.prepare p) input room) =
      some halt → (∀ x, halt.fault ≠ some (.undefinedVariable x)) ∧
        ∀ x, halt.machine.store.contains x = (s.prepare p).contains x := by
  refine ⟨fun budget halt hrun =>
    ⟨fun x hx => ?_, fun x hx => run_contains hx hrun⟩,
    fun budget halt hrun => ⟨fun x => ?_, fun x => ?_⟩⟩
  · exact run_get? (mt Program.mem_identifiers.mpr hx) rfl hrun
  · exact (Knows.start p s input room).run hrun
  · by_cases hx : .name x ∈ p.ops
    · have hdeclared := s.contains_prepare hx
      exact (run_contains hdeclared hrun).trans hdeclared.symm
    · exact congrArg Option.isSome (run_get? hx rfl hrun)

/-- Jumps with a name on the stack, over a constant that it does not have, and
reads the variable of this name. -/
def carrying : Program :=
  ⟨[.name "x", .label 0, .jump, .constant 7, .label 0, .mark, .read], [], ["m"]⟩

/-- It leaves a variable alone that it does not name, and where the input ends
before the variable that it names is read there are still both of them. -/
theorem carrying_confined :
    let s := Store.empty.set "y" .one
    (∃ halt, run none carrying 9 (.start s [51, 10] none) = some halt ∧
      halt.machine.store.get? "x" = some ⟨0x40400000⟩ ∧
        halt.machine.store.get? "y" = s.get? "y") ∧
    ∃ halt, run none carrying 9 (.start (s.prepare carrying) [] none) =
      some halt ∧ halt.fault = some (.endOfInput "x") ∧
        (∀ x, halt.fault ≠ some (.undefinedVariable x)) ∧
          ∀ x, halt.machine.store.contains x =
            (s.prepare carrying).contains x := by
  intro s
  have hread : (run none carrying 9 (.start s [51, 10] none)).map
      (fun halt => halt.machine.store.get? "x") = some (some ⟨0x40400000⟩) := by
    decide +kernel
  have hended : (run none carrying 9 (.start (s.prepare carrying) [] none)).map
      (·.fault) = some (some (.endOfInput "x")) := by
    decide +kernel
  obtain ⟨halt, hrun, hx⟩ := Option.map_eq_some_iff.mp hread
  obtain ⟨halt', hrun', hfault⟩ := Option.map_eq_some_iff.mp hended
  refine ⟨⟨halt, hrun, hx, ?_⟩, halt', hrun', hfault, ?_⟩
  · exact ((run_confined carrying s [51, 10] none none).1 9 halt hrun).1 "y"
      (by decide)
  · exact (run_confined carrying s [] none none).2 9 halt' hrun'

end Machine

end Reckon
