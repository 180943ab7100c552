import Reckon.Proofs.Compile.Rendering

/-!
# Compiled programs run as they are meant

A machine that mirrors a situation keeps doing so, line by line, from the start
of a program to wherever it gets. Each line takes one operation or more, so a
run of the machine that ends has passed through finitely many lines, and neither
side can go on when the other does not. The budgets of the two runs differ, and
all that is said of them is that some budget suffices.
-/

namespace Reckon

variable {p : Program} {s : Script} {cs : List Chunk} {known : String → Prop}
  {now : Situation} {m m' : Machine} {cause : Fault} {halt : Halt}
  {ending : Ending}

/-! ## Runs of machines -/

namespace Machine

/-- A greater budget does not change an answer. -/
theorem run_add {limit : Option Nat} (k : Nat) : ∀ {budget : Nat} {m : Machine},
    run limit p budget m = some halt →
    run limit p (budget + k) m = some halt := by
  intro budget
  induction budget with
  | zero => exact nofun
  | succ budget ih =>
      intro m h
      rw [Nat.add_right_comm]
      unfold run at h ⊢
      split at h
      · exact h
      · exact h
      · exact ih h

theorem run_next (h : Next p m m') (n : Nat) : ∃ j, ∀ budget,
    run none p (budget + 1) { m with steps := n } =
      run none p budget { m' with steps := j } := by
  obtain ⟨j, hstep⟩ := h n
  refine ⟨j, fun budget => ?_⟩
  rw [run, stepWithin?, hstep]

theorem run_faults (h : Faults p m cause m') (n : Nat) : ∃ j, ∀ budget,
    run none p (budget + 1) { m with steps := n } =
      some ⟨some cause, { m' with steps := j }⟩ := by
  obtain ⟨j, hstep⟩ := h n
  refine ⟨j, fun budget => ?_⟩
  rw [run, stepWithin?, hstep]

theorem run_of_step?_eq_none (h : m.step? p = none) (budget : Nat) :
    run none p (budget + 1) m = some ⟨none, m⟩ := by
  rw [run, stepWithin?, h]

/-- Operations that lead somewhere cost as much budget as there are of them. -/
theorem run_reaches (h : Reaches p m m') : ∀ n, ∃ k j, ∀ budget,
    run none p (budget + k) { m with steps := n } =
      run none p budget { m' with steps := j } := by
  induction h using Relation.ReflTransGen.head_induction_on with
  | refl => exact fun n => ⟨0, n, fun _ => rfl⟩
  | head hnext _ ih =>
      intro n
      obtain ⟨i, hfirst⟩ := run_next hnext n
      obtain ⟨k, j, hrest⟩ := ih i
      refine ⟨k + 1, j, fun budget => ?_⟩
      rw [← Nat.add_assoc, hfirst, hrest]

theorem run_steps (h : Relation.TransGen (Next p) m m') (n : Nat) :
    ∃ k j, ∀ budget, run none p (budget + (k + 1)) { m with steps := n } =
      run none p budget { m' with steps := j } := by
  obtain ⟨_, hnext, hreach⟩ := Relation.TransGen.head'_iff.mp h
  obtain ⟨i, hfirst⟩ := run_next hnext n
  obtain ⟨k, j, hrest⟩ := run_reaches hreach i
  refine ⟨k, j, fun budget => ?_⟩
  rw [← Nat.add_assoc, hfirst, hrest]

/-- A run that reaches the end of a program ends there. -/
theorem run_to_end (h : Reaches p m m') (hend : p.ops[m'.position]? = none) :
    ∃ k j, ∀ budget, k ≤ budget →
      run none p budget m = some ⟨none, { m' with steps := j }⟩ := by
  obtain ⟨k, j, hrun⟩ := run_reaches h m.steps
  have hstep : { m' with steps := j }.step? p = none :=
    Option.map_eq_none_iff.mpr hend
  refine ⟨k + 1, j, fun budget hbudget => ?_⟩
  obtain ⟨rest, rfl⟩ := Nat.exists_eq_add_of_le' hbudget
  rw [Nat.add_comm k 1, ← Nat.add_assoc]
  exact (hrun (rest + 1)).trans (run_of_step?_eq_none hstep rest)

/-- A run that reaches an operation which faults ends with its fault. -/
theorem run_to_fault {m'' : Machine} (h : Reaches p m m')
    (hfaults : Faults p m' cause m'') : ∃ k j, ∀ budget, k ≤ budget →
      run none p budget m = some ⟨some cause, { m'' with steps := j }⟩ := by
  obtain ⟨k, i, hrun⟩ := run_reaches h m.steps
  obtain ⟨j, hend⟩ := run_faults hfaults i
  refine ⟨k + 1, j, fun budget hbudget => ?_⟩
  obtain ⟨rest, rfl⟩ := Nat.exists_eq_add_of_le' hbudget
  rw [Nat.add_comm k 1, ← Nat.add_assoc]
  exact (hrun (rest + 1)).trans (hend rest)

end Machine

/-! ## Runs that end -/

/-- A run of a machine ended as a run of a script did. -/
structure EndsAlike (known : String → Prop) (ending : Ending) (halt : Halt) :
    Prop where
  fault : halt.fault = ending.fault
  shares : Shares known ending.situation halt.machine

theorem Mirrors.steps (h : Mirrors cs known now m) (n : Nat) :
    Mirrors cs known now { m with steps := n } :=
  { values := h.values, input := h.input, output := h.output, room := h.room,
    stack := h.stack, position := h.position }

theorem Shares.steps (h : Shares known now m) (n : Nat) :
    Shares known now { m with steps := n } :=
  ⟨h.values, h.input, h.output, h.room⟩

namespace Renders

variable (h : Renders p s cs known)
include h

/-- Where a script ends, a machine that mirrors it ends alike. -/
theorem run_of_end (hmirrors : Mirrors cs known now m)
    (hstep : s.step? now = none) (n budget : Nat) : ∃ halt,
      Machine.run none p (budget + 1) { m with steps := n } = some halt ∧
        EndsAlike known ⟨none, now⟩ halt := by
  have hmirrors := hmirrors.steps n
  have hend := h.step?_eq_none hmirrors hstep
  exact ⟨_, Machine.run_of_step?_eq_none hend budget, rfl, hmirrors.toShares⟩

/-- Where a script is stopped by a fault, a machine that mirrors it is too. -/
theorem run_of_fault {after : Situation} (hmirrors : Mirrors cs known now m)
    (hstep : s.step? now = some (.fault cause after)) (n : Nat) :
    ∃ k halt, ∀ budget,
      Machine.run none p (budget + 1 + k) { m with steps := n } = some halt ∧
        EndsAlike known ⟨some cause, after⟩ halt := by
  obtain ⟨m', m'', hreach, hfaults, hshares⟩ := h.follows hmirrors hstep
  obtain ⟨k, j, hrun⟩ := Machine.run_reaches hreach n
  obtain ⟨i, hend⟩ := Machine.run_faults hfaults j
  exact ⟨k, _,
    fun budget => ⟨(hrun _).trans (hend budget), rfl, hshares.steps i⟩⟩

/-- If a run of a script ends, so does that of a machine that mirrors it. -/
theorem halts : ∀ {budget : Nat} {now : Situation} {m : Machine} (n : Nat),
    Mirrors cs known now m → s.run budget now = some ending → ∃ budget' halt,
      Machine.run none p budget' { m with steps := n } = some halt ∧
        EndsAlike known ending halt := by
  intro budget
  induction budget with
  | zero => exact nofun
  | succ budget ih =>
      intro now m n hmirrors hrun
      unfold Script.run at hrun
      split at hrun
      · next hstep =>
          cases hrun
          obtain ⟨halt, hhalt, halike⟩ := h.run_of_end hmirrors hstep n 0
          exact ⟨_, halt, hhalt, halike⟩
      · next cause after hstep =>
          cases hrun
          obtain ⟨k, halt, hhalt⟩ := h.run_of_fault hmirrors hstep n
          exact ⟨_, halt, hhalt 0⟩
      · next after hstep =>
          obtain ⟨m', hsteps, hmirrors'⟩ := h.follows hmirrors hstep
          obtain ⟨k, j, hfirst⟩ := Machine.run_steps hsteps n
          obtain ⟨budget', halt, hrest, halike⟩ := ih j hmirrors' hrun
          exact ⟨budget' + (k + 1), halt, (hfirst budget').trans hrest, halike⟩

/-- If a run of a machine ends, so does that of a script that it mirrors. -/
theorem halted {budget : Nat} : ∀ {now : Situation} {m : Machine} (n : Nat),
    Mirrors cs known now m →
      Machine.run none p budget { m with steps := n } = some halt →
        ∃ budget' ending, s.run budget' now = some ending ∧
          EndsAlike known ending halt := by
  induction budget using Nat.strongRecOn with
  | ind budget ih =>
      intro now m n hmirrors hrun
      -- However far the machine has to go for a line, it has the budget for it.
      have hagain : ∀ k,
          Machine.run none p (budget + k) { m with steps := n } = some halt :=
        fun k => Machine.run_add k hrun
      cases hstep : s.step? now with
      | none =>
          obtain ⟨halt', hhalt, halike⟩ := h.run_of_end hmirrors hstep n budget
          obtain rfl := Option.some.inj ((hagain 1).symm.trans hhalt)
          exact ⟨1, _, by rw [Script.run, hstep], halike⟩
      | some progress =>
          cases progress with
          | fault cause after =>
              obtain ⟨k, halt', hhalt⟩ := h.run_of_fault hmirrors hstep n
              obtain ⟨hhalt, halike⟩ := hhalt budget
              rw [Nat.add_assoc] at hhalt
              obtain rfl := Option.some.inj ((hagain _).symm.trans hhalt)
              exact ⟨1, _, by rw [Script.run, hstep], halike⟩
          | ok after =>
              obtain ⟨m', hsteps, hmirrors'⟩ := h.follows hmirrors hstep
              obtain ⟨k, j, hfirst⟩ := Machine.run_steps hsteps n
              have hlt : k < budget := by
                refine Nat.lt_of_not_le fun hle => ?_
                have hnone := hfirst 0
                have hsome := hagain (k + 1 - budget)
                have hbudget :
                    budget + (k + 1 - budget) = 0 + (k + 1) := by omega
                rw [hbudget, hnone] at hsome
                cases hsome
              obtain ⟨rest, rfl⟩ := Nat.exists_eq_add_of_lt hlt
              have hbudget : k + rest + 1 = rest + (k + 1) := by omega
              rw [hbudget, hfirst] at hrun
              obtain ⟨budget', ending, hrest, halike⟩ :=
                ih rest (by omega) j hmirrors' hrun
              refine ⟨budget' + 1, ending, ?_, halike⟩
              rw [Script.run, hstep]
              exact hrest

end Renders

/-! ## Compiled programs -/

/-- A program does what a source says. Whatever the input is, its run begins
where the source does; from wherever a machine mirrors a situation, a line leads
both of them on or stops both; and a run of one ends if and only if that of the
other does, with the same fault, values, input and output. -/
structure Performs (p : Program) (source : Source) : Prop where
  start : ∀ input, Mirrors source.chunks source.Uses { input }
    (.start (Store.empty.prepare p) input none)
  line : ∀ {now m progress}, Mirrors source.chunks source.Uses now m →
    (source.script p).step? now = some progress →
      Follows source.chunks p source.Uses m progress
  stop : ∀ {now m}, Mirrors source.chunks source.Uses now m →
    (source.script p).step? now = none → m.step? p = none
  halts : ∀ {input budget ending},
    (source.script p).run budget { input } = some ending →
      ∃ budget' halt, p.execute none budget' input = some halt ∧
        EndsAlike source.Uses ending halt
  halted : ∀ {input budget halt}, p.execute none budget input = some halt →
    ∃ budget' ending, (source.script p).run budget' { input } = some ending ∧
      EndsAlike source.Uses ending halt

theorem Source.performs_of_emits {source : Source}
    (hgiven : ∀ lexeme ∈ source.body.lexemes, lexeme.IsGiven)
    (hemits : Emits p (codeOf source.chunks)) : Performs p source :=
  have hrenders := source.renders hgiven hemits
  have hstart := Source.mirrors_start hemits
  { start := hstart
    line := hrenders.follows
    stop := hrenders.step?_eq_none
    halts := hrenders.halts 0 (hstart _)
    halted := hrenders.halted 0 (hstart _) }

/-- What a text is compiled to does what the text says. -/
theorem Compilation.performs_source {checker : Checker} {text : String}
    {compiled : Compilation} (h : ofText checker text = .ok compiled) :
    (∃ source : Source, Spells compiled.reading.tokens source.lexemes) ∧
      ∀ source : Source, Spells compiled.reading.tokens source.lexemes →
        Performs compiled.program source := by
  obtain ⟨hread, hparse, c, hcompose, hprogram⟩ := stages h
  refine ⟨Language.derives_iff_source.mp (Language.parse_ok_iff.mp ⟨_, hparse⟩),
    fun source hspells => ?_⟩
  obtain ⟨c', hcompose', hemits⟩ := Composer.compose_of_spells hspells
  obtain rfl := Except.ok.inj (hcompose.symm.trans hcompose')
  rw [hprogram] at hemits
  refine source.performs_of_emits (fun lexeme hmem => ?_) hemits
  exact Reading.isGiven hread hspells lexeme (by simp [Source.lexemes, hmem])

/-- A program that jumps into the body of its loop. -/
def rejoiningText : String :=
  "program p\nvar ,i,s:float\nbegin\ndo i=1 to 3\na:s=s+i\nnext\n" ++
    "if s<9 then goto a\nwritel(,s)\nend"

/-- What `rejoiningText` says. -/
def rejoining : Source where
  name := "p"
  definitions := .one ⟨"i", ["s"]⟩
  body :=
    let number (digit : Char) : Expression :=
      .only (.only (.constant (Reading.numeralValue [digit])))
    let named (x : String) : Expression := .only (.only (.name x))
    .more (.more (.one (.plain (.loop "i" (number '1') (number '3') (.one
      (.labelled "a" (.assign "s" (.join (named "s") ⟨.add, by decide⟩
        (.only (.name "i")))))))))
      (.plain (.branch (.only (.only (.compare (named "s") ⟨.lt, by decide⟩
        (number '9')))) "a")))
      (.plain (.transfer .write ⟨"s", []⟩))

theorem rejoining_performs : ∃ compiled,
    Compilation.ofText .precedence rejoiningText = .ok compiled ∧
      Performs compiled.program rejoining := by
  have hread : (Reading.ofText rejoiningText).toOption.any
      (fun r => decide (Spells r.tokens rejoining.lexemes)) = true := by
    decide +kernel
  cases hreading : Reading.ofText rejoiningText with
  | error e =>
      rw [hreading] at hread
      cases hread
  | ok reading =>
      rw [hreading] at hread
      have hspells : Spells reading.tokens rejoining.lexemes :=
        of_decide_eq_true hread
      obtain ⟨compiled, hcompiled, hreads⟩ :=
        Compilation.exists_ok hreading hspells
      exact ⟨compiled, hcompiled,
        (Compilation.performs_source hcompiled).2 rejoining (hreads ▸ hspells)⟩

end Reckon
