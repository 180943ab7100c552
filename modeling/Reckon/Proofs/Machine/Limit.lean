import Reckon.Proofs.Machine.Effect

/-!
# Runs with a limit

A limit is looked at before each operation and nowhere else, so a run with a
limit goes the way of the run without one for as long as operations are
allowed. If the program ends or faults with the last of them or before, the
limit has made no difference. If it does not, the machine is stopped where
the run without a limit is after that many operations, and the one it was
about to begin is counted.
-/

namespace Reckon.Machine

variable {p : Program} {m m' : Machine} {limit n : Nat} {halt halt' : Halt}

/-- The machine after so many operations without a limit; nothing if the program
ends or faults before. -/
def after (p : Program) : Nat → Machine → Option Machine
  | 0, m => some m
  | n + 1, m =>
    match m.step? p with
    | some (.ok m) => after p n m
    | _ => none

/-- A step counts one operation. -/
theorem steps_of_step? {outcome : Outcome} (h : m.step? p = some outcome) :
    outcome.machine.steps = m.steps + 1 := by
  obtain ⟨-, -, hsteps, -⟩ := effect_step h
  exact hsteps

/-- A run never counts back. -/
theorem steps_le_of_run {allowed : Option Nat} {budget : Nat}
    (h : run allowed p budget m = some halt) :
    m.steps ≤ halt.machine.steps := by
  refine run_keeps (P := fun m' => m.steps ≤ m'.steps) (fun hle hstep => ?_)
    (fun hle => Nat.le_succ_of_le hle) (Nat.le_refl _) h
  rw [steps_of_step? hstep]
  exact Nat.le_succ_of_le hle

theorem stepWithin?_of_lt (h : m.steps < limit) :
    m.stepWithin? (some limit) p = m.step? p := by
  unfold stepWithin?
  simp only [Nat.not_le.mpr h, if_false, Option.map_id']

/-- At the limit there is an operation to be run, and it is not allowed. -/
theorem stepWithin?_of_le {outcome : Outcome} (hstep : m.step? p = some outcome)
    (h : limit ≤ m.steps) : m.stepWithin? (some limit) p =
      some (.fault (.stepLimit limit) { m with steps := m.steps + 1 }) := by
  unfold stepWithin?
  simp only [hstep, Option.map_some, if_pos h]

/-- A run that ends within the limit is the same run with the limit. -/
theorem run_of_steps_le {budget : Nat} : ∀ {m : Machine} {enough : Nat},
    run none p budget m = some halt → halt.machine.steps ≤ limit →
      limit < m.steps + enough → run (some limit) p enough m = some halt := by
  induction budget with
  | zero => exact nofun
  | succ budget ih =>
      intro m enough hrun hle henough
      have hfirst := steps_le_of_run hrun
      obtain ⟨enough, rfl⟩ : ∃ k, enough = k + 1 := ⟨enough - 1, by omega⟩
      rw [run, stepWithin?] at hrun
      split at hrun
      · next hend =>
          cases hrun
          rw [run, stepWithin?, hend]
          rfl
      · next hfault =>
          cases hrun
          have hsteps := steps_of_step? hfault
          have hlt : m.steps < limit :=
            Nat.lt_of_succ_le (Nat.le_trans (Nat.le_of_eq hsteps.symm) hle)
          rw [run, stepWithin?_of_lt hlt, hfault]
      · next next hok =>
          have hsteps : next.steps = m.steps + 1 := steps_of_step? hok
          have hlater := steps_le_of_run hrun
          rw [run, stepWithin?_of_lt (by omega), hok]
          exact ih hrun hle (by omega)

/-- A run that goes on beyond the limit is stopped there. -/
theorem run_of_lt_steps : ∀ {m : Machine} {enough : Nat}, m.steps + n = limit →
    (∀ budget halt, run none p budget m = some halt →
      limit < halt.machine.steps) →
      n < enough → ∃ m', after p n m = some m' ∧ m'.steps = limit ∧
        run (some limit) p enough m =
          some ⟨some (.stepLimit limit), { m' with steps := limit + 1 }⟩ := by
  induction n with
  | zero =>
      intro m enough hsteps hbeyond henough
      obtain ⟨enough, rfl⟩ : ∃ k, enough = k + 1 := ⟨enough - 1, by omega⟩
      refine ⟨m, rfl, hsteps, ?_⟩
      cases hstep : m.step? p with
      | none =>
          have := hbeyond 1 ⟨none, m⟩ (by rw [run, stepWithin?, hstep])
          exact absurd this (by simp only; omega)
      | some outcome =>
          rw [run, stepWithin?_of_le hstep (by omega), ← hsteps, Nat.add_zero]
  | succ n ih =>
      intro m enough hsteps hbeyond henough
      obtain ⟨enough, rfl⟩ : ∃ k, enough = k + 1 := ⟨enough - 1, by omega⟩
      cases hstep : m.step? p with
      | none =>
          have := hbeyond 1 ⟨none, m⟩ (by rw [run, stepWithin?, hstep])
          exact absurd this (by simp only; omega)
      | some outcome =>
          have hcount := steps_of_step? hstep
          cases outcome with
          | fault cause next =>
              have :=
                hbeyond 1 ⟨some cause, next⟩ (by rw [run, stepWithin?, hstep])
              simp only [Outcome.machine] at hcount this
              exact absurd this (by omega)
          | ok next =>
              simp only [Outcome.machine] at hcount
              have hlater : n < enough := by omega
              obtain ⟨m', hafter, hm', hrun⟩ := ih (m := next) (by omega)
                (fun budget halt h => hbeyond (budget + 1) halt
                  (by rw [run, stepWithin?, hstep]; exact h))
                hlater
              refine ⟨m', ?_, hm', ?_⟩
              · rw [after, hstep]
                exact hafter
              · rw [run, stepWithin?_of_lt (by omega), hstep]
                exact hrun

/-- A limit makes no difference to a run that ends with the last
operation allowed or before. Any other run is stopped as it is after
so many operations. -/
theorem run_limited (p : Program) (store : Store) (input : List UInt8)
    (room : Option Nat) (limit : Nat) :
    (∀ budget halt, run none p budget (.start store input room) = some halt →
      halt.machine.steps ≤ limit → ∀ enough, limit < enough →
        run (some limit) p enough (.start store input room) = some halt) ∧
    ((∀ budget halt, run none p budget (.start store input room) = some halt →
        limit < halt.machine.steps) →
      ∃ m, after p limit (.start store input room) = some m ∧ m.steps = limit ∧
        ∀ enough, limit < enough →
          run (some limit) p enough (.start store input room) =
            some ⟨some (.stepLimit limit), { m with steps := limit + 1 }⟩) := by
  have hzero : (start store input room).steps = 0 := rfl
  constructor
  · intro budget halt hrun hle enough henough
    exact run_of_steps_le hrun hle (by omega)
  · intro hbeyond
    have hstopped : ∀ enough, limit < enough → _ :=
      fun enough => run_of_lt_steps (by omega) hbeyond
    obtain ⟨m, hafter, hsteps, -⟩ :=
      hstopped (limit + 1) (Nat.lt_succ_self limit)
    refine ⟨m, hafter, hsteps, fun enough henough => ?_⟩
    obtain ⟨m', hafter', -, hrun⟩ := hstopped enough henough
    obtain rfl := Option.some.inj (hafter.symm.trans hafter')
    exact hrun

/-- Sets a variable, in three operations. -/
def setting : Program := ⟨[.name "x", .constant 0, .assign], [.one], []⟩

/-- Jumps back to its first label for ever. -/
def turning : Program := ⟨[.label 0, .mark, .label 0, .jump], [], ["m"]⟩

theorem turning_goes_on : ∀ budget n,
    run none turning budget { position := 2, steps := n } = none
  | 0, _ | 1, _ => rfl
  | budget + 2, n => turning_goes_on budget (n + 2)

/-- With three operations allowed one of the two gets to its end, and the other
is stopped at its jump. -/
theorem run_limited_to_three :
    (∃ halt, run none setting 4 (.start .empty [] none) = some halt ∧
      halt.machine.steps ≤ 3 ∧
        run (some 3) setting 4 (.start .empty [] none) = some halt) ∧
    ∃ m, after turning 3 (.start .empty [] none) = some m ∧ m.steps = 3 ∧
      run (some 3) turning 4 (.start .empty [] none) =
        some ⟨some (.stepLimit 3), { m with steps := 4 }⟩ := by
  constructor
  · have hrun : run none setting 4 (.start .empty [] none) =
        some ⟨none, {
          position := 3, store := Store.empty.set "x" .one, steps := 3 }⟩ := rfl
    exact ⟨_, hrun, Nat.le_refl 3,
      (run_limited setting .empty [] none 3).1 4 _ hrun (Nat.le_refl 3)
        4 (by decide)⟩
  · have hnever :
        ∀ budget, run none turning budget (.start .empty [] none) = none
      | 0 => rfl
      | budget + 1 => turning_goes_on budget 1
    obtain ⟨m, hafter, hsteps, hrun⟩ := (run_limited turning .empty [] none 3).2
      fun budget halt h => by rw [hnever] at h; cases h
    exact ⟨m, hafter, hsteps, hrun 4 (by decide)⟩

end Reckon.Machine
