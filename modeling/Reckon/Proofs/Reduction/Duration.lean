import Mathlib.Data.Finset.Card
import Reckon.Proofs.Reduction.Moves

/-!
# How long a run is

A run that accepts at all accepts within the budget, whatever the grammar. What
could take long is a row of reductions of a single symbol, for they leave the
height of the stack and the input as they are. But the automaton has no memory
besides these: if the same symbol came to the top twice in such a row, what was
done in between would be done again and again, and nothing would ever be
accepted. So a row is no longer than the list of productions.

To count them, take any moment of an accepting run and put other left-hand sides
in the place of what is on top. From some of these the automaton would accept in
fewer actions than from where it is (`quicker`). A reduction of a single symbol
leads to one of them, and from there it is no longer among them, so that they
become fewer with each.

A run that does not accept can go round in a circle. For it not to, there must
be a rank that every reduction of a single symbol climbs, as the language has
one. Then any run ends within the budget, and an error is that of the place
where it ends (`run_error`).
-/

namespace Reckon.Automaton

variable {g : Grammar} {table : Precedence} {line : Nat} {a b : Automaton}
  {m n budget time : Nat} {parsed : Parsed}

/-- The automaton accepts with its `n`-th action. -/
inductive Takes (g : Grammar) (table : Precedence) :
    Nat → Automaton → Prop where
  | accept {a b : Automaton} :
      step g table a = .ok (.accept, b) → Takes g table 1 a
  | act {n : Nat} {a b : Automaton} {action : Action} :
      action ≠ .accept → step g table a = .ok (action, b) →
      Takes g table n b → Takes g table (n + 1) a

theorem Takes.unique (hm : Takes g table m a) (hn : Takes g table n a) :
    m = n := by
  induction hm generalizing n with
  | accept hstep =>
      cases hn with
      | accept => rfl
      | act hother hstep' =>
          rw [hstep] at hstep'
          cases hstep'
          exact absurd rfl hother
  | act hother hstep _ ih =>
      cases hn with
      | accept hstep' =>
          rw [hstep] at hstep'
          cases hstep'
          exact absurd rfl hother
      | act _ hstep' hrest =>
          rw [hstep] at hstep'
          cases hstep'
          rw [ih hrest]

/-- The code that is out already has no bearing on what is done. -/
theorem Takes.congr (h : Takes g table n a) (hstack : a.stack = b.stack)
    (hinput : a.input = b.input) : Takes g table n b := by
  induction h generalizing b with
  | accept hstep =>
      obtain ⟨next, rest, hnext⟩ := exists_next hstep
      obtain ⟨b', hstep', -, -⟩ :=
        step_congr hstep hstack.symm hnext (hinput ▸ hnext)
      exact .accept hstep'
  | act hother hstep _ ih =>
      obtain ⟨next, rest, hnext⟩ := exists_next hstep
      obtain ⟨b', hstep', hstack', hinput'⟩ :=
        step_congr hstep hstack.symm hnext (hinput ▸ hnext)
      refine .act hother hstep' (ih hstack'.symm ?_)
      rcases hinput' with ⟨h, h'⟩ | ⟨h, h'⟩ <;> rw [h, h']

/-! ## Reductions of a single symbol -/

/-- The automaton with a left-hand side in place of what is on top. -/
def withTop (a : Automaton) (p : Production) : Automaton :=
  { a with stack := p.entry (a.stack.take 1) :: a.stack.tail }

open Classical in
/-- The productions with whose left-hand sides on top the automaton would accept
within fewer than `n` actions. -/
noncomputable def quicker (g : Grammar) (table : Precedence) (n : Nat)
    (a : Automaton) : Finset Production :=
  {p ∈ g.productions.toFinset | ∃ m < n, Takes g table m (a.withTop p)}

theorem mem_quicker_iff {p : Production} : p ∈ quicker g table n a ↔
    p ∈ g.productions ∧ ∃ m < n, Takes g table m (a.withTop p) := by
  classical
  simp only [quicker, Finset.mem_filter, List.mem_toFinset]

theorem card_quicker_le :
    (quicker g table n a).card ≤ g.productions.length := by
  classical
  exact (Finset.card_filter_le _ _).trans (List.toFinset_card_le _)

/-- A reduction of a single symbol leads to a left-hand side that is accepted
more quickly, and there are fewer of these from then on. -/
theorem card_quicker_lt {e : Entry} {below input : List Entry}
    (code : Program) {code' : Program} (k : Nat) {k' : Nat} {p : Production}
    (hp : p ∈ g.productions)
    (h : Takes g table n ⟨p.entry [e] :: below, input, code', k'⟩) :
    (quicker g table n ⟨p.entry [e] :: below, input, code', k'⟩).card <
      (quicker g table (n + 1) ⟨e :: below, input, code, k⟩).card := by
  refine Finset.card_lt_card ((Finset.ssubset_iff_of_subset ?_).mpr ⟨p, ?_, ?_⟩)
  · intro q hq
    obtain ⟨hq, m, hm, htakes⟩ := mem_quicker_iff.mp hq
    exact mem_quicker_iff.mpr ⟨hq, m, by omega, htakes.congr rfl rfl⟩
  · exact mem_quicker_iff.mpr ⟨hp, n, by omega, h.congr rfl rfl⟩
  · intro hmem
    obtain ⟨-, m, hm, htakes⟩ := mem_quicker_iff.mp hmem
    have := (htakes.congr rfl rfl).unique h
    omega

/-- An entry to be read counts for two on the stack, so that every other action
lowers the number that is multiplied. -/
theorem Takes.le (h : Takes g table n a) :
    n ≤ (2 * a.input.length + a.stack.length) * (g.productions.length + 1) +
      (quicker g table n a).card := by
  induction h with
  | accept hstep =>
      cases moves_of_step hstep with
      | @accept top next below rest =>
          refine Nat.le_add_right_of_le (Nat.mul_pos ?_ (Nat.succ_pos _))
          simp only [List.length_cons]
          omega
  | @act n a b action hother hstep hrest ih =>
      have hcard : (quicker g table n b).card ≤ _ := card_quicker_le
      -- whatever lowers the first factor pays for a whole row of reductions
      have hlower : ∀ {s t : Nat}, s < t →
          n ≤ s * (g.productions.length + 1) + (quicker g table n b).card →
          n + 1 ≤ t * (g.productions.length + 1) := by
        intro s t hst hn
        have := Nat.mul_le_mul_right (g.productions.length + 1)
          (show s + 1 ≤ t from hst)
        rw [Nat.succ_mul] at this
        omega
      cases moves_of_step hstep with
      | accept => exact absurd rfl hother
      | @shift top next below rest =>
          refine (hlower ?_ ih).trans (Nat.le_add_right _ _)
          simp only [List.length_cons]
          omega
      | @reduce base low input code k p hfind hbase hfull _ =>
          obtain ⟨hp, -⟩ := Grammar.find?_ok hfind
          obtain ⟨first, rest, rfl⟩ := List.exists_cons_of_ne_nil hfull
          cases rest with
          | nil =>
              have hfewer := card_quicker_lt code k hp hrest
              exact (Nat.succ_le_succ ih).trans (Nat.add_le_add_left hfewer _)
          | cons second rest =>
              refine (hlower ?_ ih).trans (Nat.le_add_right _ _)
              simp only [List.length_append, List.length_reverse,
                List.length_cons]
              omega

/-! ## Budgets -/

theorem exists_takes (h : run g table line time a = .ok parsed) :
    ∃ n, Takes g table n a := by
  induction time generalizing a parsed with
  | zero => cases h
  | succ time ih =>
      rcases run_ok h with
        ⟨b, hstep, -⟩ | ⟨action, b, later, hstep, hother, hlater, -⟩
      · exact ⟨1, .accept hstep⟩
      · obtain ⟨n, hn⟩ := ih hlater
        exact ⟨n + 1, .act hother hstep hn⟩

/-- A budget that covers the run gives the answer of any other that does. -/
theorem run_of_takes (htakes : Takes g table n a) (hbudget : n ≤ budget)
    (h : run g table line time a = .ok parsed) :
    run g table line budget a = .ok parsed := by
  induction htakes generalizing budget time parsed with
  | accept hstep =>
      obtain ⟨budget, rfl⟩ : ∃ k, budget = k + 1 := ⟨budget - 1, by omega⟩
      cases time with
      | zero => cases h
      | succ time =>
          rw [run_of_accept hstep] at h ⊢
          exact h
  | act hother hstep _ ih =>
      obtain ⟨budget, rfl⟩ : ∃ k, budget = k + 1 := ⟨budget - 1, by omega⟩
      cases time with
      | zero => cases h
      | succ time =>
          rw [run_of_act hother hstep] at h ⊢
          cases hlater : run g table line time _ with
          | error e => rw [hlater] at h; cases h
          | ok later =>
              rw [ih (by omega) hlater, ← hlater]
              exact h

/-- What accepts if it is given time accepts within the budget for its input. -/
theorem run_budget {length : Nat} (h : run g table line time a = .ok parsed)
    (hlength : 2 * a.input.length + a.stack.length ≤ 2 * length + 3) :
    run g table line (Automaton.budget g length) a = .ok parsed := by
  obtain ⟨n, htakes⟩ := exists_takes h
  refine run_of_takes htakes ?_ h
  have hle := htakes.le
  have hcard : (quicker g table n a).card ≤ _ := card_quicker_le
  have hfirst := Nat.mul_le_mul_right (g.productions.length + 1) hlength
  calc n ≤ (2 * length + 3) * (g.productions.length + 1) +
        g.productions.length := by omega
    _ ≤ (2 * length + 3) * (g.productions.length + 2) +
        (g.productions.length + 2) :=
      Nat.add_le_add (Nat.mul_le_mul_left _ (by omega)) (by omega)
    _ = Automaton.budget g length := (Nat.succ_mul _ _).symm

/-! ## Runs that do not accept -/

/-- A rank that every reduction of a single symbol climbs. -/
structure Ranked (g : Grammar) (rank : Symbol → Nat) (bound : Nat) : Prop where
  bounded : ∀ s, rank s ≤ bound
  climbs : ∀ s p, g.find? p.rhs = some p → p.rhs = [s] → rank p.lhs < rank s

/-- What every action lowers. An entry to be read weighs two on the stack, so
that a shift pays for what it puts there. -/
def weight (rank : Symbol → Nat) (bound : Nat) (a : Automaton) : Nat :=
  (2 * a.input.length + a.stack.length) * (bound + 1) +
    (a.stack.head?.map fun e => rank e.symbol).getD 0

theorem weight_lt {rank : Symbol → Nat} {bound : Nat}
    (hrank : Ranked g rank bound) {a b : Automaton} {action : Action}
    (h : Moves g table a action b) (haction : action ≠ .accept) :
    weight rank bound b < weight rank bound a := by
  have hfewer : ∀ {m n r s : Nat}, m < n → r ≤ bound →
      m * (bound + 1) + r < n * (bound + 1) + s := by
    intro m n r s hmn hr
    have := Nat.mul_le_mul_right (bound + 1) hmn
    rw [Nat.succ_mul] at this
    omega
  cases h with
  | accept => exact absurd rfl haction
  | @shift top next below rest =>
      unfold weight
      refine hfewer ?_ (hrank.bounded next.symbol)
      simp only [List.length_cons]
      omega
  | @reduce base low input code n p hfind hbase hfull _ =>
      cases base with
      | nil => exact absurd rfl hfull
      | cons first rest =>
          cases rest with
          | nil =>
              unfold weight
              have := hrank.climbs first.symbol p hfind hbase.symm
              simp only [List.reverse_cons, List.reverse_nil, List.nil_append,
                List.cons_append, List.length_cons, List.head?_cons,
                Option.map_some, Option.getD_some, Production.entry]
              omega
          | cons second rest =>
              unfold weight
              refine hfewer ?_ (hrank.bounded p.lhs)
              simp only [List.length_append, List.length_reverse,
                List.length_cons]
              omega

/-- A run whose weight is within the budget fails only where there is no
action. -/
theorem run_error {rank : Symbol → Nat} {bound : Nat}
    (hrank : Ranked g rank bound) {budget : Nat} :
    ∀ {a : Automaton} {e : SyntaxError}, weight rank bound a < budget →
      run g table line budget a = .error e →
      ∃ b, Gets g table a b ∧ step g table b = .error e := by
  induction budget with
  | zero => intro a e hweight; omega
  | succ budget ih =>
      intro a e hweight h
      cases hstep : step g table a with
      | error e' =>
          rw [run_of_error hstep] at h
          cases h
          exact ⟨a, .refl, hstep⟩
      | ok pair =>
          obtain ⟨action, b⟩ := pair
          by_cases hother : action = .accept
          · subst hother
            rw [run_of_accept hstep] at h
            cases h
          · have hlt := weight_lt hrank (moves_of_step hstep) hother
            rw [run_of_act hother hstep] at h
            cases hlater : run g table line budget b with
            | ok later => rw [hlater] at h; cases h
            | error e' =>
                rw [hlater] at h
                cases h
                obtain ⟨c, hgets, hc⟩ := ih (by omega) hlater
                exact ⟨c, .head ⟨action, hother, hstep⟩ hgets, hc⟩

end Reckon.Automaton
