import Mathlib.Logic.Relation
import Reckon.Proofs.Grammar.Table
import Reckon.Recogniser.Reduction

/-!
# What an automaton can do

An action accepts, shifts or reduces, and whatever is to be known about it is
taken out of its definition here, once: `Moves` has a case for each, with what
the action needs and what it changes. Where there is no action there is an
error, and `Fails` has a case for each of those.

A run does one action after the other and comes to nothing but what they come
to (`run_ok`). What an action is does not depend on more than the stack and the
next entry of the input (`step_congr`), so two runs whose inputs have a common
beginning do the same until it is read (`Gets.twin`).
-/

namespace Reckon

/-- The entry that takes the place of a right-hand side. -/
def Production.entry (p : Production) (base : List Entry) : Entry :=
  let line := (base.head?.map (·.token.line)).getD 0
  ⟨p.lhs, .word (.nonterminal p.lhs.text) line none⟩

/-- The code behind a reduction. -/
def Production.emit (p : Production) (base : List Entry) (code : Program) :
    Program :=
  match p.emission with
  | some emission => emission.emit (base.map Entry.token) code
  | none => code

theorem Grammar.find?_ok {g : Grammar} {rhs : List Symbol} {p : Production}
    (h : g.find? rhs = some p) : p ∈ g.productions ∧ p.rhs = rhs := by
  refine ⟨List.mem_of_find?_eq_some h, ?_⟩
  simpa using List.find?_some h

namespace Automaton

variable {g : Grammar} {table : Precedence} {line : Nat}

/-! ## Actions -/

/-- The actions of the automaton, each with what it needs and what it
changes. -/
inductive Moves (g : Grammar) (table : Precedence) :
    Automaton → Action → Automaton → Prop where
  | accept {top next : Entry} {below rest : List Entry} {code : Program}
      {n : Nat} :
      top.symbol = g.start → next.symbol = .endMark →
      Moves g table ⟨top :: below, next :: rest, code, n⟩ .accept
        ⟨top :: below, next :: rest, code, n⟩
  | shift {top next : Entry} {below rest : List Entry} {code : Program}
      {n : Nat} {relation : Relation} :
      table.get? top.symbol next.symbol = some relation → relation ≠ .more →
      Moves g table ⟨top :: below, next :: rest, code, n⟩ (.shift relation)
        ⟨next :: top :: below, rest, code, n⟩
  | reduce {base below input : List Entry} {code : Program} {n : Nat}
      {p : Production} :
      g.find? p.rhs = some p → base.map Entry.symbol = p.rhs → base ≠ [] →
      (∀ x ∈ below.head?, ∀ y ∈ p.rhs.head?,
        table.get? x.symbol y = some .less) →
      Moves g table ⟨base.reverse ++ below, input, code, n⟩
        (.reduce p.lhs p.rhs)
        ⟨p.entry base :: below, input, p.emit base code, n + 1⟩

theorem splitBase_ok {first : Entry} {above base stack below : List Entry}
    (h : splitBase table first above stack = .ok (base, below)) :
    ∃ ds, stack = ds ++ below ∧ base = ds.reverse ++ first :: above ∧
      ∀ x ∈ below.head?, ∀ y ∈ base.head?,
        table.get? x.symbol y.symbol = some .less := by
  induction stack generalizing first above with
  | nil =>
      rw [splitBase] at h
      injection h with h
      obtain ⟨rfl, rfl⟩ := Prod.mk.inj h
      exact ⟨[], rfl, rfl, fun x hx => by cases hx⟩
  | cons top rest ih =>
      rw [splitBase] at h
      split at h
      · next hless =>
          injection h with h
          obtain ⟨rfl, rfl⟩ := Prod.mk.inj h
          refine ⟨[], rfl, rfl, fun x hx y hy => ?_⟩
          injection hx with hx
          injection hy with hy
          rw [← hx, ← hy]
          exact hless
      · obtain ⟨ds, rfl, rfl, hless⟩ := ih h
        exact ⟨top :: ds, rfl, by simp, hless⟩
      · cases h

theorem reduce_ok {a b : Automaton} {base below : List Entry} {action : Action}
    (h : reduce g a base below = .ok (action, b)) :
    ∃ p, g.find? p.rhs = some p ∧ base.map Entry.symbol = p.rhs ∧
      action = .reduce p.lhs p.rhs ∧
      b = ⟨p.entry base :: below, a.input, p.emit base a.code,
        a.reductions + 1⟩ := by
  rw [reduce] at h
  simp only [] at h
  split at h
  · cases h
  · next p hfind =>
      injection h with h
      obtain ⟨rfl, rfl⟩ := Prod.mk.inj h
      obtain ⟨-, hrhs⟩ := Grammar.find?_ok hfind
      rw [← hrhs] at hfind ⊢
      exact ⟨p, hfind, rfl, rfl, rfl⟩

theorem moves_of_step {a b : Automaton} {action : Action}
    (h : step g table a = .ok (action, b)) : Moves g table a action b := by
  obtain ⟨stack, input, code, n⟩ := a
  cases stack with
  | nil => cases input <;> cases h
  | cons top below =>
      cases input with
      | nil => cases h
      | cons next rest =>
          rw [step] at h
          simp only [] at h
          split at h
          · next haccept =>
              injection h with h
              obtain ⟨rfl, rfl⟩ := Prod.mk.inj h
              exact Moves.accept haccept.1 haccept.2
          · split at h
            · cases h
            · next hmore =>
                cases hsplit : splitBase table top [] below with
                | error e => rw [hsplit] at h; cases h
                | ok pair =>
                    obtain ⟨base, low⟩ := pair
                    rw [hsplit] at h
                    obtain ⟨ds, rfl, rfl, hless⟩ := splitBase_ok hsplit
                    obtain ⟨p, hfind, hrhs, rfl, rfl⟩ := reduce_ok h
                    have hstack : top :: (ds ++ low) =
                        (ds.reverse ++ [top]).reverse ++ low := by simp
                    rw [hstack]
                    refine Moves.reduce hfind hrhs (by simp) ?_
                    intro x hx y hy
                    rw [← hrhs, List.head?_map] at hy
                    obtain ⟨z, hz, rfl⟩ := Option.map_eq_some_iff.mp hy
                    exact hless x hx z hz
            · next relation hrelation hget =>
                injection h with h
                obtain ⟨rfl, rfl⟩ := Prod.mk.inj h
                exact Moves.shift hget fun hmore => hrelation (by rw [← hmore])

section Taken

variable {top next : Entry} {below rest : List Entry} {code : Program} {n : Nat}

theorem step_accept (htop : top.symbol = g.start)
    (hnext : next.symbol = .endMark) :
    step g table ⟨top :: below, next :: rest, code, n⟩ =
      .ok (.accept, ⟨top :: below, next :: rest, code, n⟩) := by
  rw [step]
  simp only [htop, hnext, and_self, if_true]

theorem step_shift {relation : Relation} (hnext : next.symbol ≠ .endMark)
    (hget : table.get? top.symbol next.symbol = some relation)
    (hshift : relation ≠ .more) :
    step g table ⟨top :: below, next :: rest, code, n⟩ =
      .ok (.shift relation, ⟨next :: top :: below, rest, code, n⟩) := by
  rw [step]
  simp only [hnext, and_false, if_false, hget]

variable {base low : List Entry}
  (haccept : ¬(top.symbol = g.start ∧ next.symbol = .endMark))
  (hmore : table.get? top.symbol next.symbol = some .more)
  (hsplit : splitBase table top [] below = .ok (base, low))
include haccept hmore hsplit

theorem step_reduce {p : Production} (hbase : base.map Entry.symbol = p.rhs)
    (hfind : g.find? p.rhs = some p) :
    step g table ⟨top :: below, next :: rest, code, n⟩ =
      .ok (.reduce p.lhs p.rhs,
        ⟨p.entry base :: low, next :: rest, p.emit base code, n + 1⟩) := by
  rw [step]
  simp only [if_neg haccept, hmore, hsplit]
  show reduce g _ base low = _
  rw [reduce]
  simp only [hbase, hfind]
  rfl

theorem step_fail {form : List Symbol} {line : Nat}
    (hbase : base.map Entry.symbol = form)
    (hline : (base.head?.map (·.token.line)).getD 0 = line)
    (hfind : g.find? form = none) :
    step g table ⟨top :: below, next :: rest, code, n⟩ =
      .error (.noProduction form line) := by
  rw [step]
  simp only [if_neg haccept, hmore, hsplit]
  show reduce g _ base low = _
  rw [reduce]
  simp only [hbase, hline, hfind]

end Taken

theorem Moves.reductions_eq {a b : Automaton} {lhs : Symbol}
    {rhs : List Symbol} (h : Moves g table a (.reduce lhs rhs) b) :
    b.reductions = a.reductions + 1 := by
  cases h
  rfl

theorem Moves.input_eq {a b : Automaton} {lhs : Symbol} {rhs : List Symbol}
    (h : Moves g table a (.reduce lhs rhs) b) : b.input = a.input := by
  cases h
  rfl

theorem exists_next {a b : Automaton} {action : Action}
    (h : step g table a = .ok (action, b)) :
    ∃ next rest, a.input = next :: rest := by
  obtain ⟨stack, input, code, n⟩ := a
  cases input with
  | nil => cases stack <;> cases h
  | cons next rest => exact ⟨next, rest, rfl⟩

/-- An action is determined by the stack and the next entry, and reads this
entry or leaves all of the input alone. -/
theorem step_congr {a a' b : Automaton} {action : Action} {next : Entry}
    {rest rest' : List Entry} (h : step g table a = .ok (action, b))
    (hstack : a'.stack = a.stack) (hinput : a.input = next :: rest)
    (hinput' : a'.input = next :: rest') :
    ∃ b', step g table a' = .ok (action, b') ∧ b'.stack = b.stack ∧
      (b.input = rest ∧ b'.input = rest' ∨
        b.input = next :: rest ∧ b'.input = next :: rest') := by
  obtain ⟨stack, input, code, n⟩ := a
  obtain ⟨stack', input', code', n'⟩ := a'
  simp only [] at hstack hinput hinput'
  subst hstack hinput hinput'
  cases stack' with
  | nil => cases h
  | cons top below =>
      rw [step] at h ⊢
      simp only [] at h ⊢
      split at h
      · next haccept =>
          injection h with h
          obtain ⟨rfl, rfl⟩ := Prod.mk.inj h
          exact ⟨_, if_pos haccept, rfl, .inr ⟨rfl, rfl⟩⟩
      · next haccept =>
          rw [if_neg haccept]
          split at h
          · cases h
          · next hmore =>
              cases hsplit : splitBase table top [] below with
              | error e => rw [hsplit] at h; cases h
              | ok pair =>
                  obtain ⟨base, low⟩ := pair
                  rw [hsplit] at h
                  obtain ⟨p, hfind, hrhs, rfl, rfl⟩ := reduce_ok h
                  refine ⟨⟨p.entry base :: low, next :: rest',
                    p.emit base code', n' + 1⟩, ?_, rfl, .inr ⟨rfl, rfl⟩⟩
                  show reduce g _ base low = _
                  rw [reduce]
                  simp only [hrhs, hfind]
                  rfl
          · next relation hrelation hget =>
              injection h with h
              obtain ⟨rfl, rfl⟩ := Prod.mk.inj h
              exact ⟨_, rfl, rfl, .inl ⟨rfl, rfl⟩⟩

/-! ## Errors -/

/-- The first entry is in a relation to the second, and does not come less. -/
def Continues (table : Precedence) : List Entry → Prop
  | x :: y :: _ =>
      ∃ relation, table.get? x.symbol y.symbol = some relation ∧
        relation ≠ .less
  | _ => False

/-- What is in the way of an action: the next symbol, two symbols on the stack,
or a base that is no right-hand side. -/
inductive Fails (g : Grammar) (table : Precedence) :
    Automaton → SyntaxError → Prop where
  | exhausted {a : Automaton} {e : SyntaxError} :
      a.stack = [] ∨ a.input = [] → Fails g table a e
  | next {top next : Entry} {below rest : List Entry} {code : Program}
      {n : Nat} : table.get? top.symbol next.symbol = none →
      Fails g table ⟨top :: below, next :: rest, code, n⟩
        (.noRelation top.symbol next.symbol next.token.line)
  | neighbour {x y : Entry} {above below input : List Entry} {code : Program}
      {n : Nat} :
      table.get? x.symbol y.symbol = none →
      Fails g table ⟨above ++ y :: x :: below, input, code, n⟩
        (.noRelation x.symbol y.symbol y.token.line)
  | base {first : Entry} {others below input : List Entry} {code : Program}
      {n : Nat} :
      g.find? ((first :: others).map Entry.symbol) = none →
      Continues table (first :: others ++ input) →
      Fails g table ⟨(first :: others).reverse ++ below, input, code, n⟩
        (.noProduction ((first :: others).map Entry.symbol) first.token.line)

theorem splitBase_error {first : Entry} {above stack : List Entry}
    {e : SyntaxError} (h : splitBase table first above stack = .error e) :
    ∃ ds x y below, first :: stack = ds ++ y :: x :: below ∧
      table.get? x.symbol y.symbol = none ∧
      e = .noRelation x.symbol y.symbol y.token.line := by
  induction stack generalizing first above with
  | nil =>
      rw [splitBase] at h
      cases h
  | cons top rest ih =>
      rw [splitBase] at h
      split at h
      · cases h
      · obtain ⟨ds, x, y, below, hstack, hnone, he⟩ := ih h
        exact ⟨first :: ds, x, y, below, by rw [hstack]; rfl, hnone, he⟩
      · next hnone =>
          injection h with h
          exact ⟨[], top, first, rest, rfl, hnone, h.symm⟩

/-- The base continues to what is behind it, if only the top of the stack
does. -/
theorem splitBase_continues {first : Entry}
    {above base stack below input : List Entry}
    (h : splitBase table first above stack = .ok (base, below))
    (hfirst : Continues table (first :: above ++ input)) :
    Continues table (base ++ input) := by
  induction stack generalizing first above with
  | nil =>
      rw [splitBase] at h
      injection h with h
      obtain ⟨rfl, rfl⟩ := Prod.mk.inj h
      exact hfirst
  | cons top rest ih =>
      rw [splitBase] at h
      split at h
      · injection h with h
        obtain ⟨rfl, rfl⟩ := Prod.mk.inj h
        exact hfirst
      · next relation hless hget =>
          exact ih h ⟨relation, hget, fun he => hless (by rw [← he])⟩
      · cases h

theorem fails_of_step {a : Automaton} {e : SyntaxError}
    (h : step g table a = .error e) : Fails g table a e := by
  obtain ⟨stack, input, code, n⟩ := a
  cases stack with
  | nil => exact .exhausted (.inl rfl)
  | cons top below =>
      cases input with
      | nil => exact .exhausted (.inr rfl)
      | cons next rest =>
          rw [step] at h
          simp only [] at h
          split at h
          · cases h
          · split at h
            · next hnone =>
                injection h with h
                subst h
                exact .next hnone
            · next hmore =>
                cases hsplit : splitBase table top [] below with
                | error e' =>
                    rw [hsplit] at h
                    cases h
                    obtain ⟨ds, x, y, low, hstack, hnone, rfl⟩ :=
                      splitBase_error hsplit
                    rw [hstack]
                    exact .neighbour hnone
                | ok pair =>
                    obtain ⟨base, low⟩ := pair
                    rw [hsplit] at h
                    have hcontinues : Continues table (base ++ next :: rest) :=
                      splitBase_continues hsplit ⟨_, hmore, nofun⟩
                    obtain ⟨ds, rfl, hbase, -⟩ := splitBase_ok hsplit
                    have hstack : top :: (ds ++ low) = base.reverse ++ low := by
                      rw [hbase]
                      simp
                    rw [hstack]
                    cases base with
                    | nil => simp at hbase
                    | cons first others =>
                        change reduce g _ (first :: others) low = _ at h
                        rw [reduce] at h
                        simp only [] at h
                        split at h
                        · next hnone =>
                            injection h with h
                            subst h
                            exact .base hnone hcontinues
                        · cases h
            · cases h

/-! ## Runs -/

/-- The automaton gets from one state to another, and accepts in none before. -/
def Gets (g : Grammar) (table : Precedence) : Automaton → Automaton → Prop :=
  Relation.ReflTransGen fun a b =>
    ∃ action, action ≠ .accept ∧ step g table a = .ok (action, b)

variable {a b : Automaton} {action : Action} {budget : Nat} {parsed : Parsed}

theorem Gets.shift {top next : Entry} {below rest : List Entry} {code : Program}
    {n : Nat} {relation : Relation}
    (h : Gets g table a ⟨top :: below, next :: rest, code, n⟩)
    (hnext : next.symbol ≠ .endMark)
    (hget : table.get? top.symbol next.symbol = some relation)
    (hshift : relation ≠ .more) :
    Gets g table a ⟨next :: top :: below, rest, code, n⟩ :=
  h.tail ⟨.shift relation, nofun, step_shift hnext hget hshift⟩

theorem Gets.reduce {top next : Entry} {below rest base low : List Entry}
    {code : Program} {n : Nat} {p : Production}
    (h : Gets g table a ⟨top :: below, next :: rest, code, n⟩)
    (haccept : ¬(top.symbol = g.start ∧ next.symbol = .endMark))
    (hmore : table.get? top.symbol next.symbol = some .more)
    (hsplit : splitBase table top [] below = .ok (base, low))
    (hbase : base.map Entry.symbol = p.rhs) (hfind : g.find? p.rhs = some p) :
    Gets g table a ⟨p.entry base :: low, next :: rest,
      p.emit base code, n + 1⟩ :=
  h.tail ⟨.reduce p.lhs p.rhs, nofun,
    step_reduce haccept hmore hsplit hbase hfind⟩

theorem run_of_accept (h : step g table a = .ok (.accept, b)) :
    run g table line (budget + 1) a =
      .ok ⟨b.code, b.reductions, [recorded a .accept b]⟩ := by
  rw [run, h]
  rfl

theorem run_of_act (hother : action ≠ .accept)
    (h : step g table a = .ok (action, b)) :
    run g table line (budget + 1) a =
      (run g table line budget b).map fun later =>
        { later with steps := recorded a action b :: later.steps } := by
  rw [run, h]
  cases action with
  | accept => exact absurd rfl hother
  | shift relation | reduce lhs base =>
      cases hlater : run g table line budget b with
      | error e => simp only [bind, Except.bind, hlater, Except.map]
      | ok later =>
          simp only [bind, Except.bind, hlater, Except.map]
          rfl

theorem run_of_error {e : SyntaxError} (h : step g table a = .error e) :
    run g table line (budget + 1) a = .error e := by
  rw [run, h]
  rfl

/-- A run is one action and, unless it accepts, a run behind it. -/
theorem run_ok (h : run g table line (budget + 1) a = .ok parsed) :
    (∃ b, step g table a = .ok (.accept, b) ∧
      parsed = ⟨b.code, b.reductions, [recorded a .accept b]⟩) ∨
    ∃ action b later, step g table a = .ok (action, b) ∧ action ≠ .accept ∧
      run g table line budget b = .ok later ∧
      parsed = { later with steps := recorded a action b :: later.steps } := by
  cases hstep : step g table a with
  | error e => rw [run_of_error hstep] at h; cases h
  | ok pair =>
      obtain ⟨action, b⟩ := pair
      by_cases hother : action = .accept
      · subst hother
        rw [run_of_accept hstep] at h
        exact .inl ⟨b, rfl, (Except.ok.inj h).symm⟩
      · rw [run_of_act hother hstep] at h
        cases hlater : run g table line budget b with
        | error e => rw [hlater] at h; cases h
        | ok later =>
            rw [hlater] at h
            exact .inr ⟨action, b, later, rfl, hother, hlater,
              (Except.ok.inj h).symm⟩

/-- There is one error that a run can come to. -/
theorem Gets.error_unique {c : Automaton} {e e' : SyntaxError}
    (h : Gets g table a b) (h' : Gets g table a c)
    (hb : step g table b = .error e) (hc : step g table c = .error e') :
    e = e' := by
  induction h using Relation.ReflTransGen.head_induction_on with
  | refl =>
      rcases h'.cases_head with rfl | ⟨_, ⟨action, -, hstep⟩, -⟩
      · exact Except.error.inj (hb.symm.trans hc)
      · rw [hb] at hstep
        cases hstep
  | head hfirst _ ih =>
      obtain ⟨action, -, hstep⟩ := hfirst
      rcases h'.cases_head with rfl | ⟨_, ⟨action', -, hstep'⟩, hrest⟩
      · rw [hc] at hstep
        cases hstep
      · obtain ⟨-, rfl⟩ := Prod.mk.inj (Except.ok.inj (hstep.symm.trans hstep'))
        exact ih hrest

/-- A run that accepts comes to no place where there is no action. -/
theorem Gets.exists_step (h : Gets g table a b)
    (hrun : run g table line budget a = .ok parsed) :
    ∃ action c, step g table b = .ok (action, c) := by
  induction h using Relation.ReflTransGen.head_induction_on
    generalizing budget parsed with
  | refl =>
      cases budget with
      | zero => cases hrun
      | succ budget =>
          rcases run_ok hrun with ⟨c, hstep, -⟩ | ⟨action, c, -, hstep, -⟩
          · exact ⟨.accept, c, hstep⟩
          · exact ⟨action, c, hstep⟩
  | head hfirst _ ih =>
      obtain ⟨action, hother, hstep⟩ := hfirst
      cases budget with
      | zero => cases hrun
      | succ budget =>
          rw [run_of_act hother hstep] at hrun
          cases hlater : run g table line budget _ with
          | error e => rw [hlater] at hrun; cases hrun
          | ok later => exact ih hlater

/-- Another input with the same beginning makes no difference, as long as some
of the beginning is left to be read. -/
theorem Gets.twin {stack front back back' : List Entry} {code code' : Program}
    {n n' : Nat} (h : Gets g table ⟨stack, front ++ back, code, n⟩ b)
    (hleft : back.length < b.input.length) :
    ∃ b' next rest, Gets g table ⟨stack, front ++ back', code', n'⟩ b' ∧
      b'.stack = b.stack ∧ b.input = next :: (rest ++ back) ∧
      b'.input = next :: (rest ++ back') := by
  induction h with
  | refl =>
      cases front with
      | nil => exact absurd hleft (Nat.lt_irrefl _)
      | cons next rest => exact ⟨_, next, rest, .refl, rfl, rfl, rfl⟩
  | @tail b c _ hlast ih =>
      obtain ⟨action, hother, hstep⟩ := hlast
      have hle : c.input.length ≤ b.input.length := by
        cases moves_of_step hstep with
        | accept | reduce => exact Nat.le_refl _
        | shift => exact Nat.le_succ _
      obtain ⟨b', next, rest, hgets, hstack, hinput, hinput'⟩ := ih (by omega)
      obtain ⟨c', hstep', hstack, hsame⟩ :=
        step_congr hstep hstack hinput hinput'
      refine ⟨c', ?_⟩
      rcases hsame with ⟨hc, hc'⟩ | ⟨hc, hc'⟩
      · cases rest with
        | nil =>
            rw [hc] at hleft
            exact absurd hleft (Nat.lt_irrefl _)
        | cons next' rest =>
            exact ⟨next', rest, hgets.tail ⟨action, hother, hstep'⟩,
              hstack, hc, hc'⟩
      · exact ⟨next, rest, hgets.tail ⟨action, hother, hstep'⟩, hstack, hc, hc'⟩

end Automaton

end Reckon
