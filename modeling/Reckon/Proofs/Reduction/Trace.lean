import Reckon.Proofs.Compile.Total
import Reckon.Proofs.Reduction.Place

/-!
# What the record of a run shows

Each action is recorded once, with the input that was ahead of it, so the record
has the actions of the run in their order and ends with the acceptance. The
stack is a different matter: a shift shows it as it was before, a reduction as
it is after. No more than that is lost. A reduction names its base, so it can be
undone, and from the record alone one knows the stacks on both sides of every
action. Each action begins with the stack that the one before it has left, and
the first with the end mark.

`Records` says which automata a record belongs to, one more than
there are steps, and `Displays` what one step says of the two
automata that it lies between.
-/

namespace Reckon

/-- Whether the action is a reduction. -/
def Action.isReduction : Action → Bool
  | reduce _ _ => true
  | _ => false

namespace TraceStep

/-- The stack that the action was applied to. A reduction is recorded with the
stack that it leaves, so it is undone here. -/
def stackBefore (s : TraceStep) : List Symbol :=
  match s.action with
  | .reduce _ base => s.stack.dropLast ++ base
  | _ => s.stack

/-- The stack that the action leaves. A shift is recorded with the stack that it
is applied to, so it is done here. -/
def stackAfter (s : TraceStep) : List Symbol :=
  match s.action with
  | .shift _ => s.stack ++ s.input.take 1
  | _ => s.stack

end TraceStep

namespace Automaton

variable {g : Grammar} {table : Precedence} {line : Nat} {a b c : Automaton}
  {action : Action}

/-- The symbols on the stack, the bottom first. -/
def symbols (a : Automaton) : List Symbol := (a.stack.map Entry.symbol).reverse

/-! ## One step -/

/-- What a recorded step says of the automata before and after its action. -/
structure Displays (a b : Automaton) (s : TraceStep) : Prop where
  input : s.input = (a.input.take 6).map Entry.symbol
  stack : s.stack = if s.action.isReduction then b.symbols else a.symbols
  before : s.stackBefore = a.symbols
  after : s.stackAfter = b.symbols

theorem Moves.displays (h : Moves g table a action b) :
    Displays a b (recorded a action b) := by
  cases h with
  | accept htop hnext => exact ⟨rfl, rfl, rfl, rfl⟩
  | shift hget hrelation =>
      refine ⟨rfl, rfl, rfl, ?_⟩
      simp [TraceStep.stackAfter, recorded, symbols]
  | @reduce base below input code n p hfind hbase hfull hless =>
      have hbefore :
          (⟨base.reverse ++ below, input, code, n⟩ : Automaton).symbols =
            (below.map Entry.symbol).reverse ++ p.rhs := by
        rw [← hbase]
        simp [symbols]
      have hafter :
          symbols ⟨p.entry base :: below, input, p.emit base code, n + 1⟩ =
            (below.map Entry.symbol).reverse ++ [p.lhs] := by
        simp [symbols, Production.entry]
      refine ⟨rfl, rfl, ?_, rfl⟩
      show (symbols ⟨p.entry base :: below, input, p.emit base code,
          n + 1⟩).dropLast ++ p.rhs = _
      rw [hafter, hbefore, List.dropLast_concat]

/-! ## The steps of a run -/

/-- The steps are the records of the actions that lead from each of the automata
to the next one, and the last of these actions accepts. -/
inductive Records (g : Grammar) (table : Precedence) :
    List Automaton → List TraceStep → Prop where
  | accept {a b : Automaton} : step g table a = .ok (.accept, b) →
      Records g table [a, b] [recorded a .accept b]
  | act {action : Action} {a b : Automaton} {states : List Automaton}
      {steps : List TraceStep} :
      step g table a = .ok (action, b) → action ≠ .accept →
      Records g table (b :: states) steps →
      Records g table (a :: b :: states) (recorded a action b :: steps)

theorem run_records {budget : Nat} : ∀ {a : Automaton} {parsed : Parsed},
    run g table line budget a = .ok parsed →
    ∃ states, Records g table (a :: states) parsed.steps := by
  induction budget with
  | zero => intro a parsed h; cases h
  | succ budget ih =>
      intro a parsed h
      rcases run_ok h with
        ⟨b, hstep, rfl⟩ | ⟨action, b, later, hstep, hother, hlater, rfl⟩
      · exact ⟨[b], .accept hstep⟩
      · obtain ⟨states, hstates⟩ := ih hlater
        exact ⟨b :: states, .act hstep hother hstates⟩

namespace Records

variable {states : List Automaton} {steps : List TraceStep}

theorem length_eq (h : Records g table states steps) :
    states.length = steps.length + 1 := by
  induction h with
  | accept => rfl
  | act _ _ _ ih => exact congrArg (· + 1) ih

/-- Each step lies between two neighbouring automata. -/
theorem displays (h : Records g table states steps) :
    ∀ {i : Nat} {s : TraceStep}, steps[i]? = some s →
      ∃ a b, states[i]? = some a ∧ states[i + 1]? = some b ∧
      step g table a = .ok (s.action, b) ∧ Displays a b s := by
  induction h with
  | @accept a b hstep =>
      intro i s hs
      cases i with
      | zero =>
          obtain rfl := Option.some.inj hs
          exact ⟨a, b, rfl, rfl, hstep, (moves_of_step hstep).displays⟩
      | succ i => cases hs
  | @act action a b states steps hstep hother _ ih =>
      intro i s hs
      cases i with
      | zero =>
          obtain rfl := Option.some.inj hs
          exact ⟨a, b, rfl, rfl, hstep, (moves_of_step hstep).displays⟩
      | succ i => exact ih hs

/-- Acceptance is recorded at the end and nowhere else. -/
theorem exists_last (h : Records g table states steps) :
    ∃ front last, steps = front ++ [last] ∧ last.action = .accept ∧
      ∀ s ∈ front, s.action ≠ .accept := by
  induction h with
  | accept hstep => exact ⟨[], _, rfl, rfl, nofun⟩
  | act hstep hother _ ih =>
      obtain ⟨front, last, hsteps, hlast, hfront⟩ := ih
      exact ⟨_ :: front, last, by rw [hsteps]; rfl, hlast,
        List.forall_mem_cons.mpr ⟨hother, hfront⟩⟩

/-- The stack that an action leaves is the one that the next action is applied
to. -/
theorem follows (h : Records g table states steps) {i : Nat} {s t : TraceStep}
    (hs : steps[i]? = some s) (ht : steps[i + 1]? = some t) :
    s.stackAfter = t.stackBefore := by
  obtain ⟨a, b, -, hb, -, hdisplays⟩ := h.displays hs
  obtain ⟨b', c, hb', -, -, hdisplays'⟩ := h.displays ht
  obtain rfl := Option.some.inj (hb.symm.trans hb')
  rw [hdisplays.after, hdisplays'.before]

/-- What the first step is, if the first action is known. -/
theorem head (h : Records g table (a :: states) steps)
    (hstep : step g table a = .ok (action, b)) (hother : action ≠ .accept) :
    ∃ later states', steps = recorded a action b :: later ∧
      Records g table (b :: states') later := by
  cases h with
  | accept haccept =>
      rw [hstep] at haccept
      cases haccept
      exact absurd rfl hother
  | act hact _ hlater =>
      rw [hstep] at hact
      cases hact
      exact ⟨_, _, rfl, hlater⟩

end Records

/-- The end mark alone is not reduced, so the first step shows it. -/
theorem isReduction_of_opening (hbuilt : Precedence.ofGrammar g = .ok table)
    {es : List Entry} (h : Moves g table (opening es line) action b) :
    action.isReduction = false := by
  generalize ha : opening es line = a at h
  cases h with
  | accept | shift => rfl
  | @reduce base below input code n p hfind hbase hfull hless =>
      exfalso
      have hstack : base.reverse ++ below = [endEntry 0] :=
        (congrArg Automaton.stack ha).symm
      have hmem : endEntry 0 ∈ base := by
        obtain ⟨e, he⟩ := List.exists_mem_of_ne_nil base hfull
        have : e ∈ [endEntry 0] :=
          hstack ▸ List.mem_append_left _ (List.mem_reverse.mpr he)
        exact List.mem_singleton.mp this ▸ he
      have hmark : Symbol.endMark ∈ p.rhs := hbase ▸ List.mem_map_of_mem hmem
      exact Grammar.endMark_not_mem_occurrences hbuilt
        (List.mem_flatMap.mpr ⟨p, (Grammar.find?_ok hfind).1, hmark⟩)

/-- The record of an accepting run replays it. There is one more automaton than
there are steps; each action leads from one to the next, and its step shows what
was ahead of it and the stack before it or, if it is a reduction, behind it. In
either case the record determines both stacks: the first is the end mark, and
each action begins with what the one before it has left. The last step and no
other accepts. -/
theorem parse_records {tokens : List Token} {parsed : Parsed}
    (h : g.parse tokens = .ok parsed) :
    ∃ (table : Precedence) (states : List Automaton) (a : Automaton),
      Precedence.ofGrammar g = .ok table ∧ start g tokens = .ok a ∧
      states.head? = some a ∧ states.length = parsed.steps.length + 1 ∧
      (∀ i s, parsed.steps[i]? = some s →
        ∃ b c, states[i]? = some b ∧ states[i + 1]? = some c ∧
          step g table b = .ok (s.action, c) ∧ Displays b c s) ∧
      parsed.steps.head?.map TraceStep.stack = some [.endMark] ∧
      (∀ i s t, parsed.steps[i]? = some s → parsed.steps[i + 1]? = some t →
        s.stackAfter = t.stackBefore) ∧
      ∃ front last, parsed.steps = front ++ [last] ∧ last.action = .accept ∧
        ∀ s ∈ front, s.action ≠ .accept := by
  obtain ⟨table, hbuilt, hparse⟩ := Grammar.parse_eq_ok_iff.mp h
  cases hes : classifyAll g tokens with
  | error e =>
      rw [parse_of_classifyAll_error hes] at hparse
      cases hparse
  | ok es =>
      rw [parse_of_classifyAll hes] at hparse
      obtain ⟨states, hrecords⟩ := run_records hparse
      have hstart :
          start g tokens = .ok (opening es (Token.lastLine tokens)) := by
        rw [start, hes]
        rfl
      have hfirst :
          parsed.steps.head?.map TraceStep.stack = some [.endMark] := by
        obtain ⟨front, last, hsteps, -⟩ := hrecords.exists_last
        obtain ⟨s, hs⟩ : ∃ s, parsed.steps[0]? = some s := by
          rw [hsteps]
          cases front with
          | nil => exact ⟨_, rfl⟩
          | cons s front => exact ⟨s, rfl⟩
        obtain ⟨b, c, hb, -, hstep, hdisplays⟩ := hrecords.displays hs
        obtain rfl := Option.some.inj hb
        rw [List.head?_eq_getElem?, hs, Option.map_some, hdisplays.stack,
          isReduction_of_opening hbuilt (moves_of_step hstep)]
        rfl
      exact ⟨table, _, _, hbuilt, hstart, rfl, hrecords.length_eq,
        fun i s hs => hrecords.displays hs, hfirst,
        fun i s t hs ht => hrecords.follows hs ht, hrecords.exists_last⟩

end Automaton

namespace Language

open Automaton Reckon.Symbol

/-- The record of the program that counts to three begins with the end mark and
ends with the acceptance. -/
theorem counting_records :
    ∃ parsed, grammar.parse counting.tokens = .ok parsed ∧
    parsed.steps.head?.map TraceStep.stack = some [.endMark] ∧
    (∀ i s t, parsed.steps[i]? = some s → parsed.steps[i + 1]? = some t →
      s.stackAfter = t.stackBefore) ∧
    ∃ front last, parsed.steps = front ++ [last] ∧ last.action = .accept ∧
      ∀ s ∈ front, s.action ≠ .accept := by
  obtain ⟨parsed, hparsed⟩ := counting.exists_parsed
  obtain ⟨-, -, -, -, -, -, -, -, hfirst, hfollows, hlast⟩ :=
    parse_records hparsed
  exact ⟨parsed, hparsed, hfirst, hfollows, hlast⟩

/-- The first three entries of the program that counts to three. -/
def countingHeader : List Entry :=
  [⟨keyword "program", .word (.keyword "program") 1 none⟩,
    ⟨identifier, .word (.identifier "p") 1 none⟩,
    ⟨newLine, .word (.keyword lineBreak) 1 none⟩]

/-- The name of the program is shifted onto `program`, and the step behind that,
the reduction of the two, does not show them on the stack any more. -/
theorem counting_reduction_shown_late : ∃ parsed s t,
    parse counting.tokens = .ok parsed ∧
      parsed.steps[1]? = some s ∧ parsed.steps[2]? = some t ∧
      s.action = .shift .equal ∧ s.stack = [.endMark, keyword "program"] ∧
      s.input.head? = some identifier ∧
      t.action = .reduce programName [keyword "program", identifier] ∧
      t.stack = [.endMark, programName] := by
  obtain ⟨parsed, hparsed⟩ := counting.exists_parsed
  obtain ⟨table, hbuilt, hparse⟩ := parse_eq_ok_iff.mp hparsed
  have hprogram : table.get? .endMark (keyword "program") = some .less :=
    (fit hbuilt).get?_of_required
      (Grammar.endMark_less_required (by decide +kernel))
  have hnamed : table.get? (keyword "program") identifier = some .equal :=
    (fit hbuilt).get?_of_required (Grammar.equal_required (by decide +kernel))
  have hname : table.get? identifier newLine = some .more :=
    (fit hbuilt).get?_of_required (Grammar.more_required (l := programName)
      (by decide +kernel) rfl rfl (by decide +kernel))
  let header : Production :=
    ⟨programName, [keyword "program", identifier], none⟩
  have hfind : grammar.find? header.rhs = some header :=
    (fit hbuilt).find?_rhs (by decide +kernel)
  have hheader : (classifyAll grammar counting.tokens).toOption.map
      (List.take 3) = some countingHeader := by
    decide +kernel
  cases hes : classifyAll grammar counting.tokens with
  | error e =>
      rw [hes] at hheader
      cases hheader
  | ok es =>
      rw [hes] at hheader
      have hentries : es = countingHeader ++ es.drop 3 := by
        rw [← Option.some.inj hheader, List.take_append_drop]
      rw [parse_of_classifyAll hes, hentries] at hparse
      obtain ⟨states, hrecords⟩ := run_records hparse
      obtain ⟨later, states, hsteps, hread⟩ :=
        hrecords.head (step_shift (by decide) hprogram (by decide)) (by simp)
      obtain ⟨later, states, rfl, htwice⟩ :=
        hread.head (step_shift (by decide) hnamed (by decide)) (by simp)
      have hsplit :
          splitBase table ⟨identifier, .word (.identifier "p") 1 none⟩ []
            [⟨keyword "program", .word (.keyword "program") 1 none⟩,
              endEntry 0] =
            .ok (countingHeader.take 2, [endEntry 0]) := by
        simp only [splitBase, endEntry, hnamed, hprogram]
        rfl
      obtain ⟨later, states, rfl, -⟩ :=
        htwice.head (step_reduce (by decide) hname hsplit rfl hfind) (by simp)
      exact ⟨parsed, _, _,
        hparsed, by rw [hsteps]; rfl, by rw [hsteps]; rfl, rfl, rfl, rfl,
        rfl, rfl⟩

end Language

end Reckon
