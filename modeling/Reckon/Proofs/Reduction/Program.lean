import Reckon.Proofs.Grammar.Weights
import Reckon.Proofs.Reduction.Start

/-!
# Reduction decides what a program is

The two halves of the reduction proof, applied to the grammar of the language.
What they ask of a grammar is a matter of looking at its productions, except
for two things that the weights of its symbols answer: nothing but the end mark
comes less than the header of a program, because nothing else weighs nothing,
and a reduction of a single symbol always leads to one that weighs less.

`parse_ok_iff` is the fact that everything else builds on: tokens are accepted
if and only if each has a terminal and the terminals can be derived from the
start symbol.
-/

namespace Reckon.Language

open Grammar (Sentence)

/-! ## The productions, looked at -/

theorem rhs_ne_nil : ∀ p ∈ grammar.productions, p.rhs ≠ [] := by
  decide +kernel

theorem lhs_isNonterminal :
    ∀ p ∈ grammar.productions, p.lhs.isNonterminal = true := by
  decide +kernel

theorem start_not_mem_occurrences : grammar.start ∉ grammar.occurrences := by
  decide +kernel

theorem rhs_nodup : (grammar.productions.map Production.rhs).Nodup := by
  decide +kernel

theorem head_of_start : ∀ p ∈ grammar.productions, p.lhs = grammar.start →
    p.rhs.head? = some programName := by
  decide +kernel

/-! ## The weights, used -/

theorem leftWeight_pos {s : Symbol} (h : s ≠ .endMark) : 0 < leftWeight s := by
  cases s with
  | endMark => exact absurd rfl h
  | identifier | constant | label => exact Nat.succ_pos _
  | keyword text =>
      unfold leftWeight
      simp only []
      repeat' split
      all_goals exact Nat.succ_pos _
  | nonterminal name =>
      unfold leftWeight
      simp only []
      repeat' split
      all_goals exact Nat.succ_pos _

theorem leftWeight_le (s : Symbol) : leftWeight s ≤ 7 := by
  unfold leftWeight
  repeat' split
  all_goals decide

theorem rightWeight_le (s : Symbol) : rightWeight s ≤ 7 := by
  unfold rightWeight
  repeat' split
  all_goals decide

/-- Nothing but the end mark comes less than the header of a program. -/
theorem eq_endMark_of_less {table : Precedence} {x : Symbol}
    (hbuilt : precedence = .ok table)
    (h : table.get? x programName = some .less) : x = .endMark := by
  have hweight := requirements_by_weight _
    ((Precedence.get?_eq_some_iff hbuilt).mp h)
  have hprogram : rightWeight programName = 1 := by decide +kernel
  refine Decidable.byContradiction fun hx => ?_
  have hpos := leftWeight_pos hx
  simp only [relationByWeight, hprogram] at hweight
  rw [if_neg (by omega)] at hweight
  split at hweight <;> cases hweight

theorem weights_climb : ∀ p ∈ grammar.productions, ∀ s ∈ p.rhs,
    p.rhs.length = 1 → leftWeight p.lhs + rightWeight p.lhs <
      leftWeight s + rightWeight s := by
  decide +kernel

theorem ranked :
    Automaton.Ranked grammar (fun s => leftWeight s + rightWeight s) 14 where
  bounded s := by
    have := leftWeight_le s
    have := rightWeight_le s
    omega
  climbs s p hfind hrhs :=
    weights_climb p (Grammar.find?_ok hfind).1 s (by rw [hrhs]; simp)
      (by rw [hrhs]; rfl)

theorem fit {table : Precedence} (hbuilt : precedence = .ok table) :
    grammar.Fit table where
  built := hbuilt
  full := rhs_ne_nil
  nonterminal := lhs_isNonterminal
  unstarted := start_not_mem_occurrences
  distinct := rhs_nodup

theorem outermost {table : Precedence} (hbuilt : precedence = .ok table) :
    Automaton.Outermost grammar table where
  built := hbuilt
  nonterminal := lhs_isNonterminal
  start := rfl
  absent := start_not_mem_occurrences
  first p hp hlhs x y hy hless := by
    rw [head_of_start p hp hlhs] at hy
    injection hy with hy
    rw [← hy] at hless
    exact eq_endMark_of_less hbuilt hless

end Reckon.Language

namespace Reckon

open Grammar (Sentence RightmostBy)

/-! ## What is accepted -/

namespace Language

variable {tokens : List Token} {w : List Symbol}

theorem parse_eq_ok_iff {parsed : Parsed} : parse tokens = .ok parsed ↔
    ∃ table, precedence = .ok table ∧
      Automaton.parse grammar table tokens = .ok parsed :=
  Grammar.parse_eq_ok_iff

/-- The grammar of the language has a table, so errors are those of the
automaton. -/
theorem parse_eq_error_iff {table : Precedence}
    (hbuilt : precedence = .ok table) {e : ParseError} :
    parse tokens = .error e ↔
      ∃ cause, Automaton.parse grammar table tokens = .error cause ∧
        .illFormed cause = e := by
  rw [← mapError_eq_error_iff, ← Grammar.parse_of_built hbuilt]
  rfl

/-- What is accepted has terminals, and the reductions read backwards derive
them. -/
theorem rightmost_of_parse {parsed : Parsed} (h : parse tokens = .ok parsed) :
    ∃ w, grammar.Classes tokens w ∧
      RightmostBy grammar parsed.reduced.reverse [program] w ∧
      parsed.reductions = parsed.reduced.length := by
  obtain ⟨table, hbuilt, hparse⟩ := parse_eq_ok_iff.mp h
  obtain ⟨before, w, hw, hright, hcount, hempty⟩ :=
    Automaton.rightmost_of_parse hbuilt nofun hparse
  rw [hempty (outermost hbuilt)] at hright
  exact ⟨w, hw, hright, hcount⟩

/-- Entries that are reduced to a right-hand side of the start symbol are
accepted with the code that was put out for them. -/
theorem parse_of_builds {es base : List Entry} {p : Production}
    {after : Program} (hes : Automaton.classifyAll grammar tokens = .ok es)
    (hp : p ∈ grammar.productions) (hstart : p.lhs = grammar.start)
    (hrhs : base.map Entry.symbol = p.rhs)
    (hbuilds : grammar.Builds base es {} after) :
    ∃ parsed, parse tokens = .ok parsed ∧ parsed.code = p.emit base after := by
  obtain ⟨table, hbuilt⟩ := exists_precedence
  have haccepts : Automaton.Accepts grammar table (Token.lastLine tokens)
      (· = p.emit base after) (Automaton.opening es (Token.lastLine tokens)) :=
    Automaton.outputs_of_start_builds (fit hbuilt) hp hstart hrhs hbuilds 0 _
  obtain ⟨parsed, hparsed, hcode⟩ := Automaton.parse_of_accepts hes haccepts
  exact ⟨parsed, parse_eq_ok_iff.mpr ⟨table, hbuilt, hparsed⟩, hcode⟩

/-- Tokens are accepted if and only if their terminals are derived from the
start symbol. -/
theorem parse_ok_iff :
    (∃ parsed, parse tokens = .ok parsed) ↔
      ∃ w, grammar.Classes tokens w ∧ grammar.Derives [program] w := by
  constructor
  · rintro ⟨parsed, h⟩
    obtain ⟨w, hw, hright, -⟩ := rightmost_of_parse h
    exact ⟨w, hw, hright.derives⟩
  · rintro ⟨w, hw, hderives⟩
    obtain ⟨es, hes, hsymbols, -⟩ := Automaton.classifyAll_of_classes hw
    have hgen := (Grammar.derives_iff_generates hw.sentence).mp hderives
    obtain ⟨p, hp, hstart, hrhs⟩ :=
      (Grammar.generates_singleton_iff rfl).mp hgen
    obtain ⟨base, after, hbase, hbuilds⟩ :=
      Grammar.exists_builds hrhs {} hsymbols
    obtain ⟨parsed, hparsed, -⟩ := parse_of_builds hes hp hstart hbase hbuilds
    exact ⟨parsed, hparsed⟩

/-- Reduction accepts exactly the programs, and what it has done then is a
rightmost derivation read backwards. -/
theorem parse_decides (tokens : List Token) :
    match parse tokens with
    | .ok parsed => ∃ w, grammar.Classes tokens w ∧
        grammar.Derives [program] w ∧
        RightmostBy grammar parsed.reduced.reverse [program] w ∧
        parsed.reductions = parsed.reduced.length
    | .error _ =>
        ¬ ∃ w, grammar.Classes tokens w ∧ grammar.Derives [program] w := by
  split
  · next parsed h =>
      obtain ⟨w, hw, hright, hcount⟩ := rightmost_of_parse h
      exact ⟨w, hw, hright.derives, hright, hcount⟩
  · next e h =>
      intro hprogram
      obtain ⟨parsed, hparsed⟩ := parse_ok_iff.mpr hprogram
      rw [h] at hparsed
      cases hparsed

end Language

end Reckon
