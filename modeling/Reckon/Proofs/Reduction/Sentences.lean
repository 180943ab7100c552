import Reckon.Proofs.Reduction.Start

/-!
# What reduction by any grammar accepts

A grammar can be given by whoever uses the reduction, so the question is what a
table promises by itself. It promises that no sentence is missed, if no
right-hand side is empty and none belongs to two productions. Nothing is asked
about what can be derived from what: the budget covers circles too.

It does not promise that only sentences are accepted. The automaton accepts when
the start symbol is on top of its stack and does not look at what is below. In
the grammar of nested parentheses, where the start symbol stands inside a
right-hand side, the closing ones can be left out. What is true of all that is
accepted is that it is derived from a row with the start symbol at its end, and
that there is nothing else in this row if the start symbol stands by itself.
-/

namespace Reckon

open Grammar (Generates Sentence RightmostBy)

namespace Automaton

variable {g : Grammar} {table : Precedence} {w : List Symbol} {es : List Entry}
  {line : Nat}

/-- A sentence of one terminal, the start symbol, is accepted once it is
shifted. -/
theorem accepts_of_terminal (fit : g.Definite table)
    (hstart : g.start.isTerminal = true) (hoccurs : g.start ∈ g.occurrences)
    (hes : es.map Entry.symbol = [g.start]) :
    Accepts g table line (fun _ => True) (opening es line) := by
  obtain ⟨e, rfl, he⟩ := List.map_eq_singleton_iff.mp hes
  have hless : table.get? (endEntry 0).symbol e.symbol = some .less :=
    he ▸ fit.get?_of_required (Grammar.endMark_less_required hoccurs)
  exact accepts_of_shift (he ▸ hstart) hless (by decide)
    (accepts_of_start he rfl trivial)

theorem accepts_of_generates (fit : g.Definite table)
    (hoccurs : ∀ s ∈ w, s ∈ g.occurrences) (hes : es.map Entry.symbol = w)
    (h : Generates g [g.start] w) :
    Accepts g table line (fun _ => True) (opening es line) := by
  cases hstart : g.start.isTerminal with
  | true =>
      -- a terminal is replaced by nothing, so it is all of the sentence
      have hw : w = [g.start] := by
        generalize hform : [g.start] = form at h
        cases h with
        | nil => cases hform
        | terminal _ hrest =>
            obtain ⟨rfl, rfl⟩ := List.cons_eq_cons.mp hform
            cases hrest
            rfl
        | production hp _ _ =>
            obtain ⟨hlhs, -⟩ := List.cons_eq_cons.mp hform
            have := Symbol.isTerminal_eq_false (fit.nonterminal _ hp)
            rw [← hlhs, hstart] at this
            cases this
      subst hw
      exact accepts_of_terminal fit hstart (hoccurs _ List.mem_cons_self) hes
  | false =>
      obtain ⟨p, hp, hlhs, hrhs⟩ :=
        (Grammar.generates_singleton_iff hstart).mp h
      obtain ⟨base, after, hbase, hbuilds⟩ := Grammar.exists_builds hrhs {} hes
      exact accepts_of_start_builds fit (fun _ _ => trivial) hp hlhs hbase
        hbuilds trivial 0 line

end Automaton

namespace Grammar

variable {g : Grammar} {table : Precedence} {tokens : List Token}
  {a b : List Symbol} {parsed : Parsed}

/-- Two symbols are equally many in all that is derived, if they are in all that
productions take out and put in. -/
theorem Derives.count_eq {l r : Symbol} (h : g.Derives a b)
    (hlhs : ∀ p ∈ g.productions, [p.lhs].count l = [p.lhs].count r)
    (hrhs : ∀ p ∈ g.productions, p.rhs.count l = p.rhs.count r)
    (ha : a.count l = a.count r) : b.count l = b.count r := by
  induction h with
  | refl => exact ha
  | tail _ hstep ih =>
      obtain ⟨p, hp, before, after, rfl, rfl⟩ := hstep
      have := hlhs p hp
      have := hrhs p hp
      rw [← List.singleton_append] at ih
      simp only [List.count_append] at ih ⊢
      omega

/-! ## Nested parentheses -/

/-- A name in any number of parentheses. -/
def nested : Grammar where
  start := .nonterminal "Nested"
  productions :=
    [⟨.nonterminal "Nested",
      [.keyword "(", .nonterminal "Nested", .keyword ")"], none⟩,
      ⟨.nonterminal "Nested", [.identifier], none⟩]

theorem nested_exists_table :
    ∃ table, Precedence.ofGrammar nested = .ok table :=
  exists_ok (by decide +kernel)

/-- The sentences close what they open. -/
theorem nested_balanced (h : nested.Derives [nested.start] a) :
    a.count (.keyword "(") = a.count (.keyword ")") :=
  h.count_eq (by decide +kernel) (by decide +kernel) (by decide +kernel)

/-- A name in two pairs of parentheses. -/
def closed : List Token :=
  [.keyword "(" 1, .keyword "(" 1, .word (.identifier "x") 1 none,
    .keyword ")" 1, .keyword ")" 1]

/-- A name behind a parenthesis that is not closed. -/
def unclosed : List Token := [.keyword "(" 1, .word (.identifier "x") 1 none]

theorem nested_classes_unclosed {w : List Symbol}
    (hw : nested.Classes unclosed w) : w = [.keyword "(", .identifier] := by
  have hclasses : unclosed.map nested.classify =
      [Symbol.keyword "(", .identifier].map some := by decide +kernel
  have hinjective := List.map_injective_iff.mpr (Option.some_injective Symbol)
  exact (hinjective (hclasses.symm.trans hw)).symm

theorem nested_not_derives_unclosed :
    ¬nested.Derives [nested.start] [.keyword "(", .identifier] := by
  intro h
  have := nested_balanced h
  revert this
  decide

theorem nested_exists_parse : ∃ parsed, nested.parse unclosed = .ok parsed :=
  exists_ok (by decide +kernel)

/-! ## Every sentence is accepted -/

/-- Tokens whose terminals are derived from the start symbol are accepted, if
the grammar has a table, no right-hand side is empty, no two are alike and all
left-hand sides are nonterminals. That the end mark is in no production need not
be asked for: no table would be there. -/
theorem parse_of_derives (hbuilt : Precedence.ofGrammar g = .ok table)
    (hfull : ∀ p ∈ g.productions, p.rhs ≠ [])
    (hdistinct : (g.productions.map Production.rhs).Nodup)
    (hnonterminal : ∀ p ∈ g.productions, p.lhs.isNonterminal = true)
    {w : List Symbol} (hw : g.Classes tokens w)
    (hderives : g.Derives [g.start] w) :
    ∃ parsed, g.parse tokens = .ok parsed := by
  have fit : g.Definite table := ⟨hbuilt, hfull, hnonterminal, hdistinct⟩
  obtain ⟨-, -, -, hterminals⟩ := classes_iff.mp hw
  obtain ⟨es, hes, hsymbols, -⟩ := Automaton.classifyAll_of_classes hw
  have hgenerates := (derives_iff_generates hw.sentence).mp hderives
  obtain ⟨parsed, hparsed, -⟩ := Automaton.parse_of_accepts hes
    (Automaton.accepts_of_generates fit
      (fun s hs => (mem_terminals_iff.mp (hterminals s hs)).1) hsymbols
        hgenerates)
  exact ⟨parsed, parse_eq_ok_iff.mpr ⟨table, hbuilt, hparsed⟩⟩

theorem nested_parse_closed : ∃ table w parsed,
    Precedence.ofGrammar nested = .ok table ∧ nested.Classes closed w ∧
      nested.Derives [nested.start] w ∧ nested.parse closed = .ok parsed := by
  obtain ⟨table, hbuilt⟩ := nested_exists_table
  have hw : nested.Classes closed
      [.keyword "(", .keyword "(", .identifier, .keyword ")",
        .keyword ")"] := by
    unfold Classes
    decide +kernel
  have hderives : nested.Derives [nested.start]
      [.keyword "(", .keyword "(", .identifier, .keyword ")",
        .keyword ")"] := by
    refine .head ⟨_, List.mem_cons_self, [], [], rfl, rfl⟩ ?_
    refine .head ⟨_, List.mem_cons_self, [_], [_], rfl, rfl⟩ ?_
    exact .single ⟨_, List.mem_cons_of_mem _ List.mem_cons_self, [_, _],
      [_, _], rfl, rfl⟩
  obtain ⟨parsed, hparsed⟩ :=
    parse_of_derives hbuilt (by decide) (by decide) (by decide) hw hderives
  exact ⟨table, _, parsed, hbuilt, hw, hderives, hparsed⟩

/-! ## What is accepted besides -/

/-- What is accepted is derived as the reductions say from a row with the start
symbol at its end. There is nothing else in this row if the start symbol is in
no right-hand side and comes into being on the end mark only. -/
theorem rightmost_of_accepted (hstart : g.start ≠ .endMark)
    (h : g.parse tokens = .ok parsed) :
    ∃ table before w, Precedence.ofGrammar g = .ok table ∧ g.Classes tokens w ∧
      RightmostBy g parsed.reduced.reverse (before ++ [g.start]) w ∧
      (Automaton.Outermost g table → before = []) := by
  obtain ⟨table, hbuilt, hparse⟩ := parse_eq_ok_iff.mp h
  obtain ⟨before, w, hw, hright, -, hempty⟩ :=
    Automaton.rightmost_of_parse hbuilt hstart hparse
  exact ⟨table, before, w, hbuilt, hw, hright, hempty⟩

theorem nested_unclosed_rightmost : ∃ parsed before,
    nested.parse unclosed = .ok parsed ∧
    RightmostBy nested parsed.reduced.reverse (before ++ [nested.start])
      [.keyword "(", .identifier] ∧ before ≠ [] := by
  obtain ⟨parsed, hparsed⟩ := nested_exists_parse
  obtain ⟨table, before, w, -, hw, hright, -⟩ :=
    rightmost_of_accepted (g := nested) nofun hparsed
  rw [nested_classes_unclosed hw] at hright
  refine ⟨parsed, before, hparsed, hright, ?_⟩
  rintro rfl
  exact nested_not_derives_unclosed hright.derives

/-- The start symbol is on top of an open parenthesis, and this is accepted. -/
theorem nested_parse_unclosed : (∃ parsed, nested.parse unclosed = .ok parsed) ∧
    ¬∃ w, nested.Classes unclosed w ∧ nested.Derives [nested.start] w := by
  refine ⟨nested_exists_parse, ?_⟩
  rintro ⟨w, hw, hderives⟩
  rw [nested_classes_unclosed hw] at hderives
  exact nested_not_derives_unclosed hderives

end Grammar

end Reckon
