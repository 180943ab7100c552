import Reckon.Proofs.Syntax.Translation

/-!
# Syntax trees and derivations

The grammar of the language derives exactly the spellings of syntax trees.

That it derives them comes with the translation of a tree. For the converse
every symbol is given a meaning, the rows of lexemes that it can stand for: a
terminal for its own lexemes, a nonterminal for the spellings of the trees of
its kind. A nonterminal that merely closes a list means the same as the list.
Every production is true of these meanings, and so whatever is generated is the
spelling of a tree.

The same two directions serve for the nonterminals of lone formulas,
arithmetic and conditions.
-/

namespace Reckon.Language

open Grammar (Generates)

/-! ## What symbols mean -/

/-- The rows of lexemes that a symbol can stand for. -/
def Stands (s : Symbol) (ls : List Lexeme) : Prop :=
  if s = program then ∃ t : Source, ls = t.lexemes
  else if s = programName then
    ∃ x, ls = [.keyword "program", .identifier x]
  else if s = definitions ∨ s = closedDefinitions then
    ∃ t : Definitions, ls = t.lexemes
  else if s = definition then
    ∃ n : Names, ls = n.lexemes ++ [.keyword ":", .keyword "float"]
  else if s = identifiers ∨ s = closedIdentifiers then
    ∃ n : Names, ls = n.lexemes
  else if s = statements then ∃ t : Stmt .block, ls = t.lexemes
  else if s = closedStatements then
    ∃ t : Stmt .block, ls = t.lexemes ++ [.keyword lineBreak]
  else if s = statement then ∃ t : Stmt .line, ls = t.lexemes
  else if s = unlabelledStatement then ∃ t : Stmt .bare, ls = t.lexemes
  else if s = expression ∨ s = closedExpression ∨ s = bound then
    ∃ e : Expression, ls = e.lexemes
  else if s = term ∨ s = closedTerm then
    ∃ e : Formula (.chain .product), ls = e.lexemes
  else if s = factor then ∃ e : Formula .factor, ls = e.lexemes
  else if s = condition ∨ s = closedCondition then
    ∃ c : Condition, ls = c.lexemes
  else if s = conjunction ∨ s = closedConjunction then
    ∃ c : Formula (.chain .conjunction), ls = c.lexemes
  else if s = logicalFactor then ∃ c : Formula .test, ls = c.lexemes
  else if s = relation then
    ∃ (a : Expression) (o : Comparison) (b : Expression),
      ls = a.lexemes ++ .keyword o.val.text :: b.lexemes
  else ∃ x : Lexeme, ls = [x] ∧ x.symbol = s

/-- The rows of lexemes that a row of symbols can stand for. -/
def StandsAll : List Symbol → List Lexeme → Prop
  | [], ls => ls = []
  | s :: form, ls => ∃ a b, ls = a ++ b ∧ Stands s a ∧ StandsAll form b

theorem stands_terminal {x : Lexeme} (h : x.symbol.isTerminal = true) :
    Stands x.symbol [x] := by
  cases x with
  | nonterminal name => cases h
  | identifier | constant | label => exact ⟨_, rfl, rfl⟩
  | keyword text => exact ⟨.keyword text, rfl, rfl⟩

theorem eq_of_stands_keyword {text : String} {ls : List Lexeme}
    (h : Stands (.keyword text) ls) : ls = [.keyword text] := by
  obtain ⟨x, rfl, hx⟩ : ∃ x : Lexeme, ls = [x] ∧ x.symbol = .keyword text := h
  cases x <;> cases hx
  rfl

theorem eq_of_stands_identifier {ls : List Lexeme} (h : Stands .identifier ls) :
    ∃ x, ls = [.identifier x] := by
  obtain ⟨x, rfl, hx⟩ : ∃ x : Lexeme, ls = [x] ∧ x.symbol = .identifier := h
  cases x <;> cases hx
  exact ⟨_, rfl⟩

theorem eq_of_stands_constant {ls : List Lexeme} (h : Stands .constant ls) :
    ∃ v, ls = [.constant v] := by
  obtain ⟨x, rfl, hx⟩ : ∃ x : Lexeme, ls = [x] ∧ x.symbol = .constant := h
  cases x <;> cases hx
  exact ⟨_, rfl⟩

theorem eq_of_stands_label {ls : List Lexeme} (h : Stands .label ls) :
    ∃ x, ls = [.label x] := by
  obtain ⟨x, rfl, hx⟩ : ∃ x : Lexeme, ls = [x] ∧ x.symbol = .label := h
  cases x <;> cases hx
  exact ⟨_, rfl⟩

/-! ## Every production is true -/

/-- A production is true if what its right-hand side can stand for its left-hand
side can stand for too. -/
def Holds (p : Production) : Prop := ∀ ls, StandsAll p.rhs ls → Stands p.lhs ls

theorem holds_frame : ∀ p ∈ frameProductions, Holds p := by
  intro p hp
  simp only [frameProductions, List.mem_cons, List.not_mem_nil, or_false] at hp
  rcases hp with rfl | rfl | rfl | rfl | rfl
  · rintro _ ⟨_, _, rfl, ⟨x, rfl⟩, _, _, rfl, h₁, _, _, rfl, h₂,
      _, _, rfl, ⟨t, rfl⟩, _, _, rfl, h₃, _, _, rfl, h₄,
      _, _, rfl, ⟨body, rfl⟩, _, _, rfl, h₅, rfl⟩
    obtain rfl := eq_of_stands_keyword h₁
    obtain rfl := eq_of_stands_keyword h₂
    obtain rfl := eq_of_stands_keyword h₃
    obtain rfl := eq_of_stands_keyword h₄
    obtain rfl := eq_of_stands_keyword h₅
    exact ⟨⟨x, t, body⟩, by simp [Source.lexemes]⟩
  · rintro _ ⟨_, _, rfl, ⟨t, rfl⟩, _, _, rfl, h, _, _, rfl, ⟨n, rfl⟩, rfl⟩
    obtain rfl := eq_of_stands_keyword h
    exact ⟨.more t n, by simp [Definitions.lexemes]⟩
  · rintro _ ⟨_, _, rfl, ⟨n, rfl⟩, rfl⟩
    exact ⟨.one n, by simp [Definitions.lexemes]⟩
  · rintro _ ⟨_, _, rfl, ⟨t, rfl⟩, rfl⟩
    exact ⟨t, List.append_nil _⟩
  · rintro _ ⟨_, _, rfl, ⟨n, rfl⟩, _, _, rfl, h₁, _, _, rfl, h₂, rfl⟩
    obtain rfl := eq_of_stands_keyword h₁
    obtain rfl := eq_of_stands_keyword h₂
    exact ⟨n, by simp⟩

theorem holds_statements : ∀ p ∈ statementProductions, Holds p := by
  intro p hp
  simp only [statementProductions, List.mem_cons, List.not_mem_nil,
    or_false] at hp
  rcases hp with rfl | rfl | rfl | rfl | rfl | rfl | rfl | rfl | rfl | rfl
  · rintro _ ⟨_, _, rfl, ⟨t, rfl⟩, _, _, rfl, h, _, _, rfl, ⟨s, rfl⟩, rfl⟩
    obtain rfl := eq_of_stands_keyword h
    exact ⟨.more t s, by simp [Stmt.lexemes]⟩
  · rintro _ ⟨_, _, rfl, h, _, _, rfl, ⟨s, rfl⟩, rfl⟩
    obtain rfl := eq_of_stands_keyword h
    exact ⟨.one s, by simp [Stmt.lexemes]⟩
  · rintro _ ⟨_, _, rfl, ⟨s, rfl⟩, rfl⟩
    exact ⟨.plain s, by simp [Stmt.lexemes]⟩
  · rintro _ ⟨_, _, rfl, hlabel, _, _, rfl, h, _, _, rfl, ⟨s, rfl⟩, rfl⟩
    obtain ⟨x, rfl⟩ := eq_of_stands_label hlabel
    obtain rfl := eq_of_stands_keyword h
    exact ⟨.labelled x s, by simp [Stmt.lexemes]⟩
  · rintro _ ⟨_, _, rfl, ⟨t, rfl⟩, _, _, rfl, h, rfl⟩
    obtain rfl := eq_of_stands_keyword h
    exact ⟨t, by simp [lineBreak]⟩
  · rintro _ ⟨_, _, rfl, hname, _, _, rfl, h, _, _, rfl, ⟨e, rfl⟩, rfl⟩
    obtain ⟨x, rfl⟩ := eq_of_stands_identifier hname
    obtain rfl := eq_of_stands_keyword h
    exact ⟨.assign x e, by simp [Stmt.lexemes]⟩
  · rintro _ ⟨_, _, rfl, h₁, _, _, rfl, h₂, _, _, rfl, ⟨n, rfl⟩, _, _, rfl, h₃,
      rfl⟩
    obtain rfl := eq_of_stands_keyword h₁
    obtain rfl := eq_of_stands_keyword h₂
    obtain rfl := eq_of_stands_keyword h₃
    exact ⟨.transfer .read n, by simp [Stmt.lexemes, Transfer.keyword]⟩
  · rintro _ ⟨_, _, rfl, h₁, _, _, rfl, h₂, _, _, rfl, ⟨n, rfl⟩, _, _, rfl, h₃,
      rfl⟩
    obtain rfl := eq_of_stands_keyword h₁
    obtain rfl := eq_of_stands_keyword h₂
    obtain rfl := eq_of_stands_keyword h₃
    exact ⟨.transfer .write n, by simp [Stmt.lexemes, Transfer.keyword]⟩
  · rintro _ ⟨_, _, rfl, h₁, _, _, rfl, hname, _, _, rfl, h₂,
      _, _, rfl, ⟨first, rfl⟩, _, _, rfl, h₃, _, _, rfl, ⟨last, rfl⟩,
      _, _, rfl, ⟨body, rfl⟩, _, _, rfl, h₄, rfl⟩
    obtain ⟨x, rfl⟩ := eq_of_stands_identifier hname
    obtain rfl := eq_of_stands_keyword h₁
    obtain rfl := eq_of_stands_keyword h₂
    obtain rfl := eq_of_stands_keyword h₃
    obtain rfl := eq_of_stands_keyword h₄
    exact ⟨.loop x first last body, by simp [Stmt.lexemes]⟩
  · rintro _ ⟨_, _, rfl, h₁, _, _, rfl, ⟨c, rfl⟩, _, _, rfl, h₂, _, _, rfl, h₃,
      _, _, rfl, hlabel, rfl⟩
    obtain ⟨x, rfl⟩ := eq_of_stands_label hlabel
    obtain rfl := eq_of_stands_keyword h₁
    obtain rfl := eq_of_stands_keyword h₂
    obtain rfl := eq_of_stands_keyword h₃
    exact ⟨.branch c x, by simp [Stmt.lexemes]⟩

theorem holds_names : ∀ p ∈ nameProductions, Holds p := by
  intro p hp
  simp only [nameProductions, List.mem_cons, List.not_mem_nil, or_false] at hp
  rcases hp with rfl | rfl | rfl | rfl
  · rintro _ ⟨_, _, rfl, ⟨n, rfl⟩, rfl⟩
    exact ⟨n, List.append_nil _⟩
  · rintro _ ⟨_, _, rfl, h, _, _, rfl, hname, rfl⟩
    obtain ⟨x, rfl⟩ := eq_of_stands_identifier hname
    obtain rfl := eq_of_stands_keyword h
    exact ⟨⟨x, []⟩, by simp [Names.lexemes, Names.toList]⟩
  · rintro _ ⟨_, _, rfl, ⟨n, rfl⟩, _, _, rfl, h, _, _, rfl, hname, rfl⟩
    obtain ⟨x, rfl⟩ := eq_of_stands_identifier hname
    obtain rfl := eq_of_stands_keyword h
    exact ⟨⟨n.first, n.others ++ [x]⟩, by simp [Names.lexemes, Names.toList]⟩
  · rintro _ ⟨_, _, rfl, h, _, _, rfl, hname, rfl⟩
    obtain ⟨x, rfl⟩ := eq_of_stands_identifier hname
    obtain rfl := eq_of_stands_keyword h
    exact ⟨x, by simp⟩

theorem holds_arithmetic : ∀ p ∈ arithmeticProductions, Holds p := by
  intro p hp
  simp only [arithmeticProductions, List.mem_cons, List.not_mem_nil,
    or_false] at hp
  rcases hp with rfl | rfl | rfl | rfl | rfl | rfl | rfl | rfl | rfl |
    rfl | rfl | rfl | rfl
  · rintro _ ⟨_, _, rfl, ⟨a, rfl⟩, rfl⟩
    exact ⟨.only a, by simp [Formula.lexemes]⟩
  · rintro _ ⟨_, _, rfl, ⟨e, rfl⟩, rfl⟩
    exact ⟨e, List.append_nil _⟩
  · rintro _ ⟨_, _, rfl, ⟨e, rfl⟩, rfl⟩
    exact ⟨e, List.append_nil _⟩
  · rintro _ ⟨_, _, rfl, ⟨e, rfl⟩, _, _, rfl, h, _, _, rfl, ⟨a, rfl⟩, rfl⟩
    obtain rfl := eq_of_stands_keyword h
    exact ⟨.join e ⟨.add, by decide⟩ a, by simp [Formula.lexemes, Binary.text]⟩
  · rintro _ ⟨_, _, rfl, ⟨e, rfl⟩, _, _, rfl, h, _, _, rfl, ⟨a, rfl⟩, rfl⟩
    obtain rfl := eq_of_stands_keyword h
    exact ⟨.join e ⟨.sub, by decide⟩ a, by simp [Formula.lexemes, Binary.text]⟩
  · rintro _ ⟨_, _, rfl, h, _, _, rfl, ⟨a, rfl⟩, rfl⟩
    obtain rfl := eq_of_stands_keyword h
    exact ⟨.negated a, by simp [Formula.lexemes]⟩
  · rintro _ ⟨_, _, rfl, ⟨e, rfl⟩, rfl⟩
    exact ⟨e, List.append_nil _⟩
  · rintro _ ⟨_, _, rfl, ⟨a, rfl⟩, rfl⟩
    exact ⟨.only a, by simp [Formula.lexemes]⟩
  · rintro _ ⟨_, _, rfl, ⟨e, rfl⟩, _, _, rfl, h, _, _, rfl, ⟨a, rfl⟩, rfl⟩
    obtain rfl := eq_of_stands_keyword h
    exact ⟨.join e ⟨.mul, by decide⟩ a, by simp [Formula.lexemes, Binary.text]⟩
  · rintro _ ⟨_, _, rfl, ⟨e, rfl⟩, _, _, rfl, h, _, _, rfl, ⟨a, rfl⟩, rfl⟩
    obtain rfl := eq_of_stands_keyword h
    exact ⟨.join e ⟨.div, by decide⟩ a, by simp [Formula.lexemes, Binary.text]⟩
  · rintro _ ⟨_, _, rfl, h₁, _, _, rfl, ⟨e, rfl⟩, _, _, rfl, h₂, rfl⟩
    obtain rfl := eq_of_stands_keyword h₁
    obtain rfl := eq_of_stands_keyword h₂
    exact ⟨.group e, by simp [Formula.lexemes]⟩
  · rintro _ ⟨_, _, rfl, hname, rfl⟩
    obtain ⟨x, rfl⟩ := eq_of_stands_identifier hname
    exact ⟨.name x, List.append_nil _⟩
  · rintro _ ⟨_, _, rfl, hvalue, rfl⟩
    obtain ⟨v, rfl⟩ := eq_of_stands_constant hvalue
    exact ⟨.constant v, List.append_nil _⟩

theorem holds_logic : ∀ p ∈ logicProductions, Holds p := by
  intro p hp
  simp only [logicProductions, List.mem_cons, List.not_mem_nil, or_false] at hp
  rcases hp with rfl | rfl | rfl | rfl | rfl | rfl | rfl | rfl | rfl
  · rintro _ ⟨_, _, rfl, ⟨c, rfl⟩, rfl⟩
    exact ⟨c, List.append_nil _⟩
  · rintro _ ⟨_, _, rfl, ⟨a, rfl⟩, rfl⟩
    exact ⟨.only a, by simp [Formula.lexemes]⟩
  · rintro _ ⟨_, _, rfl, ⟨c, rfl⟩, _, _, rfl, h, _, _, rfl, ⟨a, rfl⟩, rfl⟩
    obtain rfl := eq_of_stands_keyword h
    exact ⟨.join c ⟨.or, by decide⟩ a, by simp [Formula.lexemes, Binary.text]⟩
  · rintro _ ⟨_, _, rfl, ⟨a, rfl⟩, rfl⟩
    exact ⟨.only a, by simp [Formula.lexemes]⟩
  · rintro _ ⟨_, _, rfl, ⟨c, rfl⟩, rfl⟩
    exact ⟨c, List.append_nil _⟩
  · rintro _ ⟨_, _, rfl, ⟨c, rfl⟩, _, _, rfl, h, _, _, rfl, ⟨a, rfl⟩, rfl⟩
    obtain rfl := eq_of_stands_keyword h
    exact ⟨.join c ⟨.and, by decide⟩ a, by simp [Formula.lexemes, Binary.text]⟩
  · rintro _ ⟨_, _, rfl, ⟨a, o, b, rfl⟩, rfl⟩
    exact ⟨.compare a o b, by simp [Formula.lexemes]⟩
  · rintro _ ⟨_, _, rfl, h₁, _, _, rfl, ⟨c, rfl⟩, _, _, rfl, h₂, rfl⟩
    obtain rfl := eq_of_stands_keyword h₁
    obtain rfl := eq_of_stands_keyword h₂
    exact ⟨.bracket c, by simp [Formula.lexemes]⟩
  · rintro _ ⟨_, _, rfl, h, _, _, rfl, ⟨a, rfl⟩, rfl⟩
    obtain rfl := eq_of_stands_keyword h
    exact ⟨.not a, by simp [Formula.lexemes]⟩

/-- Every text of a relational operator is that of a comparison. -/
theorem exists_comparison {text : String} (h : text ∈ relationalOperators) :
    ∃ o : Comparison, o.val.text = text := by
  have htexts : relationalOperators = Binary.comparisons.map Binary.text := rfl
  rw [htexts] at h
  obtain ⟨o, ho, rfl⟩ := List.mem_map.mp h
  exact ⟨⟨o, ho⟩, rfl⟩

theorem holds_relations : ∀ p ∈ relationProductions, Holds p := by
  intro p hp
  obtain ⟨text, htext, rfl⟩ := List.mem_map.mp hp
  obtain ⟨o, rfl⟩ := exists_comparison htext
  rintro _ ⟨_, _, rfl, ⟨a, rfl⟩, _, _, rfl, h, _, _, rfl, ⟨b, rfl⟩, rfl⟩
  obtain rfl := eq_of_stands_keyword h
  exact ⟨a, o, b, by simp⟩

theorem holds_all : ∀ p ∈ grammar.productions, Holds p := by
  intro p hp
  simp only [grammar, List.mem_append] at hp
  rcases hp with ((((hp | hp) | hp) | hp) | hp) | hp
  · exact holds_frame p hp
  · exact holds_statements p hp
  · exact holds_names p hp
  · exact holds_arithmetic p hp
  · exact holds_logic p hp
  · exact holds_relations p hp

/-- What is generated is what the form can stand for. -/
theorem standsAll_of_generates {form w : List Symbol}
    (h : Generates grammar form w) :
    ∀ ls : List Lexeme, ls.map Lexeme.symbol = w → StandsAll form ls := by
  induction h with
  | nil =>
      intro ls hls
      exact List.map_eq_nil_iff.mp hls
  | terminal ht _ ih =>
      intro ls hls
      obtain ⟨x, rest, rfl, rfl, hrest⟩ := List.map_eq_cons_iff.mp hls
      exact ⟨[x], rest, rfl, stands_terminal ht, ih rest hrest⟩
  | production hp _ _ ihu ihv =>
      intro ls hls
      obtain ⟨a, b, rfl, ha, hb⟩ := List.map_eq_append_iff.mp hls
      exact ⟨a, b, rfl, holds_all _ hp a (ihu a ha), ihv b hb⟩

/-- Tokens that are derived from a symbol spell something that it stands for. -/
theorem stands_of_derives {s : Symbol} {tokens : List Token} {w : List Symbol}
    (hclasses : grammar.Classes tokens w) (hderives : grammar.Derives [s] w) :
    ∃ ls, Spells tokens ls ∧ Stands s ls := by
  have hgen := (Grammar.derives_iff_generates hclasses.sentence).mp hderives
  obtain ⟨ls, hspells, hsymbols, -⟩ := Grammar.classes_iff.mp hclasses
  obtain ⟨a, _, rfl, hstands, rfl⟩ := standsAll_of_generates hgen _ hsymbols
  rw [List.append_nil] at hspells
  exact ⟨a, hspells, hstands⟩

/-- What a nonterminal yields is derived from it. -/
theorem derives_of_yields {s : Symbol} {tokens : List Token} {ls : List Lexeme}
    {items : List Item} (hs : s.isTerminal = false) (h : Yields [s] ls items)
    (hspells : Spells tokens ls) :
    ∃ w, grammar.Classes tokens w ∧ grammar.Derives [s] w := by
  have hgen := Grammar.Translates.generates h
  have hterminals := hgen.mem_terminals fun t ht hterminal => by
    obtain rfl := List.mem_singleton.mp ht
    rw [hs] at hterminal
    cases hterminal
  exact ⟨_, Grammar.classes_iff.mpr ⟨_, hspells, rfl, hterminals⟩,
    Grammar.Generates.derives hgen⟩

/-- The programs are the spellings of syntax trees. -/
theorem derives_iff_source {tokens : List Token} :
    (∃ w, grammar.Classes tokens w ∧ grammar.Derives [program] w) ↔
      ∃ s : Source, Spells tokens s.lexemes := by
  constructor
  · rintro ⟨w, hclasses, hderives⟩
    obtain ⟨_, hspells, s, rfl⟩ := stands_of_derives hclasses hderives
    exact ⟨s, hspells⟩
  · rintro ⟨s, hspells⟩
    exact derives_of_yields rfl (yields_source s) hspells

/-- Tokens are a lone formula if they are derived from one of the symbols for
arithmetic and for conditions. -/
def IsFormula (tokens : List Token) : Prop :=
  ∃ w, grammar.Classes tokens w ∧
    (grammar.Derives [expression] w ∨ grammar.Derives [condition] w)

/-- Lone formulas are the spellings of the trees of these two kinds. -/
theorem isFormula_iff {tokens : List Token} : IsFormula tokens ↔
    (∃ e : Expression, Spells tokens e.lexemes) ∨
      ∃ c : Condition, Spells tokens c.lexemes := by
  constructor
  · rintro ⟨w, hclasses, hderives | hderives⟩
    · obtain ⟨_, hspells, e, rfl⟩ := stands_of_derives hclasses hderives
      exact .inl ⟨e, hspells⟩
    · obtain ⟨_, hspells, c, rfl⟩ := stands_of_derives hclasses hderives
      exact .inr ⟨c, hspells⟩
  · rintro (⟨e, hspells⟩ | ⟨c, hspells⟩)
    · obtain ⟨w, hclasses, hderives⟩ :=
        derives_of_yields rfl (yields_formula e) hspells
      exact ⟨w, hclasses, .inl hderives⟩
    · obtain ⟨w, hclasses, hderives⟩ :=
        derives_of_yields rfl (yields_formula c) hspells
      exact ⟨w, hclasses, .inr hderives⟩

theorem exists_formula {tokens : List Token} (h : IsFormula tokens) :
    ∃ (t : Tier) (e : Formula t), Spells tokens e.lexemes := by
  rcases isFormula_iff.mp h with ⟨e, hspells⟩ | ⟨c, hspells⟩
  · exact ⟨_, e, hspells⟩
  · exact ⟨_, c, hspells⟩

end Reckon.Language
