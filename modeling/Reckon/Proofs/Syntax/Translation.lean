import Reckon.Grammar.Language
import Reckon.Proofs.Compile.Item
import Reckon.Proofs.Grammar.Classes

/-!
# The translation of a tree

A production can stand for code, which is put out where its right-hand side has
been reduced, behind the code of everything in it. So a derivation of a sentence
determines a row of items beside the sentence. `Translates` is `Generates` with
this second row.

Every tree is derived, one production to a constructor, and its
translation is that of its formulas in the order of the source. A formula
is translated operands first; its minus sign comes behind the whole
product that it stands in front of.
-/

namespace Reckon

/-- What is put out for some words by a production that reduces them to its
left-hand side. -/
def Emission.items (rhs : List Symbol) (ls : List Lexeme) : Emission → List Item
  | operand =>
    match ls with
    | .identifier x :: _ => [.op (.name x)]
    | .constant v :: _ => [.number v]
    | _ => []
  | operator =>
    match rhs with
    | _ :: .keyword text :: _ => ((Op.ofOperator? text).map .op).toList
    | _ => []
  | negation => [.op .neg]
  | not => [.op .not]

/-- The items that a production stands for. -/
def Production.items (p : Production) (ls : List Lexeme) : List Item :=
  match p.emission with
  | some emission => emission.items p.rhs ls
  | none => []

/-- A row of symbols, the words of a sentence that it stands for, and the items
that are put out when the sentence is reduced to it. -/
inductive Grammar.Translates (g : Grammar) :
    List Symbol → List Lexeme → List Item → Prop where
  | nil : Translates g [] [] []
  | terminal {x : Lexeme} {rest : List Symbol} {ls : List Lexeme}
      {items : List Item} :
      x.symbol.isTerminal = true → Translates g rest ls items →
      Translates g (x.symbol :: rest) (x :: ls) items
  | production {p : Production} {rest : List Symbol} {a b : List Lexeme}
      {inside behind : List Item} :
      p ∈ g.productions → Translates g p.rhs a inside →
      Translates g rest b behind →
      Translates g (p.lhs :: rest) (a ++ b) (inside ++ p.items a ++ behind)

namespace Grammar.Translates

variable {g : Grammar} {form rest : List Symbol} {a b : List Lexeme}
  {items later : List Item}

theorem generates (h : Translates g form a items) :
    Generates g form (a.map Lexeme.symbol) := by
  induction h with
  | nil => exact .nil
  | terminal ht _ ih => exact .terminal ht ih
  | production hp _ _ iha ihb =>
      rw [List.map_append]
      exact .production hp iha ihb

theorem append (ha : Translates g form a items)
    (hb : Translates g rest b later) :
    Translates g (form ++ rest) (a ++ b) (items ++ later) := by
  induction ha with
  | nil => exact hb
  | terminal ht _ ih => exact .terminal ht ih
  | production hp hrhs _ _ ih =>
      rw [List.append_assoc, List.append_assoc]
      exact .production hp hrhs ih

/-- A left-hand side stands for what one of its right-hand sides stands for. -/
theorem exists_production {s : Symbol} (hs : s.isTerminal = false)
    (h : Translates g [s] a items) : ∃ p ∈ g.productions, p.lhs = s ∧
      ∃ inside, Translates g p.rhs a inside ∧ items = inside ++ p.items a := by
  generalize hform : [s] = form at h
  cases h with
  | nil => cases hform
  | terminal ht =>
      obtain ⟨rfl, -⟩ := List.cons_eq_cons.mp hform
      rw [ht] at hs
      cases hs
  | @production p rest a b inside behind hp hrhs hrest =>
      obtain ⟨rfl, rfl⟩ := List.cons_eq_cons.mp hform
      cases hrest
      rw [List.append_nil, List.append_nil]
      exact ⟨p, hp, rfl, inside, hrhs, rfl⟩

end Grammar.Translates

/-! ## The code that is put out -/

/-- The translation of a formula. -/
def Formula.translation {t : Tier} : Formula t → List Item
  | name x => [.op (.name x)]
  | constant v => [.number v]
  | group e => e.translation
  | compare a o b => a.translation ++ b.translation ++ [.op (.binary o)]
  | bracket c => c.translation
  | not a => a.translation ++ [.op .not]
  | only a => a.translation
  | negated a => a.translation ++ [.op .neg]
  | join a o b => a.translation ++ b.translation ++ [.op (.binary o)]

/-- The formulas of statements, in the order of the source: what is assigned,
both values of a loop, the condition of a branch. -/
def Stmt.formulas {x : Extent} : Stmt x → List (Σ t, Formula t)
  | assign _ e => [⟨_, e⟩]
  | transfer _ _ => []
  | branch c _ => [⟨_, c⟩]
  | loop _ first last body => ⟨_, first⟩ :: ⟨_, last⟩ :: body.formulas
  | plain s | labelled _ s | one s => s.formulas
  | more before s => before.formulas ++ s.formulas

/-- The translation of statements. -/
def Stmt.translation {x : Extent} (s : Stmt x) : List Item :=
  s.formulas.flatMap fun f => f.2.translation

namespace Language

/-! ## Every tree is derived -/

/-- A form stands for some words, and items are put out for them. -/
def Yields : List Symbol → List Lexeme → List Item → Prop := grammar.Translates

namespace Yields

variable {form rest : List Symbol} {ls later : List Lexeme}
  {items behind : List Item}

theorem nil : Yields [] [] [] := Grammar.Translates.nil

theorem keyword (text : String) (h : Yields form ls items) :
    Yields (.keyword text :: form) (.keyword text :: ls) items :=
  Grammar.Translates.terminal (x := .keyword text) rfl h

theorem identifier (x : String) (h : Yields form ls items) :
    Yields (.identifier :: form) (.identifier x :: ls) items :=
  Grammar.Translates.terminal (x := .identifier x) rfl h

theorem constant (v : Single) (h : Yields form ls items) :
    Yields (.constant :: form) (.constant v :: ls) items :=
  Grammar.Translates.terminal (x := .constant v) rfl h

theorem label (x : String) (h : Yields form ls items) :
    Yields (.label :: form) (.label x :: ls) items :=
  Grammar.Translates.terminal (x := .label x) rfl h

theorem append (h : Yields form ls items) (hrest : Yields rest later behind) :
    Yields (form ++ rest) (ls ++ later) (items ++ behind) :=
  Grammar.Translates.append h hrest

/-- What is behind puts out nothing. -/
theorem append_silent (h : Yields form ls items)
    (hrest : Yields rest later []) :
    Yields (form ++ rest) (ls ++ later) items := by
  have happend := h.append hrest
  rwa [List.append_nil] at happend

theorem of_production {p : Production} (hp : p ∈ grammar.productions)
    (h : Yields p.rhs ls items) : Yields [p.lhs] ls (items ++ p.items ls) := by
  have hone := Grammar.Translates.production hp h .nil
  rwa [List.append_nil, List.append_nil] at hone

/-- A production that puts out nothing. -/
theorem of_rule (lhs : Symbol) (rhs : List Symbol)
    (hmem : ⟨lhs, rhs, none⟩ ∈ grammar.productions) (h : Yields rhs ls items) :
    Yields [lhs] ls items := by
  have hone := of_production hmem h
  rwa [show Production.items ⟨lhs, rhs, none⟩ ls = [] from rfl, List.append_nil]
    at hone

/-- A production with an operator between two lists. -/
theorem of_operator (lhs left right : Symbol) (o : Binary)
    (hmem : ⟨lhs, [left, .keyword o.text, right], some .operator⟩ ∈
      grammar.productions)
    (h : Yields [left, .keyword o.text, right] ls items) :
    Yields [lhs] ls (items ++ [.op (.binary o)]) := by
  have hone := of_production hmem h
  have hitems : Production.items
      ⟨lhs, [left, .keyword o.text, right], some .operator⟩ ls =
        ((Op.ofOperator? o.text).map .op).toList := rfl
  rwa [hitems, Op.ofOperator?_text] at hone

end Yields

/-- The nonterminal of the open lists of a tier. -/
def opened : Tier → Symbol
  | .factor => factor
  | .test => logicalFactor
  | .chain .product => term
  | .chain .sum => expression
  | .chain .conjunction => conjunction
  | .chain .condition => condition

/-- The nonterminal of the closed lists of a tier. -/
def closed : Tier → Symbol
  | .factor => factor
  | .test => logicalFactor
  | .chain .product => closedTerm
  | .chain .sum => closedExpression
  | .chain .conjunction => closedConjunction
  | .chain .condition => closedCondition

theorem yields_closed {t : Tier} {ls : List Lexeme} {items : List Item}
    (h : Yields [opened t] ls items) : Yields [closed t] ls items := by
  cases t with
  | factor | test => exact h
  | chain l => cases l <;> exact Yields.of_rule _ _ (by decide +kernel) h

theorem only_mem_productions (l : Level) :
    ⟨opened (.chain l), [closed l.below], none⟩ ∈ grammar.productions := by
  cases l <;> decide +kernel

theorem join_mem_productions (l : Level) : ∀ o ∈ l.operators,
    ⟨opened (.chain l), [opened (.chain l), .keyword o.text, closed l.below],
      some .operator⟩ ∈ grammar.productions := by
  cases l <;> decide +kernel

theorem compare_mem_productions : ∀ o ∈ Binary.comparisons,
    ⟨relation, [closedExpression, .keyword o.text, closedExpression],
      some .operator⟩ ∈ grammar.productions := by
  decide +kernel

theorem yields_formula {t : Tier} (e : Formula t) :
    Yields [opened t] e.lexemes e.translation := by
  induction e with
  | name x =>
      have hmem :
          ⟨factor, [.identifier], some .operand⟩ ∈ grammar.productions := by
        decide +kernel
      exact Yields.of_production hmem (Yields.nil.identifier x)
  | constant v =>
      have hmem :
          ⟨factor, [.constant], some .operand⟩ ∈ grammar.productions := by
        decide +kernel
      exact Yields.of_production hmem (Yields.nil.constant v)
  | group e ih =>
      exact Yields.of_rule factor _ (by decide +kernel)
        (((yields_closed ih).append_silent
          (Yields.nil.keyword ")")).keyword "(")
  | compare a o b iha ihb =>
      have h := (yields_closed iha).append
        ((yields_closed ihb).keyword o.val.text)
      exact Yields.of_rule logicalFactor _ (by decide +kernel)
        (Yields.of_operator relation _ _ _
          (compare_mem_productions o.val o.property) h)
  | bracket c ih =>
      exact Yields.of_rule logicalFactor _ (by decide +kernel)
        (((yields_closed ih).append_silent
          (Yields.nil.keyword "]")).keyword "[")
  | not a ih =>
      have hmem : ⟨logicalFactor, [.keyword "!", logicalFactor], some .not⟩ ∈
          grammar.productions := by
        decide +kernel
      exact Yields.of_production hmem (ih.keyword "!")
  | @only l a ih =>
      exact Yields.of_rule _ _ (only_mem_productions l) (yields_closed ih)
  | negated a ih =>
      have hmem : ⟨expression, [.keyword "-", closedTerm], some .negation⟩ ∈
          grammar.productions := by
        decide +kernel
      exact Yields.of_production hmem ((yields_closed ih).keyword "-")
  | @join l a o b iha ihb =>
      exact Yields.of_operator _ _ _ _ (join_mem_productions l o.val o.property)
        (iha.append ((yields_closed ihb).keyword o.val.text))

theorem yields_expression (e : Expression) :
    Yields [closedExpression] e.lexemes e.translation :=
  yields_closed (yields_formula e)

/-- The words that a further name adds to a list. -/
def itemLexemes (x : String) : List Lexeme := [.keyword ",", .identifier x]

theorem yields_item (x : String) :
    Yields [.keyword ",", .identifier] (itemLexemes x) [] :=
  (Yields.nil.identifier x).keyword ","

theorem yields_items {ls : List Lexeme} (others : List String)
    (h : Yields [identifiers] ls []) :
    Yields [identifiers] (ls ++ others.flatMap itemLexemes) [] := by
  induction others generalizing ls with
  | nil => rwa [List.flatMap_nil, List.append_nil]
  | cons x others ih =>
      rw [List.flatMap_cons, ← List.append_assoc]
      exact ih (Yields.of_rule identifiers _ (by decide +kernel)
        (h.append (yields_item x)))

theorem yields_names (n : Names) : Yields [closedIdentifiers] n.lexemes [] := by
  refine Yields.of_rule closedIdentifiers [identifiers] (by decide +kernel) ?_
  exact yields_items n.others
    (Yields.of_rule identifiers _ (by decide +kernel) (yields_item n.first))

/-! ## Statements and programs -/

/-- The nonterminal of statements of an extent. -/
def extended : Extent → Symbol
  | .bare => unlabelledStatement
  | .line => statement
  | .block => statements

theorem yields_transfer (kind : Transfer) (n : Names) :
    Yields [unlabelledStatement] (Stmt.transfer kind n).lexemes [] := by
  have h := (((yields_names n).append (Yields.nil.keyword ")")).keyword
    "(").keyword kind.keyword
  cases kind <;>
    exact Yields.of_rule unlabelledStatement _ (by decide +kernel) h

theorem yields_block {ls : List Lexeme} {items : List Item}
    (h : Yields [statements] ls items) :
    Yields [closedStatements] (ls ++ [.keyword lineBreak]) items :=
  Yields.of_rule closedStatements _ (by decide +kernel)
    (h.append_silent (Yields.nil.keyword lineBreak))

theorem yields_stmt {x : Extent} (s : Stmt x) :
    Yields [extended x] s.lexemes s.translation := by
  induction s with
  | assign x e =>
      have h := ((yields_expression e).keyword "=").identifier x
      rw [← List.append_nil e.translation] at h
      exact Yields.of_rule unlabelledStatement _ (by decide +kernel) h
  | transfer kind names => exact yields_transfer kind names
  | branch c target =>
      have hgoto := ((Yields.nil.label target).keyword
        "goto").keyword "then"
      have h := ((yields_closed (yields_formula c)).append hgoto).keyword "if"
      exact Yields.of_rule unlabelledStatement _ (by decide +kernel) h
  | loop parameter first last body ih =>
      have hlast := Yields.of_rule bound _ (by decide +kernel)
        (yields_expression last)
      have hbody := (yields_block ih).append_silent (Yields.nil.keyword "next")
      have hlimit := (hlast.append hbody).keyword "to"
      have hfirst := ((yields_expression first).append hlimit).keyword "="
      have h := (hfirst.identifier parameter).keyword "do"
      rw [List.append_assoc] at h
      exact Yields.of_rule unlabelledStatement _ (by decide +kernel) h
  | plain s ih => exact Yields.of_rule statement _ (by decide +kernel) ih
  | labelled label s ih =>
      exact Yields.of_rule statement _ (by decide +kernel)
        ((ih.keyword ":").label label)
  | one s ih =>
      exact Yields.of_rule statements _ (by decide +kernel)
        (ih.keyword lineBreak)
  | more before s ihbefore ih =>
      have h := ihbefore.append (ih.keyword lineBreak)
      unfold Stmt.translation at h
      rw [← List.flatMap_append] at h
      exact Yields.of_rule statements _ (by decide +kernel) h

theorem yields_definition (n : Names) :
    Yields [definition] (n.lexemes ++ [.keyword ":", .keyword "float"]) [] :=
  Yields.of_rule definition _ (by decide +kernel)
    ((yields_names n).append ((Yields.nil.keyword "float").keyword ":"))

theorem yields_definitions (d : Definitions) :
    Yields [definitions] d.lexemes [] := by
  induction d with
  | one n =>
      exact Yields.of_rule definitions _ (by decide +kernel)
        (yields_definition n)
  | more before n ih =>
      exact Yields.of_rule definitions _ (by decide +kernel)
        (ih.append ((yields_definition n).keyword ";"))

theorem yields_source (s : Source) :
    Yields [program] s.lexemes s.body.translation := by
  have hname := Yields.of_rule programName _ (by decide +kernel)
    ((Yields.nil.identifier s.name).keyword "program")
  have hdefinitions := Yields.of_rule closedDefinitions _ (by decide +kernel)
    (yields_definitions s.definitions)
  have hbody := (yields_block (yields_stmt s.body)).append_silent
    (Yields.nil.keyword "end")
  have hbegin := (hbody.keyword "begin").keyword lineBreak
  have hvar := ((hdefinitions.append hbegin).keyword "var").keyword lineBreak
  have h := hname.append hvar
  rw [List.append_assoc] at h
  exact Yields.of_rule program _ (by decide +kernel) h

end Language

end Reckon
