import Reckon.Proofs.Grammar.Derivation
import Reckon.Proofs.Syntax.Spelling

/-!
# The terminals of tokens

A grammar tells tokens apart by their terminals only, and a terminal only looks
at the lexeme. So a row of tokens says two things: its lexemes, which are what
a program is about, and their terminals, which are what a grammar derives.
`classes_iff` relates them.
-/

namespace Reckon

/-- The symbol that stands for a lexeme. -/
def Lexeme.symbol : Lexeme → Symbol
  | identifier _ => .identifier
  | constant _ => .constant
  | label _ => .label
  | keyword text => .keyword text
  | nonterminal name => .nonterminal name

/-- A terminal accepts the words that it stands for. -/
theorem Symbol.accepts_iff {s : Symbol} {token : Token} :
    s.accepts token = true ↔
      s.isTerminal = true ∧ token.lexeme?.map Lexeme.symbol = some s := by
  cases token with
  | phrase parts line =>
      cases s <;> simp [accepts, Token.lexeme?]
  | word lexeme line index =>
      cases s <;> cases lexeme <;>
        simp [accepts, isTerminal, Token.lexeme?, Lexeme.symbol]
      exact eq_comm

namespace Grammar

variable {g : Grammar} {token : Token} {s : Symbol} {tokens : List Token}
  {w : List Symbol}

theorem mem_terminals_iff :
    s ∈ g.terminals ↔ s ∈ g.occurrences ∧ s.isTerminal = true := by
  unfold terminals
  rw [List.mem_eraseDups, List.mem_filter]

/-- No two terminals accept one token, so it does not matter which of them is
asked first. -/
theorem classify_eq_some_iff : g.classify token = some s ↔
    token.lexeme?.map Lexeme.symbol = some s ∧ s ∈ g.terminals := by
  constructor
  · intro h
    have haccepts := List.find?_some h
    exact ⟨(Symbol.accepts_iff.mp haccepts).2, List.mem_of_find?_eq_some h⟩
  · rintro ⟨hlexeme, hmem⟩
    have haccepts : s.accepts token = true :=
      Symbol.accepts_iff.mpr ⟨(mem_terminals_iff.mp hmem).2, hlexeme⟩
    cases hfind : g.classify token with
    | none =>
        have hrefused := List.find?_eq_none.mp hfind s hmem
        exact absurd haccepts hrefused
    | some other =>
        have hother := List.find?_some hfind
        rw [← hlexeme]
        exact (Symbol.accepts_iff.mp hother).2.symm

/-- The terminals of some tokens, all of which have one. -/
def Classes (g : Grammar) (tokens : List Token) (w : List Symbol) : Prop :=
  tokens.map g.classify = w.map some

/-- The terminals of tokens are those of the lexemes they spell. -/
theorem classes_iff : g.Classes tokens w ↔
    ∃ lexemes, Spells tokens lexemes ∧ lexemes.map Lexeme.symbol = w ∧
      ∀ s ∈ w, s ∈ g.terminals := by
  induction tokens generalizing w with
  | nil =>
      constructor
      · intro h
        obtain rfl := List.map_eq_nil_iff.mp h.symm
        exact ⟨[], rfl, rfl, fun s hs => absurd hs List.not_mem_nil⟩
      · rintro ⟨lexemes, hspells, rfl, -⟩
        obtain rfl := List.map_eq_nil_iff.mp hspells.symm
        rfl
  | cons token rest ih =>
      constructor
      · intro h
        obtain ⟨s, v, rfl, hs, hv⟩ := List.map_eq_cons_iff.mp h.symm
        obtain ⟨lexemes, hspells, rfl, hterminals⟩ := ih.mp hv.symm
        obtain ⟨hlexeme, hmem⟩ := classify_eq_some_iff.mp hs.symm
        obtain ⟨x, hx, rfl⟩ := Option.map_eq_some_iff.mp hlexeme
        refine ⟨x :: lexemes, hspells.cons hx, rfl, ?_⟩
        intro s hs
        rcases List.mem_cons.mp hs with rfl | hs
        · exact hmem
        · exact hterminals s hs
      · rintro ⟨lexemes, hspells, rfl, hterminals⟩
        obtain ⟨x, lexemes, rfl, hx, hrest⟩ :=
          List.map_eq_cons_iff.mp hspells.symm
        have hclass : g.classify token = some x.symbol :=
          classify_eq_some_iff.mpr
            ⟨by rw [← hx]; rfl, hterminals _ List.mem_cons_self⟩
        have htail : g.Classes rest (lexemes.map Lexeme.symbol) :=
          ih.mpr ⟨lexemes, hrest.symm, rfl, fun s hs =>
            hterminals s (List.mem_cons_of_mem _ hs)⟩
        unfold Classes at htail ⊢
        rw [List.map_cons, hclass, htail]
        rfl

theorem Classes.sentence (h : g.Classes tokens w) : Sentence w := by
  obtain ⟨lexemes, -, -, hterminals⟩ := classes_iff.mp h
  exact fun s hs => (mem_terminals_iff.mp (hterminals s hs)).2

/-- What is generated consists of terminals of the grammar. -/
theorem Generates.mem_terminals {form : List Symbol} (h : Generates g form w)
    (hform : ∀ s ∈ form, s.isTerminal = true → s ∈ g.terminals) :
    ∀ s ∈ w, s ∈ g.terminals := by
  induction h with
  | nil => exact fun s hs => absurd hs List.not_mem_nil
  | terminal ht _ ih =>
      intro s hs
      rcases List.mem_cons.mp hs with rfl | hs
      · exact hform s List.mem_cons_self ht
      · exact ih (fun t ht => hform t (List.mem_cons_of_mem _ ht)) s hs
  | @production p _ _ _ hp _ _ ihu ihv =>
      intro s hs
      rcases List.mem_append.mp hs with hs | hs
      · refine ihu (fun t ht hterminal => ?_) s hs
        have hoccurs : t ∈ g.occurrences := List.mem_flatMap.mpr ⟨p, hp, ht⟩
        exact mem_terminals_iff.mpr ⟨hoccurs, hterminal⟩
      · exact ihv (fun t ht => hform t (List.mem_cons_of_mem _ ht)) s hs

end Grammar

end Reckon
