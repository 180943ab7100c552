import Reckon.Proofs.Pushdown.Errors
import Reckon.Proofs.Reduction.Program
import Reckon.Token.Reading

/-!
# Where reduction reports an error

The automaton reads on as long as neighbours are related, and whether they make
up a right-hand side is seen when a phrase has ended. So an error is noticed at
the token where the input stops being a program, or behind it: what is in front
of this token is read as it would be in a program, and there the automaton never
fails (`break_le`).

The line of the error is another matter. Where the next token is not related to
the top of the stack, the line is that of this token. All other errors are about
phrases that have been read, and these carry the line on which they begin,
wherever the offending token is. `Grammar.Blames` has the four cases. The
invariant behind it says what is on the stack: what was read, reduced as
`Grammar.Builds` has it.
-/

namespace Reckon

open Grammar (Generates Sentence)

/-! ## What an error says -/

namespace Grammar

/-- The terminals of the tokens are generated by a row of symbols. -/
def Phrase (g : Grammar) (form : List Symbol) (tokens : List Token) : Prop :=
  ∃ w, g.Classes tokens w ∧ Generates g form w

/-- The tokens end with a phrase for a symbol. If there are none, they end with
the mark in front of them. -/
def Ends (g : Grammar) (tokens : List Token) (s : Symbol) : Prop :=
  tokens = [] ∧ s = .endMark ∨
    ∃ front part, tokens = front ++ part ∧ g.Phrase [s] part

/-- What an error says when some tokens have been read and the others have not:
the next token or the end cannot follow, or a phrase cannot follow the one
before it, or some phrases are no right-hand side together. -/
inductive Blames (g : Grammar) :
    List Token → List Token → SyntaxError → Prop where
  | next {read unread : List Token} {t : Token} {l r : Symbol} :
      g.Ends read l → g.classify t = some r →
      Blames g read (t :: unread) (.noRelation l r t.line)
  | finish {read : List Token} {l : Symbol} :
      g.Ends read l →
      Blames g read [] (.noRelation l .endMark (Token.lastLine read))
  | neighbour {front rest behind unread : List Token} {t : Token}
      {l r : Symbol} : g.Ends front l → g.Phrase [r] (t :: rest) →
      Blames g (front ++ t :: rest ++ behind) unread (.noRelation l r t.line)
  | base {front rest unread : List Token} {t : Token} {form : List Symbol} :
      g.Phrase form (t :: rest) → g.find? form = none →
      Blames g (front ++ t :: rest) unread (.noProduction form t.line)

end Grammar

namespace Automaton

variable {g : Grammar} {table : Precedence} {line : Nat} {a b : Automaton}
  {es stack input read : List Entry} {e : SyntaxError}

/-! ## What is on the stack -/

/-- The entries `read` have been read and reduced to what is on the stack. -/
structure Tracks (g : Grammar) (es : List Entry) (line : Nat) (a : Automaton)
    (stack input read : List Entry) : Prop where
  spans : Spans a stack input
  unread : a.input = input ++ [endEntry line]
  entries : es = read ++ input
  builds : g.Builds stack.reverse read {} a.code

theorem Tracks.step (hbuilt : Precedence.ofGrammar g = .ok table)
    (h : Tracks g es line a stack input read) {action : Action}
    (hother : action ≠ .accept) (hmoves : Moves g table a action b) :
    ∃ stack' input' read', Tracks g es line b stack' input' read' := by
  cases action with
  | accept => exact absurd rfl hother
  | shift relation =>
      obtain ⟨next, rest, rfl, hspans⟩ := h.spans.shift hbuilt hmoves
      have hnext := h.spans.terminals next.symbol (by simp)
      refine ⟨next :: stack, rest, read ++ [next], hspans, ?_, ?_, ?_⟩
      · have hunread := h.unread
        cases hmoves
        injection hunread
      · rw [h.entries, List.append_assoc, List.singleton_append]
      · have hbuilds := h.builds
        cases hmoves
        rw [List.reverse_cons]
        exact hbuilds.append (.terminal hnext .nil)
  | reduce lhs rhs =>
      obtain ⟨p, hp, base, below, rfl, rfl, hbase, -, rfl, hspans, hcode, -⟩ :=
        h.spans.reduce hbuilt hmoves
      refine ⟨p.entry base :: below, input, read, hspans, ?_, h.entries, ?_⟩
      · rw [hmoves.input_eq, h.unread]
      · have hbuilds := h.builds
        rw [List.reverse_append, List.reverse_reverse] at hbuilds
        obtain ⟨eu, ev, middle, rfl, hu, hv⟩ := hbuilds.split
        rw [hcode, List.reverse_cons]
        refine hu.append ?_
        have hentry := Grammar.Builds.production hp hbase hv .nil
        rwa [List.append_nil] at hentry

theorem tracks_opening (h : Sentence (es.map Entry.symbol)) :
    Tracks g es line (opening es line) [] es [] :=
  ⟨spans_opening h, rfl, rfl, .nil⟩

/-- What is on the stack is always what has been read, reduced. -/
theorem Gets.tracks (hbuilt : Precedence.ofGrammar g = .ok table)
    (hes : Sentence (es.map Entry.symbol))
    (h : Gets g table (opening es line) a) :
    ∃ stack input read, Tracks g es line a stack input read := by
  induction h with
  | refl => exact ⟨_, _, _, tracks_opening hes⟩
  | tail _ hlast ih =>
      obtain ⟨stack, input, read, h⟩ := ih
      obtain ⟨action, hother, hstep⟩ := hlast
      exact h.step hbuilt hother (moves_of_step hstep)

/-! ## Errors -/

theorem phrase_of_builds {base : List Entry} {code after : Program}
    (hclasses : ∀ e ∈ es, g.classify e.token = some e.symbol)
    (h : g.Builds base es code after) :
    g.Phrase (base.map Entry.symbol) (es.map Entry.token) := by
  refine ⟨es.map Entry.symbol, ?_, h.generates⟩
  unfold Grammar.Classes
  rw [List.map_map, List.map_map]
  exact List.map_congr_left hclasses

/-- What has been read ends with a phrase for the top of the stack. -/
theorem ends_of_builds {top bottom : Entry} {below : List Entry}
    {code after : Program}
    (hclasses : ∀ e ∈ es, g.classify e.token = some e.symbol)
    (hbottom : bottom.symbol = .endMark)
    (h : g.Builds stack.reverse es code after)
    (htop : stack ++ [bottom] = top :: below) :
    g.Ends (es.map Entry.token) top.symbol := by
  cases stack with
  | nil =>
      injection htop with htop _
      cases h
      exact .inl ⟨rfl, htop ▸ hbottom⟩
  | cons first stack =>
      injection htop with htop _
      subst htop
      rw [List.reverse_cons] at h
      obtain ⟨eu, ev, middle, rfl, -, hv⟩ := h.split
      rw [List.map_append]
      exact .inr ⟨_, _, rfl, phrase_of_builds
        (fun e he => hclasses e (List.mem_append_right _ he)) hv⟩

theorem not_continues (hbuilt : Precedence.ofGrammar g = .ok table) {x : Entry}
    {behind : List Entry} (hx : x.symbol = .endMark) :
    ¬Continues table (x :: behind) := by
  cases behind with
  | nil => exact id
  | cons y behind =>
      rintro ⟨relation, hget, hless⟩
      rw [hx] at hget
      exact hless (Grammar.less_of_endMark hbuilt hget)

/-- Errors are about the next entry or what has been read, and on its line. -/
theorem Tracks.blames (hbuilt : Precedence.ofGrammar g = .ok table)
    (hfull : ∀ p ∈ g.productions, p.rhs ≠ [])
    (hclasses : ∀ e ∈ es, g.classify e.token = some e.symbol)
    (h : Tracks g es (Token.lastLine (es.map Entry.token)) a stack input read)
    (hfails : Fails g table a e) :
    g.Blames (read.map Entry.token) (input.map Entry.token) e := by
  obtain ⟨bottom, hstack, hbottom⟩ := h.spans.stacked
  have hunread := h.unread
  have hread : ∀ e ∈ read, g.classify e.token = some e.symbol := fun e he =>
    hclasses e (h.entries ▸ List.mem_append_left _ he)
  have hbuilds := h.builds
  cases hfails with
  | exhausted hnone =>
      rw [hstack, hunread] at hnone
      simp at hnone
  | next hnone =>
      simp only [] at hstack hunread
      have hends := ends_of_builds hread hbottom hbuilds hstack.symm
      cases input with
      | nil =>
          injection hunread with hnext _
          subst hnext
          rw [h.entries, List.append_nil]
          exact .finish hends
      | cons i input =>
          injection hunread with hnext _
          subst hnext
          refine .next hends (hclasses _ ?_)
          rw [h.entries]
          simp
  | @neighbour x y above below _ code n hnone =>
      simp only [] at hstack hbuilds
      obtain ⟨low, hlow, rfl⟩ := exists_low (List.cons_ne_nil x below)
        ((List.append_cons ..).symm.trans hstack)
      rw [List.reverse_append, List.reverse_append] at hbuilds
      obtain ⟨front, _, _, rfl, hfront, hbehind⟩ := hbuilds.split
      obtain ⟨part, behind, _, rfl, hpart, -⟩ := hbehind.split
      obtain ⟨t, rest, rfl, hline⟩ := hpart.line hfull
      have hends := ends_of_builds
        (fun e he => hread e (List.mem_append_left _ he)) hbottom
          hfront hlow.symm
      have hphrase := phrase_of_builds (fun e he => hread e
        (List.mem_append_right _ (List.mem_append_left _ he))) hpart
      rw [← List.append_assoc, List.map_append, List.map_append, List.map_cons,
        hline]
      exact .neighbour hends hphrase
  | @base first others below _ code n hnone hcontinues =>
      simp only [] at hstack hbuilds
      -- the mark at the bottom is in no base, since it comes less than all else
      have hne : below ≠ [] := by
        rintro rfl
        rw [List.append_nil, List.reverse_cons] at hstack
        obtain ⟨-, hfirst⟩ := List.append_inj' hstack rfl
        injection hfirst with hfirst _
        exact not_continues hbuilt (hfirst ▸ hbottom) hcontinues
      obtain ⟨low, rfl, rfl⟩ := exists_low hne hstack
      rw [List.reverse_append, List.reverse_reverse] at hbuilds
      obtain ⟨front, part, middle, rfl, -, hpart⟩ := hbuilds.split
      obtain ⟨t, rest, rfl, hline⟩ := hpart.line hfull
      rw [List.map_append, List.map_cons, hline]
      exact .base (phrase_of_builds
        (fun e he => hread e (List.mem_append_right _ he)) hpart) hnone

/-! ## Inputs with a common beginning -/

/-- What fails before it has read a beginning fails for every input that has
this beginning. -/
theorem Gets.not_parse {u v v' : List Token} {parsed : Parsed}
    (hes : classifyAll g (u ++ v) = .ok es)
    (h : Gets g table (opening es line) a)
    (hleft : v.length + 1 < a.input.length)
    (herror : step g table a = .error e) :
    parse g table (u ++ v') ≠ .ok parsed := by
  intro hparse
  obtain ⟨eu, ev, rfl, hu, hv⟩ := classifyAll_split hes
  cases hes' : classifyAll g (u ++ v') with
  | error e' =>
      rw [parse_of_classifyAll_error hes'] at hparse
      cases hparse
  | ok es' =>
      obtain ⟨eu', ev', rfl, hu', -⟩ := classifyAll_split hes'
      obtain rfl : eu = eu' := Except.ok.inj (hu.symm.trans hu')
      rw [parse_of_classifyAll hes', opening, List.append_assoc] at hparse
      rw [opening, List.append_assoc] at h
      have hlength := length_of_classifyAll hv
      obtain ⟨b, next, rest, hgets, hstack, hinput, hinput'⟩ :=
        h.twin (by simpa [hlength] using hleft)
      obtain ⟨action, c, hstep⟩ := hgets.exists_step hparse
      -- the two automata have one stack and one next entry
      obtain ⟨c', hstep', -⟩ := step_congr hstep hstack.symm hinput' hinput
      rw [hstep'] at herror
      cases herror

end Automaton

deriving instance DecidableEq for Entry, Lexicon, Reading

/-! ## Errors of the language -/

namespace Language

open Automaton
open Reckon.Symbol (identifier keyword)

variable {table : Precedence} {tokens : List Token} {es : List Entry}
  {a : Automaton} {k : Nat} {e : SyntaxError}

/-- The budget does not run out, so an error is one of some action. -/
theorem exists_step_error (hes : classifyAll grammar tokens = .ok es)
    (h : Automaton.parse grammar table tokens = .error e) :
    ∃ b, Gets grammar table (opening es (Token.lastLine tokens)) b ∧
      step grammar table b = .error e := by
  rw [parse_of_classifyAll hes] at h
  refine run_error ranked ?_ h
  have hlength := length_of_classifyAll hes
  have hproductions : 13 ≤ grammar.productions.length := by decide +kernel
  have hbudget : (2 * tokens.length + 4) * 15 ≤ budget grammar tokens.length :=
    Nat.mul_le_mul_left _ (by omega)
  refine Nat.lt_of_lt_of_le ?_ hbudget
  have hrank := ranked.bounded Symbol.endMark
  simp only [weight, opening, List.length_append, List.length_cons,
    List.length_nil, List.head?_cons, Option.map_some, Option.getD_some,
    endEntry, hlength]
  omega

/-- The error of the language is that of the place where the
automaton gets stuck. -/
theorem parse_of_gets (hbuilt : precedence = .ok table)
    (hes : classifyAll grammar tokens = .ok es)
    (hgets : Gets grammar table (opening es (Token.lastLine tokens)) a)
    (herror : step grammar table a = .error e) :
    parse tokens = .error (.illFormed e) := by
  refine (parse_eq_error_iff hbuilt).mpr ⟨e, ?_, rfl⟩
  cases hparse : Automaton.parse grammar table tokens with
  | ok parsed =>
      rw [parse_of_classifyAll hes] at hparse
      obtain ⟨action, c, hstep⟩ := hgets.exists_step hparse
      rw [herror] at hstep
      cases hstep
  | error e' =>
      obtain ⟨c, hgets', hc⟩ := exists_step_error hes hparse
      rw [hgets.error_unique hgets' herror hc]

/-- The automaton does not fail in front of the place where tokens stop being a
program: a program with the same beginning would fail too. -/
theorem break_le (hbuilt : precedence = .ok table)
    (hes : classifyAll grammar tokens = .ok es) {stack input read : List Entry}
    (hgets : Gets grammar table (opening es (Token.lastLine tokens)) a)
    (htracks : Tracks grammar es (Token.lastLine tokens) a stack input read)
    (herror : step grammar table a = .error e) (hbreaks : Breaks tokens k) :
    k ≤ read.length := by
  by_cases hle : k ≤ read.length
  · exact hle
  · exfalso
    have hlt : read.length + 1 ≤ k := by omega
    obtain ⟨rest, hprogram⟩ := hbreaks.viable.take hlt
    obtain ⟨parsed, hparsed⟩ := parse_ok_iff.mpr hprogram
    obtain ⟨table', hbuilt', hparse⟩ := parse_eq_ok_iff.mp hparsed
    obtain rfl : table = table' := Except.ok.inj (hbuilt.symm.trans hbuilt')
    rw [← List.take_append_drop (read.length + 1) tokens] at hes
    refine hgets.not_parse hes ?_ herror hparse
    have hlength := length_of_classifyAll hes
    rw [List.take_append_drop, htracks.entries, List.length_append] at hlength
    have := hbreaks.le
    rw [htracks.unread, List.length_append, List.length_drop,
      List.length_singleton]
    omega

/-- What is no program is reported in one of two ways. Either some token is of
no class, and then the first of these is reported, on its line. Or else the
tokens up to where they stop being a program have been read, and perhaps more,
and the error is about the next token or about what has been read. -/
theorem blames_of_parse {e : ParseError} (h : parse tokens = .error e) :
    (∃ front t rest, tokens = front ++ t :: rest ∧
      (∀ x ∈ front, grammar.classify x ≠ none) ∧ grammar.classify t = none ∧
      e = .illFormed (.unknownToken t.text t.line)) ∨
    ∃ read unread cause k, tokens = read ++ unread ∧ e = .illFormed cause ∧
      Breaks tokens k ∧ k ≤ read.length ∧ grammar.Blames read unread cause := by
  obtain ⟨table, hbuilt⟩ := exists_precedence
  obtain ⟨cause, hcause, rfl⟩ := (parse_eq_error_iff hbuilt).mp h
  cases hes : classifyAll grammar tokens with
  | error unknown =>
      rw [parse_of_classifyAll_error hes] at hcause
      obtain ⟨front, t, rest, htokens, hfront, ht, rfl⟩ := classifyAll_error hes
      cases hcause
      exact .inl ⟨front, t, rest, htokens, hfront, ht, rfl⟩
  | ok es =>
      obtain ⟨htokens, hclasses⟩ := entries_of_classifyAll hes
      obtain ⟨a, hgets, herror⟩ := exists_step_error hes hcause
      obtain ⟨stack, input, read, htracks⟩ :=
        hgets.tracks hbuilt (classes_of_classifyAll hes).sentence
      have hbroken : ¬IsProgram tokens := fun hprogram => by
        obtain ⟨parsed, hparsed⟩ := parse_ok_iff.mpr hprogram
        rw [h] at hparsed
        cases hparsed
      obtain ⟨k, -, hbreaks, -⟩ := Pushdown.exists_breaks hbroken
      have hle := break_le hbuilt hes hgets htracks herror hbreaks
      rw [← htokens] at htracks
      refine .inr ⟨read.map Entry.token, input.map Entry.token, cause, k, ?_,
        rfl, hbreaks, ?_,
        htracks.blames hbuilt rhs_ne_nil hclasses (fails_of_step herror)⟩
      · rw [← htokens, htracks.entries, List.map_append]
      · rwa [List.length_map]

/-! ## A program without declarations -/

/-- A header and, on the next line, what comes behind the declarations. -/
def undeclared : List Token :=
  [.keyword "program" 1, .word (.identifier "p") 1 (some 0),
    .keyword lineBreak 1, .keyword "begin" 2]

/-- The tokens with their classes. -/
def undeclaredEntries : List Entry :=
  [⟨keyword "program", .keyword "program" 1⟩,
    ⟨identifier, .word (.identifier "p") 1 (some 0)⟩,
    ⟨newLine, .keyword lineBreak 1⟩, ⟨keyword "begin", .keyword "begin" 2⟩]

theorem undeclared_parse : parse undeclared =
    .error (.illFormed
      (.noProduction [programName, newLine, keyword "begin"] 1)) := by
  obtain ⟨table, hbuilt⟩ := exists_precedence
  have hless : ∀ s ∈ grammar.occurrences, table.get? .endMark s = some .less :=
    fun s h => (fit hbuilt).get?_of_required (Grammar.endMark_less_required h)
  have hequal :
      ∀ l r, (l, r) ∈ grammar.neighbours → table.get? l r = some .equal :=
    fun l r h => (fit hbuilt).get?_of_required (Grammar.equal_required h)
  have hprogram := hless (keyword "program") (by decide +kernel)
  have hheader := hless programName (by decide +kernel)
  have hnamed := hequal (keyword "program") identifier (by decide +kernel)
  have hlines := hequal programName newLine (by decide +kernel)
  have hbegins := hequal newLine (keyword "begin") (by decide +kernel)
  have hname : table.get? identifier newLine = some .more :=
    (fit hbuilt).get?_of_required (Grammar.more_required (l := programName)
      (by decide +kernel) rfl rfl (by decide +kernel))
  have hend : table.get? (keyword "begin") .endMark = some .more :=
    (fit hbuilt).get?_of_required
      (Grammar.more_endMark_required (by decide +kernel))
  have hes : classifyAll grammar undeclared = .ok undeclaredEntries := by
    decide +kernel
  let header : Production :=
    ⟨programName, [keyword "program", identifier], none⟩
  have hfind : grammar.find? header.rhs = some header :=
    (fit hbuilt).find?_rhs (by decide +kernel)
  have hfails :
      grammar.find? [programName, newLine, keyword "begin"] = none := by
    decide +kernel
  have hstart : Gets grammar table (opening undeclaredEntries 2) _ := .refl
  have hread := (hstart.shift (by decide) hprogram (by decide)).shift
    (by decide) hnamed (by decide)
  have hheaded := hread.reduce (by decide) hname
    (by simp only [splitBase, endEntry, hnamed, hprogram]; rfl) rfl hfind
  have hgets := (hheaded.shift (by decide) hlines (by decide)).shift
    (by decide) hbegins (by decide)
  refine parse_of_gets hbuilt hes hgets ?_
  apply step_fail ?accept hend ?split ?symbols ?line hfails
  case accept => decide
  case split =>
    simp only [splitBase, Production.entry, header, hbegins, hlines, hheader]
    rfl
  all_goals rfl

theorem undeclared_breaks : Breaks undeclared 3 where
  le := by decide
  viable := by
    let source : Source :=
      ⟨"p", .one ⟨"x", []⟩, .one (.plain (.transfer .write ⟨"x", []⟩))⟩
    have hsource := List.take_append_drop 3 source.lexemes
    exact viable_of_spells hsource rfl
  broken := by
    rintro - ⟨rest, hprogram⟩
    obtain ⟨source, hspells⟩ := isProgram_iff.mp hprogram
    simp [Spells, undeclared, Source.lexemes, Token.lexeme?, Token.keyword]
      at hspells

theorem undeclared_blamed : ∃ read unread cause,
    parse undeclared = .error (.illFormed cause) ∧ undeclared = read ++ unread ∧
      3 ≤ read.length ∧ grammar.Blames read unread cause := by
  rcases blames_of_parse undeclared_parse with
    ⟨_, _, _, -, -, -, he⟩ | ⟨read, unread, cause, k, htokens, he, hbreaks,
      hle, hblames⟩
  · cases he
  · obtain rfl := hbreaks.unique undeclared_breaks
    exact ⟨read, unread, cause, he ▸ undeclared_parse, htokens, hle, hblames⟩

/-- The header is blamed, and the offending word is on the line below. -/
theorem undeclared_misplaced : ∃ reading cause k,
    Reading.ofText "program p\nbegin" = .ok reading ∧
      parse reading.tokens = .error (.illFormed cause) ∧
      Breaks reading.tokens k ∧
      cause.line = 1 ∧ reading.tokens[k]?.map Token.line = some 2 := by
  have hread : Reading.ofText "program p\nbegin" =
      .ok ⟨undeclared, ⟨["p"], [], []⟩⟩ := by decide +kernel
  exact ⟨_, _, 3, hread, undeclared_parse, undeclared_breaks, rfl, rfl⟩

end Language

end Reckon
