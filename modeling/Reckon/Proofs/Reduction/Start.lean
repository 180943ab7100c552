import Reckon.Proofs.Grammar.Classes
import Reckon.Proofs.Reduction.Duration
import Reckon.Proofs.Reduction.Handle
import Reckon.Proofs.Reduction.Rightmost
import Reckon.Proofs.Results
import Reckon.Recogniser.Checker

/-!
# From tokens to a run and back

Before its first action the automaton gives each token its terminal. What is
known of runs becomes something known of tokens here, for any grammar that has a
table: what accepts if it is given time is accepted (`parse_of_accepts`), and
what is accepted has terminals that are derived as the reductions say
(`rightmost_of_parse`).
-/

namespace Reckon.Automaton

open Grammar (Sentence RightmostBy)

variable {g : Grammar} {table : Precedence} {tokens : List Token}
  {es : List Entry} {parsed : Parsed} {goal : Program → Prop} {line : Nat}

theorem classes_of_classifyAll {tokens : List Token} {es : List Entry}
    (h : classifyAll g tokens = .ok es) :
    g.Classes tokens (es.map Entry.symbol) := by
  induction tokens generalizing es with
  | nil =>
      rw [classifyAll] at h
      injection h with h
      subst h
      rfl
  | cons token rest ih =>
      rw [classifyAll] at h
      split at h
      · cases h
      · next s hs =>
          obtain ⟨later, hrest, hes⟩ := bind_eq_ok_iff.mp h
          obtain rfl := Except.ok.inj hes
          have htail := ih hrest
          unfold Grammar.Classes at htail ⊢
          rw [List.map_cons, hs, htail]
          rfl

theorem classifyAll_of_classes {tokens : List Token} {w : List Symbol}
    (h : g.Classes tokens w) :
    ∃ es, classifyAll g tokens = .ok es ∧ es.map Entry.symbol = w ∧
      es.map Entry.token = tokens := by
  induction tokens generalizing w with
  | nil =>
      obtain rfl := List.map_eq_nil_iff.mp h.symm
      exact ⟨[], rfl, rfl, rfl⟩
  | cons token rest ih =>
      unfold Grammar.Classes at h
      rw [List.map_cons] at h
      obtain ⟨s, w, rfl, hs, hw⟩ := List.map_eq_cons_iff.mp h.symm
      obtain ⟨es, hes, rfl, htokens⟩ := ih hw.symm
      refine ⟨⟨s, token⟩ :: es, ?_, rfl, congrArg (token :: ·) htokens⟩
      rw [classifyAll, ← hs, hes]
      rfl

theorem classifyAll_split {u v : List Token}
    (h : classifyAll g (u ++ v) = .ok es) :
    ∃ eu ev, es = eu ++ ev ∧ classifyAll g u = .ok eu ∧
      classifyAll g v = .ok ev := by
  induction u generalizing es with
  | nil => exact ⟨[], es, rfl, rfl, h⟩
  | cons token rest ih =>
      rw [List.cons_append, classifyAll] at h
      rw [classifyAll]
      split at h
      · cases h
      · next s hs =>
          obtain ⟨later, hrest, hes⟩ := bind_eq_ok_iff.mp h
          obtain ⟨eu, ev, rfl, hu, hv⟩ := ih hrest
          refine ⟨⟨s, token⟩ :: eu, ev, (Except.ok.inj hes).symm, ?_, hv⟩
          rw [hu]
          rfl

/-- The first token without a class is reported. -/
theorem classifyAll_error {e : SyntaxError}
    (h : classifyAll g tokens = .error e) :
    ∃ front t rest, tokens = front ++ t :: rest ∧
      (∀ x ∈ front, g.classify x ≠ none) ∧ g.classify t = none ∧
      e = .unknownToken t.text t.line := by
  induction tokens with
  | nil => cases h
  | cons token rest ih =>
      rw [classifyAll] at h
      split at h
      · next hnone =>
          injection h with h
          exact ⟨[], token, rest, rfl, nofun, hnone, h.symm⟩
      · next s hs =>
          rcases bind_eq_error_iff.mp h with hrest | ⟨later, -, hlater⟩
          · obtain ⟨front, t, behind, rfl, hfront, hnone, he⟩ := ih hrest
            refine ⟨token :: front, t, behind, rfl, ?_, hnone, he⟩
            exact List.forall_mem_cons.mpr ⟨by rw [hs]; nofun, hfront⟩
          · cases hlater

/-- The entries are the tokens with their classes. -/
theorem entries_of_classifyAll (h : classifyAll g tokens = .ok es) :
    es.map Entry.token = tokens ∧
      ∀ e ∈ es, g.classify e.token = some e.symbol := by
  have hclasses := classes_of_classifyAll h
  obtain ⟨es', h', -, htokens⟩ := classifyAll_of_classes hclasses
  rw [h] at h'
  injection h' with h'
  subst h'
  refine ⟨htokens, fun e he => ?_⟩
  unfold Grammar.Classes at hclasses
  rw [← htokens, List.map_map, List.map_map] at hclasses
  exact List.map_inj_left.mp hclasses e he

/-- The automaton before its first action, on entries made from tokens. -/
def opening (es : List Entry) (line : Nat) : Automaton :=
  { stack := [endEntry 0], input := es ++ [endEntry line] }

theorem parse_of_classifyAll {table : Precedence} {tokens : List Token}
    {es : List Entry} (h : classifyAll g tokens = .ok es) :
    parse g table tokens = run g table (Token.lastLine tokens)
      (budget g tokens.length) (opening es (Token.lastLine tokens)) := by
  unfold parse start
  rw [h]
  rfl

theorem parse_of_classifyAll_error {table : Precedence} {tokens : List Token}
    {e : SyntaxError} (h : classifyAll g tokens = .error e) :
    parse g table tokens = .error e := by
  unfold parse start
  rw [h]
  rfl

theorem length_of_classifyAll (h : classifyAll g tokens = .ok es) :
    es.length = tokens.length := by
  rw [← List.length_map Entry.symbol, ← List.length_map some,
    ← classes_of_classifyAll h, List.length_map]

theorem spans_opening (h : Sentence (es.map Entry.symbol)) :
    Spans (opening es line) [] es :=
  ⟨⟨_, rfl, rfl⟩, ⟨_, rfl, rfl⟩, h⟩

/-! ## What is accepted -/

/-- The budget of an input is enough to accept it. -/
theorem parse_of_accepts (hes : classifyAll g tokens = .ok es)
    (h : Accepts g table (Token.lastLine tokens) goal
      (opening es (Token.lastLine tokens))) :
    ∃ parsed, parse g table tokens = .ok parsed ∧ goal parsed.code := by
  obtain ⟨time, parsed, hrun, hcode⟩ := h
  refine ⟨parsed, ?_, hcode⟩
  rw [parse_of_classifyAll hes]
  refine run_budget hrun ?_
  have hlength := length_of_classifyAll hes
  simp only [opening, List.length_append, List.length_cons, List.length_nil]
  omega

/-- What is accepted has terminals, and the reductions read backwards derive
them from a row that ends with the start symbol. -/
theorem rightmost_of_parse (hbuilt : Precedence.ofGrammar g = .ok table)
    (hstart : g.start ≠ .endMark) (h : parse g table tokens = .ok parsed) :
    ∃ before w, g.Classes tokens w ∧
      RightmostBy g parsed.reduced.reverse (before ++ [g.start]) w ∧
      parsed.reductions = parsed.reduced.length ∧
      (Outermost g table → before = []) := by
  cases hes : classifyAll g tokens with
  | error e =>
      rw [parse_of_classifyAll_error hes] at h
      cases h
  | ok es =>
      rw [parse_of_classifyAll hes] at h
      have hw := classes_of_classifyAll hes
      obtain ⟨before, hright, hcount, hempty⟩ :=
        run_rightmost hbuilt hstart (spans_opening hw.sentence) h
      have hzero : (opening es (Token.lastLine tokens)).reductions = 0 := rfl
      refine ⟨before, _, hw, hright, ?_, fun out => hempty out .nil⟩
      rw [hcount, hzero, Nat.zero_add]

end Reckon.Automaton

namespace Reckon.Grammar

/-! ## With the table of a grammar -/

variable {g : Grammar} {table : Precedence} {tokens : List Token}
  {parsed : Parsed}

theorem parse_of_built (hbuilt : Precedence.ofGrammar g = .ok table) :
    g.parse tokens = (Automaton.parse g table tokens).mapError .illFormed := by
  unfold parse parseBy
  rw [hbuilt]
  rfl

/-- A grammar that accepts something has a table, and the automaton accepts
it. -/
theorem parse_eq_ok_iff : g.parse tokens = .ok parsed ↔
    ∃ table, Precedence.ofGrammar g = .ok table ∧
      Automaton.parse g table tokens = .ok parsed := by
  unfold parse parseBy
  rw [bind_eq_ok_iff]
  exact exists_congr fun table =>
    and_congr mapError_eq_ok_iff mapError_eq_ok_iff

end Reckon.Grammar
