import Reckon.Proofs.Reduction.Program

/-!
# Every run ends

A run can only fail to end by reducing single symbols for ever, and then it
would come back to one of them: they are followed by left-hand sides, of which
there are finitely many. So where the reductions of single symbols do not go
round in a circle, counting the left-hand sides that are still ahead of a symbol
ranks the symbols (`ranked`), and this is what the weight of an automaton needs
to become less with every action.

The rest is counting. Each shift reads an entry that is not the end mark, so
there are no more shifts than tokens; a stack grows by shifts only; and the
search for a base stays inside the stack. The language has its weights for a
rank, so its runs end too.
-/

namespace Reckon.Grammar

variable {g : Grammar} {s t : Symbol}

/-- A symbol that is a base on its own is reduced to the left-hand side of the
first production that has it. -/
def ReducesTo (g : Grammar) (s t : Symbol) : Prop :=
  ∃ p, g.find? [s] = some p ∧ p.lhs = t

/-- Reductions of single symbols do not go round in a circle. -/
def Acyclic (g : Grammar) : Prop := ∀ s, ¬ Relation.TransGen g.ReducesTo s s

open Classical in
/-- The productions whose left-hand sides a symbol can be reduced to by and
by. -/
noncomputable def ahead (g : Grammar) (s : Symbol) : Finset Production :=
  {p ∈ g.productions.toFinset | Relation.TransGen g.ReducesTo s p.lhs}

theorem mem_ahead_iff {p : Production} :
    p ∈ g.ahead s ↔
      p ∈ g.productions ∧ Relation.TransGen g.ReducesTo s p.lhs := by
  classical
  simp only [ahead, Finset.mem_filter, List.mem_toFinset]

theorem card_ahead_le (s : Symbol) :
    (g.ahead s).card ≤ g.productions.length := by
  classical
  exact (Finset.card_filter_le _ _).trans (List.toFinset_card_le _)

/-- Without a circle a left-hand side is behind when it has been reached. -/
theorem Acyclic.card_ahead_lt (h : g.Acyclic) (hst : g.ReducesTo s t) :
    (g.ahead t).card < (g.ahead s).card := by
  obtain ⟨p, hfind, rfl⟩ := hst
  have hfirst : g.ReducesTo s p.lhs := ⟨p, hfind, rfl⟩
  refine Finset.card_lt_card
    ((Finset.ssubset_iff_of_subset fun q hq => ?_).mpr ⟨p, ?_, ?_⟩)
  · obtain ⟨hmem, hlater⟩ := mem_ahead_iff.mp hq
    exact mem_ahead_iff.mpr ⟨hmem, .head hfirst hlater⟩
  · exact mem_ahead_iff.mpr ⟨(find?_ok hfind).1, .single hfirst⟩
  · exact fun hp => h _ (mem_ahead_iff.mp hp).2

theorem Acyclic.ranked (h : g.Acyclic) :
    Automaton.Ranked g (fun s => (g.ahead s).card) g.productions.length where
  bounded := card_ahead_le
  climbs _ p hfind hrhs := h.card_ahead_lt ⟨p, hrhs ▸ hfind, rfl⟩

/-- A rank rules circles out. -/
theorem acyclic_of_ranked {rank : Symbol → Nat} {bound : Nat}
    (hrank : Automaton.Ranked g rank bound) : g.Acyclic := by
  have hclimbs :
      ∀ {s t}, Relation.TransGen g.ReducesTo s t → rank t < rank s := by
    have hone : ∀ {s t}, g.ReducesTo s t → rank t < rank s := by
      rintro s _ ⟨p, hfind, rfl⟩
      have hrhs := (find?_ok hfind).2
      exact hrank.climbs s p (hrhs ▸ hfind) hrhs
    intro s t h
    induction h with
    | single hst => exact hone hst
    | tail _ hst ih => exact (hone hst).trans ih
  exact fun s h => Nat.lt_irrefl _ (hclimbs h)

end Reckon.Grammar

namespace Reckon.Automaton

variable {g : Grammar} {table : Precedence} {line : Nat} {a b : Automaton}
  {n k : Nat} {rank : Symbol → Nat} {bound : Nat}

/-! ## Counted actions -/

/-- So many actions lead from one automaton to another, so many of them
shifts. -/
inductive Acts (g : Grammar) (table : Precedence) :
    Nat → Nat → Automaton → Automaton → Prop where
  | refl (a : Automaton) : Acts g table 0 0 a a
  | shift {n k : Nat} {a b c : Automaton} {relation : Relation} :
      step g table a = .ok (.shift relation, b) → Acts g table n k b c →
      Acts g table (n + 1) (k + 1) a c
  | reduce {n k : Nat} {a b c : Automaton} {lhs : Symbol} {base : List Symbol} :
      step g table a = .ok (.reduce lhs base, b) → Acts g table n k b c →
      Acts g table (n + 1) k a c

/-- Where the automaton stops, and with what answer: it accepts with the code
that is out, or there is an error in place of an action. -/
inductive Stops (g : Grammar) (table : Precedence) (a : Automaton) :
    Except SyntaxError Parsed → Prop where
  | accept {b : Automaton} {parsed : Parsed} :
      step g table a = .ok (.accept, b) →
      parsed.code = b.code → parsed.reductions = b.reductions →
      Stops g table a (.ok parsed)
  | error {e : SyntaxError} :
      step g table a = .error e → Stops g table a (.error e)

theorem Acts.weight_le (hrank : Ranked g rank bound)
    (h : Acts g table n k a b) :
    weight rank bound b + n ≤ weight rank bound a := by
  induction h with
  | refl => exact Nat.le_refl _
  | shift hstep _ ih | reduce hstep _ ih =>
      have := weight_lt hrank (moves_of_step hstep) nofun
      omega

/-- The entries still to be read, apart from end marks. -/
def unread (a : Automaton) : Nat := a.input.countP fun e => e.symbol ≠ .endMark

/-- The end mark is never shifted, for whatever comes before it comes more. -/
theorem Acts.unread_eq (hbuilt : Precedence.ofGrammar g = .ok table)
    (h : Acts g table n k a b) : b.unread + k = a.unread := by
  induction h with
  | refl => rfl
  | shift hstep _ ih =>
      cases moves_of_step hstep with
      | @shift top next below rest code m _ hget hmore =>
          have hnext : next.symbol ≠ .endMark := fun hend =>
            hmore (Grammar.more_of_endMark hbuilt (hend ▸ hget))
          have hread : unread ⟨top :: below, next :: rest, code, m⟩ =
              unread ⟨next :: top :: below, rest, code, m⟩ + 1 :=
            List.countP_cons_of_pos (decide_eq_true hnext)
          omega
  | reduce hstep _ ih =>
      cases moves_of_step hstep
      exact ih

/-- A reduction takes at least the entry for which it puts one. -/
theorem Acts.stack_le (h : Acts g table n k a b) :
    b.stack.length ≤ a.stack.length + k := by
  induction h with
  | refl => exact Nat.le_refl _
  | shift hstep _ ih =>
      cases moves_of_step hstep
      simp only [List.length_cons] at ih ⊢
      omega
  | reduce hstep _ ih =>
      cases moves_of_step hstep with
      | reduce _ _ hfull =>
          have := List.length_pos_iff.mpr hfull
          simp only [List.length_cons, List.length_append, List.length_reverse]
            at ih ⊢
          omega

/-- The search for a base ends inside the stack: it takes entries from the top,
or it finds two neighbours without a relation. -/
theorem splitBase_ends (table : Precedence) (top : Entry) (below : List Entry) :
    (∃ base low, splitBase table top [] below = .ok (base, low) ∧
      base.reverse ++ low = top :: below) ∨
    ∃ above x y low, top :: below = above ++ y :: x :: low ∧
      splitBase table top [] below =
        .error (.noRelation x.symbol y.symbol y.token.line) := by
  cases hsplit : splitBase table top [] below with
  | error e =>
      obtain ⟨above, x, y, low, hstack, -, rfl⟩ := splitBase_error hsplit
      exact .inr ⟨above, x, y, low, hstack, rfl⟩
  | ok pair =>
      obtain ⟨base, low⟩ := pair
      obtain ⟨taken, rfl, rfl, -⟩ := splitBase_ok hsplit
      exact .inl ⟨_, low, rfl, by simp⟩

/-! ## Runs -/

/-- A run whose weight is within the budget gives the answer of the
place where it stops. -/
theorem run_stops (hrank : Ranked g rank bound) {budget : Nat} :
    ∀ {a : Automaton}, weight rank bound a < budget → ∃ n k b,
      Acts g table n k a b ∧ Stops g table b (run g table line budget a) := by
  induction budget with
  | zero => intro a hweight; omega
  | succ budget ih =>
      intro a hweight
      cases hstep : step g table a with
      | error e =>
          rw [run_of_error hstep]
          exact ⟨0, 0, a, .refl a, .error hstep⟩
      | ok pair =>
          obtain ⟨action, b⟩ := pair
          by_cases hother : action = .accept
          · subst hother
            rw [run_of_accept hstep]
            exact ⟨0, 0, a, .refl a, .accept hstep rfl rfl⟩
          · have hlt := weight_lt hrank (moves_of_step hstep) hother
            obtain ⟨n, k, c, hacts, hstops⟩ := ih (a := b) (by omega)
            obtain ⟨k', hacts'⟩ : ∃ k', Acts g table (n + 1) k' a c := by
              cases action with
              | accept => exact absurd rfl hother
              | shift relation => exact ⟨k + 1, .shift hstep hacts⟩
              | reduce lhs base => exact ⟨k, .reduce hstep hacts⟩
            refine ⟨n + 1, k', c, hacts', ?_⟩
            rw [run_of_act hother hstep]
            cases hlater : run g table line budget b with
            | error e =>
                rw [hlater] at hstops
                cases hstops with
                | error hc => exact .error hc
            | ok later =>
                rw [hlater] at hstops
                cases hstops with
                | accept hc hcode hreductions =>
                    exact .accept hc hcode hreductions

theorem weight_opening_lt (es : List Entry) (line : Nat)
    (hrank : Ranked g rank g.productions.length) :
    weight rank g.productions.length (opening es line) <
      budget g es.length := by
  have hbound := hrank.bounded (endEntry 0).symbol
  unfold weight opening budget
  simp only [List.length_append, List.length_cons, List.length_nil,
    List.head?_cons, Option.map_some, Option.getD_some]
  calc (2 * (es.length + (0 + 1)) + (0 + 1)) * (g.productions.length + 1) +
        rank (endEntry 0).symbol
      ≤ (2 * es.length + 3) * (g.productions.length + 1) +
        g.productions.length := by
        rw [show 2 * (es.length + (0 + 1)) + (0 + 1) =
          2 * es.length + 3 by omega]
        omega
    _ < (2 * es.length + 3) * (g.productions.length + 2) +
        (g.productions.length + 2) :=
      Nat.add_lt_add_of_le_of_lt (Nat.mul_le_mul_left _ (by omega)) (by omega)
    _ = (2 * es.length + 4) * (g.productions.length + 2) :=
      (Nat.succ_mul _ _).symm

/-- On a grammar that has a table and no circle of reductions of single symbols,
the automaton comes to an end on every row of tokens, with no more shifts than
there are tokens, and every search for a base ends inside the stack. The
language is such a grammar. -/
theorem parse_stops :
    (∀ (g : Grammar) (table : Precedence), Precedence.ofGrammar g = .ok table →
      g.Acyclic → ∀ tokens : List Token,
        (∃ e, start g tokens = .error e ∧ parse g table tokens = .error e) ∨
        ∃ a, start g tokens = .ok a ∧
          (∃ n k b, Acts g table n k a b ∧
            Stops g table b (parse g table tokens)) ∧
          ∀ n k b, Acts g table n k a b →
            n < budget g tokens.length ∧ k ≤ tokens.length ∧
            b.stack.length ≤ k + 1 ∧ ∀ top below, b.stack = top :: below →
              (∃ base low, splitBase table top [] below = .ok (base, low) ∧
                base.reverse ++ low = top :: below) ∨
              ∃ above x y low, top :: below = above ++ y :: x :: low ∧
                splitBase table top [] below =
                  .error (.noRelation x.symbol y.symbol y.token.line)) ∧
    (∃ table, Precedence.ofGrammar Language.grammar = .ok table) ∧
      Language.grammar.Acyclic := by
  refine ⟨fun g table hbuilt hacyclic tokens => ?_, Language.exists_precedence,
    Grammar.acyclic_of_ranked Language.ranked⟩
  cases hes : classifyAll g tokens with
  | error e =>
      refine .inl ⟨e, ?_, parse_of_classifyAll_error hes⟩
      rw [start, hes]
      rfl
  | ok es =>
      have hlength := length_of_classifyAll hes
      refine .inr ⟨opening es (Token.lastLine tokens), ?_, ?_, ?_⟩
      · rw [start, hes]
        rfl
      · rw [parse_of_classifyAll hes, ← hlength]
        exact run_stops hacyclic.ranked (weight_opening_lt es _ hacyclic.ranked)
      · intro n k b hacts
        have hweight := hacts.weight_le hacyclic.ranked
        have hbudget :=
          weight_opening_lt es (Token.lastLine tokens) hacyclic.ranked
        have hunread := hacts.unread_eq hbuilt
        have hread :
            (opening es (Token.lastLine tokens)).unread ≤ es.length := by
          unfold unread opening
          rw [List.countP_append, List.countP_cons_of_neg (by simp [endEntry])]
          exact List.countP_le_length
        refine ⟨by rw [← hlength]; omega, by omega, ?_,
          fun top below _ => splitBase_ends table top below⟩
        have hstack := hacts.stack_le
        simp only [opening, List.length_cons, List.length_nil] at hstack
        omega

/-- A lone `begin` is no program, and the automaton stops on it all the
same: there is nothing to be shifted behind it, however long the automaton
goes on reducing. -/
theorem lone_begin_stops : ∃ table a,
    Precedence.ofGrammar Language.grammar = .ok table ∧
    Language.grammar.Acyclic ∧
      start Language.grammar [.keyword "begin" 1] = .ok a ∧
        (∃ n k b, Acts Language.grammar table n k a b ∧
          Stops Language.grammar table b
          (parse Language.grammar table [.keyword "begin" 1])) ∧
        ∀ n k b, Acts Language.grammar table n k a b → k ≤ 1 := by
  obtain ⟨hends, ⟨table, hbuilt⟩, hacyclic⟩ := parse_stops
  have hclassified :
      (start Language.grammar [.keyword "begin" 1]).isOk = true := by
    decide +kernel
  rcases hends _ table hbuilt hacyclic [.keyword "begin" 1] with
    ⟨e, hstart, -⟩ | ⟨a, hstart, hstops, hacts⟩
  · rw [hstart] at hclassified
    cases hclassified
  · exact ⟨table, a, hbuilt, hacyclic, hstart, hstops,
      fun n k b h => (hacts n k b h).2.1⟩

end Reckon.Automaton
