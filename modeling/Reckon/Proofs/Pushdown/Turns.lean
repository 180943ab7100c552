import Mathlib.Logic.Relation
import Reckon.Recogniser.Table
import Reckon.Proofs.Pushdown.Errors

/-!
# Turns of the automaton

The loop that offers a token comes to an end from every state and every stack: a
turn that keeps the token lowers the rank of the state by more than the stack
grows, or it takes a state from the stack.

In a check the stack is never found empty by a state that returns. Where a state
that is entered goes on, with tokens or without them, the state to return to
stays on the stack; `Nested` keeps with each configuration the one that entered
its part, and so on outwards. An outermost state never returns, and every other
state finds what was pushed when its part was entered. A jump out of an
assignment into its expression changes the state and not the part, so it needs
no case of its own.
-/

namespace Reckon

/-! ## Moves of rows -/

theorem Row.move?_of_edge {row : Row} {token : Option Token} {o : Offer}
    {move : Move} (h : row.edges.find? (·.1.fits token) = some (o, move)) :
    row.move? token = some move := by
  rw [Row.move?, h]

theorem Row.move?_of_fall {row : Row} {token : Option Token} {move : Move}
    (h : row.edges.find? (·.1.fits token) = none)
    (hfall : row.fall = .ok move) : row.move? token = some move := by
  rw [Row.move?, h, hfall]
  rfl

/-- A move of an inner state leads to an inner state, and so on. -/
theorem State.keeps_move (s : State) {token : Option Token} {move : Move}
    (h : s.row.move? token = some move) : move.keeps s.isInner = true := by
  unfold Row.move? at h
  split at h
  · next edge hedge =>
      cases h
      exact s.keeps_edges _ (List.mem_of_find?_eq_some hedge)
  · have hkeeps := s.keeps_fallback
    unfold Row.fall at h
    split at h <;> rename_i hfallback <;> cases h <;> rw [hfallback] at hkeeps
    · exact hkeeps
    · rfl
    · exact hkeeps

/-- Only inner states return. -/
theorem State.isInner_of_back {s : State} {token : Option Token}
    (h : s.row.move? token = some .back) : s.isInner = true := by
  have hedges : ∀ e ∈ s.row.edges, e.2 = .back → s.isInner = true := by
    cases s <;> decide
  have hfallback : s.row.fallback = .leave → s.isInner = true := by
    cases s <;> decide
  unfold Row.move? at h
  split at h
  · next edge hedge =>
      exact hedges _ (List.mem_of_find?_eq_some hedge) (Option.some.inj h)
  · unfold Row.fall at h
    split at h <;> rename_i hfalls <;> cases h
    exact hfallback hfalls

theorem State.rank_le (s : State) : s.rank ≤ 3 := by
  cases s <;> decide

namespace Pushdown

variable {p q : Pushdown} {token : Option Token} {move : Move} {why : Stop}

/-! ## One turn -/

theorem follow_eq_none (h : p.follow move = none) :
    move = .back ∧ p.stack = [] := by
  cases move with
  | goto | call => cases h
  | back =>
      refine ⟨rfl, ?_⟩
      cases hstack : p.stack with
      | nil => rfl
      | cons back k => simp [follow, hstack] at h

theorem follow_back (h : p.follow .back = some q) :
    ∃ back k, p.stack = back :: k ∧ q = ⟨back, k⟩ := by
  cases hstack : p.stack with
  | nil => simp [follow, hstack] at h
  | cons back k =>
      exact ⟨back, k, rfl, by simpa [follow, hstack, eq_comm] using h⟩

/-- What a turn does, by what the row of the state has for the token. -/
inductive Does (p : Pushdown) (token : Option Token) : Turn → Prop
  | taken {move : Move} {q : Pushdown} : p.state.row.move? token = some move →
      p.follow move = some q → Does p token (.taken q)
  | again {move : Move} {q : Pushdown} : p.state.row.move? token = some move →
      p.follow move = some q → p.state.row.fall = .ok move →
      Does p token (.again q)
  | empty : p.state.row.move? token = some .back → p.stack = [] →
      Does p token (.stopped .emptyStack)
  | refused {wanted : String} : Does p token (.stopped (.refused wanted))

theorem does_turn (p : Pushdown) (token : Option Token) :
    Does p token (p.turn token) := by
  unfold turn
  rw [Table.row?_language]
  dsimp only
  split
  · next move hedge =>
      have hmove := Row.move?_of_edge hedge
      split
      · next hfollow => exact .taken hmove hfollow
      · next hfollow =>
          obtain ⟨rfl, hstack⟩ := follow_eq_none hfollow
          exact .empty hmove hstack
  · next hedge =>
      split
      · exact .refused
      · next move hfall =>
          have hmove := Row.move?_of_fall hedge hfall
          split
          · next hfollow => exact .again hmove hfollow hfall
          · next hfollow =>
              obtain ⟨rfl, hstack⟩ := follow_eq_none hfollow
              exact .empty hmove hstack

/-! ## The loop ends -/

/-- The end of a turn is what becomes of the offer, unless there is another
turn. -/
theorem offer_eq_turn (p : Pushdown) (token : Option Token) :
    p.offer token =
      match p.turn token with
      | .taken next => .ok next
      | .again next => next.offer token
      | .stopped why => .error why.wanted := by
  unfold turn
  rw [Table.row?_language, offer]
  simp only []
  cases p.state.row.edges.find? (·.1.fits token) with
  | some edge =>
      obtain ⟨-, move⟩ := edge
      cases move with
      | goto | call => rfl
      | back =>
          cases hstack : p.stack <;> simp [take, follow, hstack, Stop.wanted]
  | none =>
      simp only [Row.fall]
      split <;> rename_i hfallback <;> simp only [hfallback]
      · rfl
      · rfl
      · rfl
      · split <;> rename_i hstack <;> simp [follow, hstack, Stop.wanted]
      · rfl

/-- A turn that keeps the token pays with its rank or with the stack. -/
theorem weight_of_again (h : p.turn token = .again q) :
    q.stack.length + q.state.rank < p.stack.length + p.state.rank := by
  have hdoes := does_turn p token
  rw [h] at hdoes
  cases hdoes with
  | again _ hfollow hfall =>
      unfold Row.fall at hfall
      split at hfall <;> rename_i hfallback <;> cases hfall
      · have hrank := rank_enter hfallback
        cases hfollow
        simp only [List.length_cons]
        omega
      · obtain ⟨back, k, hstack, rfl⟩ := follow_back hfollow
        have hrank := rank_leave hfallback back
        simp only [hstack, List.length_cons]
        omega
      · have hrank := rank_jump hfallback
        cases hfollow
        exact Nat.add_lt_add_left hrank _

/-- Turns that keep the token, one after the other. -/
inductive Falls (token : Option Token) : Nat → Pushdown → Pushdown → Prop
  | here (p : Pushdown) : Falls token 0 p p
  | on {p q r : Pushdown} {n : Nat} (turn : p.turn token = .again q)
      (rest : Falls token n q r) : Falls token (n + 1) p r

/-- The loop that offers a token ends with this turn. -/
def Ends (p : Pushdown) (token : Option Token) (q : Pushdown) : Prop :=
  (∃ next, q.turn token = .taken next ∧ p.offer token = .ok next) ∨
    ∃ why, q.turn token = .stopped why ∧ p.offer token = .error why.wanted

/-- The loop ends after as many turns as the state has rank and the stack has
states, and with the last turn the offer is decided. -/
theorem exists_ends (p : Pushdown) (token : Option Token) :
    ∃ n ≤ p.stack.length + p.state.rank, ∃ q, Falls token n p q ∧
      Ends p token q := by
  induction hweight : p.stack.length + p.state.rank using Nat.strongRecOn
    generalizing p with
  | ind weight ih =>
      have hoffer := offer_eq_turn p token
      cases hturn : p.turn token with
      | taken next =>
          rw [hturn] at hoffer
          exact ⟨0, Nat.zero_le _, p, .here p, .inl ⟨next, hturn, hoffer⟩⟩
      | stopped why =>
          rw [hturn] at hoffer
          exact ⟨0, Nat.zero_le _, p, .here p, .inr ⟨why, hturn, hoffer⟩⟩
      | again next =>
          rw [hturn] at hoffer
          have hless := weight_of_again hturn
          obtain ⟨n, hn, q, hfalls, hends⟩ := ih _ (hweight ▸ hless) next rfl
          refine ⟨n + 1, by omega, q, .on hturn hfalls, ?_⟩
          unfold Ends
          rw [hoffer]
          exact hends

/-! ## Configurations of a check -/

/-- A pushdown and what is still to be offered to it. -/
abbrev Config := Pushdown × List (Option Token)

/-- The start of a check. -/
def Config.ofTokens (tokens : List Token) : Config :=
  (⟨.start, []⟩, tokens.map some ++ [none])

/-- One turn of a check. -/
inductive Step : Config → Config → Prop
  | taken {p q : Pushdown} {token : Option Token} {rest : List (Option Token)} :
      p.turn token = .taken q → Step (p, token :: rest) (q, rest)
  | again {p q : Pushdown} {token : Option Token} {rest : List (Option Token)} :
      p.turn token = .again q → Step (p, token :: rest) (q, token :: rest)

/-- A configuration comes up in the check of some tokens. -/
def Comes (tokens : List Token) (c : Config) : Prop :=
  Relation.ReflTransGen Step (Config.ofTokens tokens) c

/-- The row of a configuration has this move for what is offered next. -/
def Config.Has (c : Config) (move : Move) : Prop :=
  ∃ row token, Table.language.row? c.1.state = some row ∧
    c.2.head? = some token ∧ row.move? token = some move

/-- A turn that leaves some states where they are, at the bottom of the
stack. -/
def StepAbove (k : List State) (c d : Config) : Prop :=
  Step c d ∧ k <:+ d.1.stack

/-- The part in which a configuration is was entered from another one, in
the next turn. What was pushed then is on top of the stack, and it has been
there ever since. -/
structure EnteredFrom (caller c : Config) (back : State) : Prop where
  entry : ∃ d part, caller.Has (.call part back) ∧ Step caller d ∧
    d.1 = ⟨part, back :: caller.1.stack⟩ ∧
    Relation.ReflTransGen (StepAbove (back :: caller.1.stack)) d c
  stack : c.1.stack = back :: caller.1.stack

variable {tokens : List Token} {c d caller : Config} {back : State}
  {k k' : List State}

theorem Step.exists_move (h : Step c d) :
    ∃ move, c.Has move ∧ c.1.follow move = some d.1 := by
  cases h with
  | @taken p q token rest hturn =>
      have hdoes := does_turn p token
      rw [hturn] at hdoes
      cases hdoes with
      | taken hmove hfollow =>
          exact ⟨_, ⟨_, token, Table.row?_language _, rfl, hmove⟩, hfollow⟩
  | @again p q token rest hturn =>
      have hdoes := does_turn p token
      rw [hturn] at hdoes
      cases hdoes with
      | again hmove hfollow _ =>
          exact ⟨_, ⟨_, token, Table.row?_language _, rfl, hmove⟩, hfollow⟩

theorem Config.Has.keeps {move : Move} (h : c.Has move) :
    move.keeps c.1.state.isInner = true := by
  obtain ⟨row, token, hrow, -, hmove⟩ := h
  rw [Table.row?_language] at hrow
  cases hrow
  exact c.1.state.keeps_move hmove

theorem Config.Has.isInner_of_back (h : c.Has .back) :
    c.1.state.isInner = true := by
  obtain ⟨row, token, hrow, -, hmove⟩ := h
  rw [Table.row?_language] at hrow
  cases hrow
  exact State.isInner_of_back hmove

theorem steps_above_mono (hk : k' <:+ k)
    (h : Relation.ReflTransGen (StepAbove k) c d) :
    Relation.ReflTransGen (StepAbove k') c d :=
  Relation.ReflTransGen.mono
    (fun _ _ hstep => ⟨hstep.1, hk.trans hstep.2⟩) _ _ h

theorem EnteredFrom.extend (h : EnteredFrom caller c back)
    (hpath : Relation.ReflTransGen (StepAbove (back :: caller.1.stack)) c d)
    (hstack : d.1.stack = c.1.stack) : EnteredFrom caller d back := by
  obtain ⟨⟨e, part, hcall, hentry, he, hbefore⟩, hpushed⟩ := h
  exact ⟨⟨e, part, hcall, hentry, he, hbefore.trans hpath⟩,
    hstack.trans hpushed⟩

/-- All that happens in a part happens above the stack of the caller. -/
theorem EnteredFrom.path (h : EnteredFrom caller c back) :
    Relation.ReflTransGen (StepAbove caller.1.stack) caller c := by
  obtain ⟨⟨e, part, -, hentry, he, hpath⟩, -⟩ := h
  have hdown : caller.1.stack <:+ back :: caller.1.stack := List.suffix_cons ..
  refine .head ⟨hentry, ?_⟩ (steps_above_mono hdown hpath)
  rw [he]
  exact hdown

/-- The state that is pushed is in the part of the caller. -/
theorem EnteredFrom.isInner_eq (h : EnteredFrom caller c back) :
    back.isInner = caller.1.state.isInner := by
  obtain ⟨⟨e, part, hcall, -⟩, -⟩ := h
  have hkeeps := hcall.keeps
  simp only [Move.keeps, Bool.and_eq_true, beq_iff_eq] at hkeeps
  exact hkeeps.2

/-- A configuration is outermost, or its part was entered from one of which the
same can be said. -/
inductive Nested (tokens : List Token) : Config → Prop
  | outer {c : Config} :
      c.1.state.isInner = false → c.1.stack = [] → Nested tokens c
  | inner {caller c : Config} {back : State} : Nested tokens caller →
      Comes tokens caller →
      c.1.state.isInner = true → EnteredFrom caller c back → Nested tokens c

/-- What a state leads to above its stack, and comes back to that stack, is in
the same part. -/
theorem Nested.extend (h : Nested tokens c)
    (hpath : Relation.ReflTransGen (StepAbove c.1.stack) c d)
    (hstack : d.1.stack = c.1.stack)
    (hinner : d.1.state.isInner = c.1.state.isInner) : Nested tokens d := by
  cases h with
  | outer houter hempty =>
      exact .outer (hinner.trans houter) (hstack.trans hempty)
  | inner hcaller hcomes hc hentered =>
      rw [hentered.stack] at hpath
      exact .inner hcaller hcomes (hinner.trans hc)
        (hentered.extend hpath hstack)

/-- Behind a return the caller goes on, in the part in which it was. -/
theorem Nested.returned (h : Nested tokens c) (hstep : Step c d)
    (hfollow : c.1.follow .back = some d.1) : Nested tokens d := by
  obtain ⟨back, k, hstack, hd⟩ := follow_back hfollow
  cases h with
  | outer houter hempty => rw [hempty] at hstack; cases hstack
  | @inner caller c back' hcaller hcomes hc hentered =>
      rw [hentered.stack] at hstack
      cases hstack
      have hdstack : d.1.stack = caller.1.stack := congrArg (·.stack) hd
      refine hcaller.extend ?_ hdstack ?_
      · exact hentered.path.tail ⟨hstep, hdstack ▸ List.suffix_refl _⟩
      · rw [hd]
        exact hentered.isInner_eq

/-- One turn. -/
theorem Nested.step (h : Nested tokens c) (hcomes : Comes tokens c)
    (hstep : Step c d) : Nested tokens d := by
  obtain ⟨move, hhas, hfollow⟩ := hstep.exists_move
  have hkeeps := hhas.keeps
  cases move with
  | goto next =>
      have hd : d.1 = ⟨next, c.1.stack⟩ := (Option.some.inj hfollow).symm
      have hstack : d.1.stack = c.1.stack := congrArg (·.stack) hd
      refine h.extend (.single ⟨hstep, hstack ▸ List.suffix_refl _⟩) hstack ?_
      rw [hd]
      exact beq_iff_eq.mp hkeeps
  | call part back =>
      have hd : d.1 = ⟨part, back :: c.1.stack⟩ :=
        (Option.some.inj hfollow).symm
      have hstack : d.1.stack = back :: c.1.stack := congrArg (·.stack) hd
      refine .inner h hcomes ?_ ⟨⟨d, part, hhas, hstep, hd, .refl⟩, hstack⟩
      rw [hd]
      exact (Bool.and_eq_true_iff.mp hkeeps).1
  | back => exact h.returned hstep hfollow

theorem Comes.nested (h : Comes tokens c) : Nested tokens c := by
  induction h with
  | refl => exact .outer rfl rfl
  | tail hcomes hstep ih => exact ih.step hcomes hstep

/-- A state that returns finds what was pushed when its part was entered. -/
theorem Comes.entered (h : Comes tokens c) (hhas : c.Has .back) :
    ∃ caller back, Comes tokens caller ∧ EnteredFrom caller c back := by
  cases h.nested with
  | outer houter => rw [hhas.isInner_of_back] at houter; cases houter
  | inner _ hcomes _ hentered => exact ⟨_, _, hcomes, hentered⟩

/-- Where a turn goes no further in a check, the row has refused the token. -/
theorem Comes.refused {p : Pushdown} {rest : List (Option Token)}
    (h : Comes tokens (p, token :: rest))
    (hturn : p.turn token = .stopped why) :
    ∃ wanted, why = .refused wanted := by
  have hdoes := does_turn p token
  rw [hturn] at hdoes
  cases hdoes with
  | refused => exact ⟨_, rfl⟩
  | empty hmove hempty =>
      obtain ⟨caller, back, -, hentered⟩ :=
        h.entered ⟨_, token, Table.row?_language _, rfl, hmove⟩
      have hpushed : p.stack = back :: caller.1.stack := hentered.stack
      rw [hempty] at hpushed
      cases hpushed

theorem Comes.falls {n : Nat} {rest : List (Option Token)}
    (h : Comes tokens (p, token :: rest)) (hfalls : Falls token n p q) :
    Comes tokens (q, token :: rest) := by
  induction hfalls with
  | here => exact h
  | on hturn _ ih => exact ih (.tail h (.again hturn))

/-- What is offered is taken, or after some turns a row refuses it. -/
theorem Comes.offered {rest : List (Option Token)}
    (h : Comes tokens (p, token :: rest)) :
    (∃ next, p.offer token = .ok next ∧ Comes tokens (next, rest)) ∨
      ∃ q wanted, p.offer token = .error wanted ∧
        Comes tokens (q, token :: rest) ∧
        q.turn token = .stopped (.refused wanted) := by
  obtain ⟨n, -, q, hfalls, ⟨next, hturn, hoffer⟩ | ⟨why, hturn, hoffer⟩⟩ :=
    exists_ends p token
  · exact .inl ⟨next, hoffer, .tail (h.falls hfalls) (.taken hturn)⟩
  · have hq := h.falls hfalls
    obtain ⟨wanted, rfl⟩ := hq.refused hturn
    exact .inr ⟨q, wanted, hoffer, hq, hturn⟩

/-- How a check ends: everything is taken, or a row refuses what is offered. -/
inductive Outcome (tokens : List Token) : Except SyntaxError Unit → Prop
  | accepted {q : Pushdown} : Comes tokens (q, []) → Outcome tokens (.ok ())
  | refused {q : Pushdown} {token : Option Token} {rest : List (Option Token)}
      {wanted : String} : Comes tokens (q, token :: rest) →
      q.turn token = .stopped (.refused wanted) →
      Outcome tokens (.error (.unexpected wanted tokens token))

theorem outcome_offerAll {rest : List Token}
    (h : Comes tokens (p, rest.map some ++ [none])) :
    Outcome tokens (offerAll tokens p rest) := by
  induction rest generalizing p with
  | nil =>
      rw [offerAll]
      obtain ⟨next, hoffer, hnext⟩ | ⟨q, wanted, hoffer, hq, hturn⟩ := h.offered
      · rw [hoffer]
        exact .accepted hnext
      · rw [hoffer]
        exact .refused hq hturn
  | cons t rest ih =>
      rw [offerAll]
      obtain ⟨next, hoffer, hnext⟩ | ⟨q, wanted, hoffer, hq, hturn⟩ := h.offered
      · rw [hoffer]
        exact ih hnext
      · rw [hoffer]
        exact .refused hq hturn

/-- The loop that offers a token ends from every state and every stack, with
a turn that decides the offer. In a check every state that comes up has a
row. One that returns, by an edge or because nothing fits, finds on the stack
what was pushed when its part was entered, so an error is always that a row
has refused a token. -/
theorem turns_end :
    (∀ (p : Pushdown) (token : Option Token),
      ∃ n ≤ p.stack.length + 3, ∃ q, Falls token n p q ∧ Ends p token q) ∧
    ∀ tokens : List Token,
      (∀ c, Comes tokens c →
        (∃ row, Table.language.row? c.1.state = some row) ∧
        (c.Has .back → ∃ caller back, Comes tokens caller ∧
          EnteredFrom caller c back) ∧
        ∀ token ∈ c.2.head?, ∀ why, c.1.turn token = .stopped why →
          ∃ wanted, why = .refused wanted) ∧
      Outcome tokens (check tokens) := by
  refine ⟨fun p token => ?_,
    fun tokens => ⟨fun c hcomes => ⟨?_, hcomes.entered, ?_⟩, ?_⟩⟩
  · obtain ⟨n, hn, q, hends⟩ := exists_ends p token
    have hrank := p.state.rank_le
    exact ⟨n, by omega, q, hends⟩
  · exact ⟨_, Table.row?_language _⟩
  · intro token htoken why hturn
    obtain ⟨p, _ | ⟨other, rest⟩⟩ := c
    · cases htoken
    · cases htoken
      exact hcomes.refused hturn
  · exact outcome_offerAll .refl

end Pushdown

end Reckon
