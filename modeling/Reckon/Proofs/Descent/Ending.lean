import Reckon.Proofs.Descent.Attempts

/-!
# Matches end inside the tokens

A match is described here as the loops that carry it out, over a place that is
counted in a list of tokens which stays as it is: a repetition goes round until
a round fails or takes nothing, and nothing bounds the number of rounds. A match
ends if `Matches` has a derivation for it.

Every pattern ends, also where a part of a repetition can match nothing: a
round that is not the last has come nearer to the end of the tokens. The
induction is on the patterns, and for a repetition on the tokens that are
left. What a match ends with is what the bounded repetition of `run` gives,
and from there the place behind it is known not to be before its start and not
behind the last token.
-/

namespace Reckon.Pattern

/-- A place in a list of tokens: the number of tokens in front of it, and the
furthest failure of a branch that was given up. -/
structure Place where
  position : Nat
  furthest : Option Failure := none

/-- The place as a cursor, which holds the tokens that are left. -/
def Place.cursor (tokens : List Token) (l : Place) : Cursor :=
  ⟨l.position, tokens.drop l.position, l.furthest⟩

/-- The failure to find something here. -/
def Place.fail (l : Place) (wanted : Wanted) : Failure :=
  Failure.deeper ⟨wanted, l.position⟩ l.furthest

/-- Carries the failures of branches that are given up, if there are any. -/
def Place.note (l : Place) : Option Failure → Place
  | some failure => { l with furthest := some (failure.deeper l.furthest) }
  | none => l

/-- The failure of a choice at a place, given the furthest of its
alternatives. -/
def Place.failChoice (l : Place) (name : String) : Option Failure → Failure
  | some failure =>
    if l.position < failure.position then failure else l.fail (.construct name)
  | none => l.fail (.construct name)

/-- The furthest of the failures of alternatives that were tried in turn. -/
def deepest (failed : List (Pattern × Failure)) : Option Failure :=
  failed.foldl (fun sofar q => some (q.2.deeper sofar)) none

/-- What a test of one token names when it fails. -/
def wanted? : Pattern → Option Wanted
  | .keyword text => some (.keyword text)
  | .keywordOf _ name => some (.construct name)
  | .identifier => some (.construct "identifier")
  | .constant => some (.construct "constant")
  | .label => some (.construct "label")
  | _ => none

/-- Matching a pattern at a place in the tokens ends, at another place or with a
failure. -/
inductive Matches (tokens : List Token) :
    Pattern → Place → Except Failure Place → Prop
  | pass {p : Pattern} {test : Token → Bool} {t : Token} {l : Place} :
      p.test? = some test → tokens[l.position]? = some t → test t = true →
      Matches tokens p l (.ok { l with position := l.position + 1 })
  | miss {p : Pattern} {test : Token → Bool} {wanted : Wanted} {l : Place} :
      p.test? = some test → p.wanted? = some wanted →
      (∀ t, tokens[l.position]? = some t → test t = false) →
      Matches tokens p l (.error (l.fail wanted))
  | ended {l : Place} :
      tokens.length ≤ l.position → Matches tokens .endOfInput l (.ok l)
  | unended {l : Place} : l.position < tokens.length →
      Matches tokens .endOfInput l (.error (l.fail .endOfInput))
  | nothing {l : Place} : Matches tokens (.sequence []) l (.ok l)
  | behind {part : Pattern} {parts : List Pattern} {l m : Place}
      {result : Except Failure Place} :
      Matches tokens part l (.ok m) →
      Matches tokens (.sequence parts) m result →
      Matches tokens (.sequence (part :: parts)) l result
  | broken {part : Pattern} {parts : List Pattern} {l : Place}
      {failure : Failure} : Matches tokens part l (.error failure) →
      Matches tokens (.sequence (part :: parts)) l (.error failure)
  | taken {part : Pattern} {l m : Place} :
      Matches tokens part l (.ok m) → Matches tokens (.option part) l (.ok m)
  | omitted {part : Pattern} {l : Place} {failure : Failure} :
      Matches tokens part l (.error failure) →
      Matches tokens (.option part) l (.ok (l.note failure))
  | round {part : Pattern} {l m : Place} {result : Except Failure Place} :
      Matches tokens part l (.ok m) → l.position < m.position →
      Matches tokens (.repetition part) m result →
      Matches tokens (.repetition part) l result
  | idle {part : Pattern} {l m : Place} :
      Matches tokens part l (.ok m) → ¬ l.position < m.position →
      Matches tokens (.repetition part) l (.ok l)
  | stop {part : Pattern} {l : Place} {failure : Failure} :
      Matches tokens part l (.error failure) →
      Matches tokens (.repetition part) l (.ok (l.note failure))
  | chosen {failed : List (Pattern × Failure)} {part : Pattern}
      {others : List Pattern} {name : String} {l m : Place} :
      (∀ q ∈ failed, Matches tokens q.1 l (.error q.2)) →
      Matches tokens part l (.ok m) →
      Matches tokens (.choice (failed.map Prod.fst ++ part :: others) name) l
        (.ok (m.note (deepest failed)))
  | exhausted {failed : List (Pattern × Failure)} {name : String} {l : Place} :
      (∀ q ∈ failed, Matches tokens q.1 l (.error q.2)) →
      Matches tokens (.choice (failed.map Prod.fst) name) l
        (.error (l.failChoice name (deepest failed)))

variable {tokens : List Token} {p part : Pattern} {l m : Place}
  {test : Token → Bool} {wanted : Wanted} {result : Except Failure Place}

/-! ## Places and cursors -/

theorem Place.cursor_inj {l m : Place} (h : l.cursor tokens = m.cursor tokens) :
    l = m := by
  cases l
  cases m
  simp only [Place.cursor, Cursor.mk.injEq] at h
  obtain ⟨rfl, -, rfl⟩ := h
  rfl

theorem map_cursor_inj {first second : Except Failure Place}
    (h : first.map (Place.cursor tokens) = second.map (Place.cursor tokens)) :
    first = second := by
  cases first <;> cases second
  case error.error => exact congrArg Except.error (Except.error.inj h)
  case ok.ok => exact congrArg Except.ok (Place.cursor_inj (Except.ok.inj h))
  all_goals cases h

/-- The tokens in front of a place and behind it are all tokens, unless the
place is behind them. -/
theorem Place.total_cursor (l : Place) :
    (l.cursor tokens).total = max l.position tokens.length := by
  simp only [Cursor.total, Place.cursor, List.length_drop]
  omega

/-! ## What ends, ends as the bounded match -/

theorem run_of_tests (htest : p.test? = some test)
    (hwanted : p.wanted? = some wanted) (c : Cursor) :
    run p c = c.take wanted test := by
  cases p with
  | keyword | keywordOf | identifier | constant | label =>
      obtain rfl := Option.some.inj htest
      obtain rfl := Option.some.inj hwanted
      rfl
  | endOfInput | sequence | option | repetition | choice => cases htest

/-- Alternatives that fail hand on the furthest of their failures. -/
theorem runFirst_of_failed {failed : List (Pattern × Failure)} {c : Cursor}
    (h : ∀ q ∈ failed, run q.1 c = .error q.2) (others : List Pattern)
    (name : String) : runFirst (failed.map Prod.fst ++ others) name none c =
      runFirst others name (deepest failed) c := by
  suffices hany :
      ∀ sofar, runFirst (failed.map Prod.fst ++ others) name sofar c =
        runFirst others name
        (failed.foldl (fun sofar q => some (q.2.deeper sofar)) sofar) c from
    hany none
  induction failed with
  | nil => exact fun sofar => rfl
  | cons q failed ih =>
      intro sofar
      rw [List.map_cons, List.cons_append, runFirst, h q List.mem_cons_self]
      exact ih (fun other hother => h other (List.mem_cons_of_mem q hother)) _

/-- One more round of a repetition that is not the last. -/
theorem run_repetition_of_round
    (hround : run part (l.cursor tokens) = .ok (m.cursor tokens))
    (hlt : l.position < m.position) :
    run (.repetition part) (l.cursor tokens) =
      run (.repetition part) (m.cursor tokens) := by
  obtain ⟨-, htotal⟩ := leaves_of_run part hround
  have hless :
      (m.cursor tokens).rest.length < (l.cursor tokens).rest.length := by
    simp only [Cursor.total] at htotal
    have hposition :
        (l.cursor tokens).position < (m.cursor tokens).position := hlt
    omega
  unfold run
  rw [rounds, hround]
  simp only
  rw [if_pos (show (l.cursor tokens).position < (m.cursor tokens).position
    from hlt), rounds_eq part hless (Nat.lt_succ_self _)]

theorem Matches.run_eq (h : Matches tokens p l result) :
    run p (l.cursor tokens) = result.map (Place.cursor tokens) := by
  induction h with
  | @pass p test t l htest hget hpass =>
      obtain ⟨wanted, hrun⟩ := run_of_test? htest
      obtain ⟨hlt, rfl⟩ := List.getElem?_eq_some_iff.mp hget
      rw [hrun]
      simp only [Cursor.take, Place.cursor, List.drop_eq_getElem_cons hlt,
        hpass, if_true]
      rfl
  | @miss p test wanted l htest hwanted hmiss =>
      rw [run_of_tests htest hwanted]
      unfold Cursor.take
      split
      · next t rest hrest =>
          have hget : tokens[l.position]? = some t := by
            rw [← List.head?_drop]
            exact congrArg List.head? hrest
          rw [hmiss t hget]
          rfl
      · rfl
  | @ended l h =>
      have hrest : (l.cursor tokens).rest = [] := List.drop_eq_nil_of_le h
      unfold run
      rw [hrest]
      rfl
  | @unended l h =>
      have hrest : (l.cursor tokens).rest = tokens[l.position] :: _ :=
        List.drop_eq_getElem_cons h
      unfold run
      rw [hrest]
      rfl
  | nothing => rfl
  | behind _ _ ih ih' =>
      show runAll _ _ = _
      unfold runAll
      rw [ih]
      exact ih'
  | broken _ ih =>
      show runAll _ _ = _
      unfold runAll
      rw [ih]
      rfl
  | taken _ ih =>
      unfold run
      rw [ih]
      rfl
  | omitted _ ih =>
      unfold run
      rw [ih]
      rfl
  | round _ hlt _ ih ih' => exact (run_repetition_of_round ih hlt).trans ih'
  | idle _ hidle ih =>
      unfold run rounds
      rw [ih]
      exact congrArg Except.ok (if_neg hidle)
  | stop _ ih =>
      unfold run rounds
      rw [ih]
      rfl
  | @chosen failed part others name l m _ _ ih ih' =>
      show runFirst _ _ _ _ = _
      rw [runFirst_of_failed ih, runFirst, ih']
      cases deepest failed <;> rfl
  | @exhausted failed name l _ ih =>
      show runFirst _ _ _ _ = _
      have hrun := runFirst_of_failed ih [] name
      rw [List.append_nil] at hrun
      rw [hrun, runFirst]
      cases deepest failed <;> rfl

/-! ## Every match ends -/

theorem exists_matches_of_test (htest : p.test? = some test)
    (hwanted : p.wanted? = some wanted) (l : Place) :
    ∃ result, Matches tokens p l result := by
  cases hget : tokens[l.position]? with
  | none =>
      exact ⟨_, .miss htest hwanted fun t ht => by rw [hget] at ht; cases ht⟩
  | some t =>
      cases ht : test t with
      | true => exact ⟨_, .pass htest hget ht⟩
      | false =>
          refine ⟨_, .miss htest hwanted fun other hother => ?_⟩
          rw [hget] at hother
          rwa [← Option.some.inj hother]

/-- A repetition comes nearer to the end of the tokens in every round that is
not its last, so there is a last one. -/
theorem exists_matches_repetition
    (hpart : ∀ l, ∃ result, Matches tokens part l result) (l : Place) :
    ∃ result, Matches tokens (.repetition part) l result := by
  induction hleft : tokens.length - l.position using Nat.strong_induction_on
    generalizing l with
  | _ left ih =>
      obtain ⟨result, hmatch⟩ := hpart l
      cases result with
      | error failure => exact ⟨_, .stop hmatch⟩
      | ok m =>
          by_cases hlt : l.position < m.position
          · have htotal := (leaves_of_run part hmatch.run_eq).2
            rw [Place.total_cursor, Place.total_cursor] at htotal
            obtain ⟨_, hrest⟩ :=
              ih (tokens.length - m.position) (by omega) m rfl
            exact ⟨_, .round hmatch hlt hrest⟩
          · exact ⟨_, .idle hmatch hlt⟩

mutual

theorem exists_matches (p : Pattern) (l : Place) :
    ∃ result, Matches tokens p l result := by
  cases p with
  | keyword | keywordOf | identifier | constant | label =>
      exact exists_matches_of_test rfl rfl l
  | endOfInput =>
      rcases Nat.lt_or_ge l.position tokens.length with hlt | hle
      · exact ⟨_, .unended hlt⟩
      · exact ⟨_, .ended hle⟩
  | sequence parts => exact exists_matches_sequence parts l
  | option part =>
      obtain ⟨result, hmatch⟩ := exists_matches part l
      cases result with
      | error failure => exact ⟨_, .omitted hmatch⟩
      | ok m => exact ⟨_, .taken hmatch⟩
  | repetition part => exact exists_matches_repetition (exists_matches part) l
  | choice alternatives name =>
      exact exists_matches_choice alternatives name l [] nofun

theorem exists_matches_sequence (parts : List Pattern) (l : Place) :
    ∃ result, Matches tokens (.sequence parts) l result := by
  cases parts with
  | nil => exact ⟨_, .nothing⟩
  | cons part parts =>
      obtain ⟨result, hmatch⟩ := exists_matches part l
      cases result with
      | error failure => exact ⟨_, .broken hmatch⟩
      | ok m =>
          obtain ⟨_, hrest⟩ := exists_matches_sequence parts m
          exact ⟨_, .behind hmatch hrest⟩

/-- The alternatives behind some that have failed. -/
theorem exists_matches_choice (parts : List Pattern) (name : String) (l : Place)
    (failed : List (Pattern × Failure))
    (hfailed : ∀ q ∈ failed, Matches tokens q.1 l (.error q.2)) :
    ∃ result, Matches tokens (.choice (failed.map Prod.fst ++ parts) name) l
      result := by
  cases parts with
  | nil =>
      rw [List.append_nil]
      exact ⟨_, .exhausted hfailed⟩
  | cons part parts =>
      obtain ⟨result, hmatch⟩ := exists_matches part l
      cases result with
      | ok m => exact ⟨_, .chosen hfailed hmatch⟩
      | error failure =>
          have hmore : ∀ q ∈ failed ++ [(part, failure)],
              Matches tokens q.1 l (.error q.2) := by
            intro q hq
            rcases List.mem_append.mp hq with hq | hq
            · exact hfailed q hq
            · obtain rfl := List.mem_singleton.mp hq
              exact hmatch
          have hrest := exists_matches_choice parts name l _ hmore
          rwa [List.map_append, List.append_assoc] at hrest

end

/-- A match ends, in one way only, and as the match whose repetitions are
bounded does. If it succeeds, the place behind it is not before its start, and
not behind the last token unless the match started there. -/
theorem matches_end (p : Pattern) (tokens : List Token) (l : Place) :
    ∃ result, Matches tokens p l result ∧
      (∀ other, Matches tokens p l other → other = result) ∧
      run p (l.cursor tokens) = result.map (Place.cursor tokens) ∧
      ∀ m, result = .ok m →
        l.position ≤ m.position ∧
        m.position ≤ max l.position tokens.length := by
  obtain ⟨result, hmatch⟩ : ∃ result, Matches tokens p l result :=
    exists_matches p l
  have hrun := hmatch.run_eq
  refine ⟨result, hmatch, fun other hother => ?_, hrun, ?_⟩
  · exact map_cursor_inj (hother.run_eq.symm.trans hrun)
  · rintro m rfl
    have honward := onward_run p (l.cursor tokens)
    rw [hrun] at honward
    have htotal := (leaves_of_run p hrun).2
    rw [Place.total_cursor, Place.total_cursor] at htotal
    exact ⟨honward.1, htotal ▸ Nat.le_max_left ..⟩

end Reckon.Pattern
