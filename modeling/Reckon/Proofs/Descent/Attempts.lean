import Mathlib.Order.Bounds.Basic
import Reckon.Proofs.Descent.Looking

/-!
# Which failure is reported

`Tries` says what happens in an attempt to match a pattern: where it ends, if it
matches, and at which positions tests have failed on the way, those of branches
that were given up among them. It knows nothing of the failures that a cursor
carries, so it can be asked whether they are carried as they should be.

They are, with one exception. A repetition ends with a round that fails or
with one that matches and takes nothing. The failure of the former is carried
on; what the latter has carried is forgotten with it. So `Tries` keeps the
failures of such idle rounds apart, and the failure that a match reports is
the furthest of all others (`furthest_of_matchTokens`). In a steady pattern
every round takes a token, so there are no idle rounds, and the patterns of
the language are all steady.
-/

namespace Reckon.Pattern

open Failure (carried)

/-- The test of one token that a pattern is, if it is one. -/
def test? : Pattern → Option (Token → Bool)
  | .keyword text => some (·.isKeyword text)
  | .keywordOf texts _ => some fun t => texts.any t.isKeyword
  | .identifier => some fun
    | .word (.identifier _) _ _ => true
    | _ => false
  | .constant => some fun
    | .word (.constant _) _ _ => true
    | _ => false
  | .label => some fun
    | .word (.label _) _ _ => true
    | _ => false
  | _ => none

/-- What happens when a pattern is tried behind `n` tokens and in front of `s`.
The goal is how far the match gets and what it leaves, if there is one. Tests
have failed at the positions `kept`, and at the positions `lost` in rounds that
took nothing. A choice that has no alternative is a test that nothing passes. -/
inductive Tries : Pattern → (n : Nat) → (s : List Token) →
    (goal : Option (Nat × List Token)) → (kept lost : List Nat) → Prop where
  | pass {p : Pattern} {test : Token → Bool} {n : Nat} {t : Token}
      {s : List Token} :
      p.test? = some test → test t = true →
      Tries p n (t :: s) (some (n + 1, s)) [] []
  | miss {p : Pattern} {test : Token → Bool} {n : Nat} {s : List Token} :
      p.test? = some test → (∀ t ∈ s.head?, test t = false) →
      Tries p n s none [n] []
  | ended {n : Nat} : Tries .endOfInput n [] (some (n, [])) [] []
  | unended {n : Nat} {t : Token} {s : List Token} :
      Tries .endOfInput n (t :: s) none [n] []
  | nothing {n : Nat} {s : List Token} :
      Tries (.sequence []) n s (some (n, s)) [] []
  | broken {part : Pattern} {parts : List Pattern} {n : Nat} {s : List Token}
      {kept lost : List Nat} : Tries part n s none kept lost →
      Tries (.sequence (part :: parts)) n s none kept lost
  | behind {part : Pattern} {parts : List Pattern} {n m : Nat}
      {s r : List Token}
      {goal : Option (Nat × List Token)} {kept lost kept' lost' : List Nat} :
      Tries part n s (some (m, r)) kept lost →
      Tries (.sequence parts) m r goal kept' lost' →
      Tries (.sequence (part :: parts)) n s goal (kept ++ kept') (lost ++ lost')
  | taken {part : Pattern} {n : Nat} {s : List Token} {goal : Nat × List Token}
      {kept lost : List Nat} : Tries part n s (some goal) kept lost →
      Tries (.option part) n s (some goal) kept lost
  | omitted {part : Pattern} {n : Nat} {s : List Token} {kept lost : List Nat} :
      Tries part n s none kept lost →
      Tries (.option part) n s (some (n, s)) kept lost
  | stop {part : Pattern} {n : Nat} {s : List Token} {kept lost : List Nat} :
      Tries part n s none kept lost →
      Tries (.repetition part) n s (some (n, s)) kept lost
  | idle {part : Pattern} {n m : Nat} {s r : List Token}
      {kept lost : List Nat} : Tries part n s (some (m, r)) kept lost → m ≤ n →
      Tries (.repetition part) n s (some (n, s)) [] (kept ++ lost)
  | round {part : Pattern} {n m : Nat} {s r : List Token}
      {goal : Option (Nat × List Token)} {kept lost kept' lost' : List Nat} :
      Tries part n s (some (m, r)) kept lost → n < m →
      Tries (.repetition part) m r goal kept' lost' →
      Tries (.repetition part) n s goal (kept ++ kept') (lost ++ lost')
  | barren {name : String} {n : Nat} {s : List Token} :
      Tries (.choice [] name) n s none [n] []
  | chosen {part : Pattern} {parts : List Pattern} {name : String} {n : Nat}
      {s : List Token} {goal : Nat × List Token} {kept lost : List Nat} :
      Tries part n s (some goal) kept lost →
      Tries (.choice (part :: parts) name) n s (some goal) kept lost
  | last {part : Pattern} {name : String} {n : Nat} {s : List Token}
      {kept lost : List Nat} :
      Tries part n s none kept lost →
      Tries (.choice [part] name) n s none kept lost
  | other {part : Pattern} {parts : List Pattern} {name : String} {n : Nat}
      {s : List Token} {goal : Option (Nat × List Token)}
      {kept lost kept' lost' : List Nat} :
      Tries part n s none kept lost → parts ≠ [] →
      Tries (.choice parts name) n s goal kept' lost' →
      Tries (.choice (part :: parts) name) n s goal (kept ++ kept')
        (lost ++ lost')

variable {p part : Pattern} {parts : List Pattern} {name : String} {n m : Nat}
  {s r : List Token} {goal : Option (Nat × List Token)} {kept lost : List Nat}
  {c : Cursor} {failure : Failure} {furthest : Option Failure}

/-! ## There is one attempt for every pattern and every input -/

/-- A match does not go back, and what it passes and what it leaves is the
input. -/
theorem Tries.onward (h : Tries p n s goal kept lost) :
    ∀ {m r}, goal = some (m, r) → n ≤ m ∧ m + r.length = n + s.length := by
  induction h with
  | pass _ _ =>
      rintro _ _ ⟨⟩
      simp only [List.length_cons]
      omega
  | miss | unended | broken | barren | last => rintro _ _ ⟨⟩
  | ended | nothing | omitted | stop | idle =>
      rintro _ _ ⟨⟩; exact ⟨Nat.le_refl _, rfl⟩
  | behind _ _ ih ih' | round _ _ _ ih ih' =>
      intro m r hgoal
      have hfirst := ih rfl
      have hrest := ih' hgoal
      omega
  | taken _ ih | chosen _ ih => exact ih
  | other _ _ _ _ ih => exact ih

theorem exists_tries_of_test {test : Token → Bool} (hp : p.test? = some test)
    (n : Nat) (s : List Token) :
    ∃ goal kept lost, Tries p n s goal kept lost := by
  cases s with
  | nil => exact ⟨_, _, _, .miss hp nofun⟩
  | cons t s =>
      cases ht : test t with
      | true => exact ⟨_, _, _, .pass hp ht⟩
      | false =>
          refine ⟨_, _, _, .miss hp fun u hu => ?_⟩
          rwa [← Option.some.inj hu]

/-- Rounds that take something cannot go on for ever. -/
theorem exists_tries_repetition
    (hpart : ∀ n s, ∃ goal kept lost, Tries part n s goal kept lost)
    (s : List Token) :
    ∀ n, ∃ goal kept lost, Tries (.repetition part) n s goal kept lost := by
  induction hlength : s.length using Nat.strong_induction_on generalizing s with
  | _ length ih =>
      intro n
      obtain ⟨goal, kept, lost, htries⟩ := hpart n s
      cases goal with
      | none => exact ⟨_, _, _, .stop htries⟩
      | some goal =>
          obtain ⟨m, r⟩ := goal
          have honward := htries.onward rfl
          rcases Nat.lt_or_ge n m with hlt | hle
          · obtain ⟨_, _, _, hrest⟩ := ih r.length (by omega) r rfl m
            exact ⟨_, _, _, .round htries hlt hrest⟩
          · exact ⟨_, _, _, .idle htries hle⟩

mutual

theorem exists_tries (p : Pattern) (n : Nat) (s : List Token) :
    ∃ goal kept lost, Tries p n s goal kept lost := by
  cases p with
  | keyword | keywordOf | identifier | constant | label =>
      exact exists_tries_of_test rfl n s
  | endOfInput =>
      cases s with
      | nil => exact ⟨_, _, _, .ended⟩
      | cons t s => exact ⟨_, _, _, .unended⟩
  | sequence parts => exact exists_tries_sequence parts n s
  | option part =>
      obtain ⟨goal, _, _, htries⟩ := exists_tries part n s
      cases goal with
      | none => exact ⟨_, _, _, .omitted htries⟩
      | some goal => exact ⟨_, _, _, .taken htries⟩
  | repetition part => exact exists_tries_repetition (exists_tries part) s n
  | choice alternatives name => exact exists_tries_choice alternatives name n s

theorem exists_tries_sequence (parts : List Pattern) (n : Nat)
    (s : List Token) :
    ∃ goal kept lost, Tries (.sequence parts) n s goal kept lost := by
  cases parts with
  | nil => exact ⟨_, _, _, .nothing⟩
  | cons part parts =>
      obtain ⟨goal, _, _, htries⟩ := exists_tries part n s
      cases goal with
      | none => exact ⟨_, _, _, .broken htries⟩
      | some goal =>
          obtain ⟨m, r⟩ := goal
          obtain ⟨_, _, _, hrest⟩ := exists_tries_sequence parts m r
          exact ⟨_, _, _, .behind htries hrest⟩

theorem exists_tries_choice (parts : List Pattern) (name : String) (n : Nat)
    (s : List Token) :
    ∃ goal kept lost, Tries (.choice parts name) n s goal kept lost := by
  cases parts with
  | nil => exact ⟨_, _, _, .barren⟩
  | cons part parts =>
      obtain ⟨goal, _, _, htries⟩ := exists_tries part n s
      cases goal with
      | some goal => exact ⟨_, _, _, .chosen htries⟩
      | none =>
          obtain ⟨_, _, _, hrest⟩ := exists_tries_choice parts name n s
          cases parts with
          | nil => exact ⟨_, _, _, .last htries⟩
          | cons q qs =>
              exact ⟨_, _, _, .other htries (List.cons_ne_nil q qs) hrest⟩

end

/-! ## What is carried -/

/-- The furthest of some positions. -/
def peak (positions : List Nat) : Nat := positions.foldr max 0

theorem peak_append (ms ns : List Nat) :
    peak (ms ++ ns) = max (peak ms) (peak ns) := by
  unfold peak
  induction ms with
  | nil => exact (Nat.zero_max _).symm
  | cons m ms ih =>
      rw [List.cons_append, List.foldr_cons, List.foldr_cons, ih, Nat.max_assoc]

theorem le_peak {ms : List Nat} (h : m ∈ ms) : m ≤ peak ms := by
  unfold peak
  induction ms with
  | nil => cases h
  | cons k ms ih =>
      rw [List.foldr_cons]
      rcases List.mem_cons.mp h with rfl | h
      · exact Nat.le_max_left _ _
      · exact Nat.le_trans (ih h) (Nat.le_max_right _ _)

theorem peak_mem {ms : List Nat} (h : ms ≠ []) : peak ms ∈ ms := by
  unfold peak
  induction ms with
  | nil => exact absurd rfl h
  | cons k ms ih =>
      rw [List.foldr_cons]
      cases ms with
      | nil => simp
      | cons l ms =>
          rcases Nat.le_total k ((l :: ms).foldr max 0) with hle | hle
          · rw [Nat.max_eq_right hle]
            exact List.mem_cons_of_mem _ (ih (List.cons_ne_nil l ms))
          · rw [Nat.max_eq_left hle]
            exact List.mem_cons_self

/-- The match has come out as the attempt says, and of the failure
that was carried to it and those that were kept the furthest is
carried on or reported. -/
def Answers (n : Nat) (kept : List Nat) (furthest : Option Failure) :
    Option (Nat × List Token) → Except Failure Cursor → Prop
  | some (m, r), .ok d => d.position = m ∧ d.rest = r ∧
      carried d.furthest = max (carried furthest) (peak kept)
  | none, .error failure =>
      failure.position = max (carried furthest) (peak kept) ∧
      n ≤ peak kept ∧ kept ≠ []
  | _, _ => False

theorem Answers.exists_cursor {result : Except Failure Cursor}
    (h : Answers n kept furthest (some (m, r)) result) :
    ∃ behind, result = .ok ⟨m, r, behind⟩ ∧
      carried behind = max (carried furthest) (peak kept) := by
  cases result with
  | error failure => exact h.elim
  | ok d =>
      obtain ⟨rfl, rfl, hcarried⟩ := h
      exact ⟨d.furthest, rfl, hcarried⟩

theorem Answers.exists_failure {result : Except Failure Cursor}
    (h : Answers n kept furthest none result) :
    ∃ failure, result = .error failure ∧
      failure.position = max (carried furthest) (peak kept) ∧ n ≤ peak kept ∧
      kept ≠ [] := by
  cases result with
  | ok d => exact h.elim
  | error failure => exact ⟨failure, rfl, h⟩

/-- A match goes on where another one has ended. -/
theorem Answers.append {furthest' : Option Failure} {kept' : List Nat}
    {result : Except Failure Cursor} (h : Answers m kept' furthest' goal result)
    (hcarried : carried furthest' = max (carried furthest) (peak kept))
    (hle : n ≤ m) : Answers n (kept ++ kept') furthest goal result := by
  have hpeak := peak_append kept kept'
  cases goal with
  | none =>
      obtain ⟨failure, rfl, hposition, hm, hne⟩ := h.exists_failure
      exact ⟨by omega, by omega, by simp [hne]⟩
  | some goal =>
      obtain ⟨m', r'⟩ := goal
      obtain ⟨behind, rfl, hbehind⟩ := h.exists_cursor
      refine ⟨rfl, rfl, ?_⟩
      show carried behind = _
      omega

theorem run_of_test? {test : Token → Bool} (hp : p.test? = some test) :
    ∃ wanted, ∀ c, run p c = c.take wanted test := by
  cases p with
  | keyword | keywordOf | identifier | constant | label =>
      obtain rfl := Option.some.inj hp
      exact ⟨_, fun _ => rfl⟩
  | endOfInput | sequence | option | repetition | choice => cases hp

theorem answers_fail (n : Nat) (s : List Token) (furthest : Option Failure)
    (wanted : Wanted) :
    Answers n [n] furthest none
      (.error (Cursor.fail ⟨n, s, furthest⟩ wanted)) := by
  have hposition := position_fail ⟨n, s, furthest⟩ wanted
  have hpeak : peak [n] = n := Nat.max_zero n
  refine ⟨?_, ?_, List.cons_ne_nil _ _⟩
  · rw [hposition, hpeak]
    exact Nat.max_comm _ _
  · rw [hpeak]

theorem carried_note (c : Cursor) (failure : Failure) :
    carried (c.note failure).furthest =
      max failure.position (carried c.furthest) :=
  position_deeper failure c.furthest

/-- The failure of a branch that is given up is carried on. -/
theorem answers_note (h : Answers n kept furthest none (.error failure))
    (s : List Token) :
    Answers n kept furthest (some (n, s))
      (.ok (Cursor.note ⟨n, s, furthest⟩ failure)) := by
  refine ⟨rfl, rfl, (carried_note ⟨n, s, furthest⟩ failure).trans ?_⟩
  have hposition : failure.position = max (carried furthest) (peak kept) := h.1
  show max failure.position (carried furthest) = _
  omega

/-! ### Alternatives -/

/-- Two matches that come out alike, the second with a failure at `m` to
carry. -/
inductive Lifts (m : Nat) :
    Except Failure Cursor → Except Failure Cursor → Prop where
  | ok {d e : Cursor} : e.position = d.position → e.rest = d.rest →
      carried e.furthest = max m (carried d.furthest) → Lifts m (.ok d) (.ok e)
  | error {f g : Failure} :
      g.position = max m f.position → Lifts m (.error f) (.error g)

theorem Lifts.between {k : Nat} {result low high : Except Failure Cursor}
    (hlow : Lifts k result low) (hhigh : Lifts (max k m) result high) :
    Lifts m low high := by
  cases hlow with
  | ok hposition hrest hcarried =>
      cases hhigh with
      | ok hposition' hrest' hcarried' =>
          exact .ok (hposition'.trans hposition.symm) (hrest'.trans hrest.symm)
            (by omega)
  | error hposition =>
      cases hhigh with
      | error hposition' => exact .error (by omega)

theorem position_noAlternative (h : c.reach ≤ failure.position)
    (name : String) :
    (noAlternative c name (some failure)).position = failure.position := by
  have hfail := position_fail c (.construct name)
  have hcursor : c.position ≤ c.reach := Nat.le_max_left ..
  unfold noAlternative
  simp only []
  split
  · rfl
  · omega

/-- A failure of alternatives in front is carried past those behind. -/
theorem lifts_runFirst (parts : List Pattern) (name : String) :
    ∀ {failure : Failure}, c.reach ≤ failure.position →
      Lifts failure.position (runFirst parts name none c)
        (runFirst parts name (some failure) c) := by
  induction parts with
  | nil =>
      intro failure h
      have hfail : (noAlternative c name none).position = c.reach :=
        position_fail ..
      have hdeeper := position_noAlternative h name
      exact .error (by omega)
  | cons part parts ih =>
      intro failure h
      have honward := onward_run part c
      unfold runFirst
      cases hrun : run part c with
      | ok d => exact .ok rfl rfl (carried_note d failure)
      | error other =>
          rw [hrun] at honward
          have hother : c.reach ≤ other.position := honward
          have hdeeper := position_deeper other (some failure)
          have hcarried : carried (some failure) = failure.position := rfl
          have hhigh := @ih (other.deeper (some failure)) (by omega)
          rw [hdeeper, hcarried] at hhigh
          exact (ih hother).between hhigh

/-- Alternatives are tried behind one that has failed. -/
theorem Answers.lift {kept' : List Nat} {low high : Except Failure Cursor}
    (h : Answers n kept' furthest goal low)
    (hlifts : Lifts failure.position low high)
    (hposition : failure.position = max (carried furthest) (peak kept))
    (hle : n ≤ peak kept) (hne : kept ≠ []) :
    Answers n (kept ++ kept') furthest goal high := by
  have hpeak := peak_append kept kept'
  cases goal with
  | none =>
      obtain ⟨last, rfl, hlast, -⟩ := h.exists_failure
      cases hlifts with
      | error hhigh => exact ⟨by omega, by omega, by simp [hne]⟩
  | some goal =>
      obtain ⟨m, r⟩ := goal
      obtain ⟨behind, rfl, hbehind⟩ := h.exists_cursor
      cases hlifts with
      | @ok d e hd hr hcarried =>
          have hcarried :
              carried e.furthest = max failure.position (carried behind) :=
              hcarried
          exact ⟨hd, hr, by omega⟩

/-! ### Attempts and matches -/

/-- What is tried is what is done, whatever failure is carried to it. -/
theorem Tries.answers (h : Tries p n s goal kept lost) :
    ∀ furthest, Answers n kept furthest goal (run p ⟨n, s, furthest⟩) := by
  have hnone :
      ∀ furthest, carried furthest = max (carried furthest) (peak []) :=
    fun _ => (Nat.max_zero _).symm
  induction h with
  | pass hp ht =>
      intro furthest
      obtain ⟨wanted, hrun⟩ := run_of_test? hp
      rw [hrun]
      unfold Cursor.take
      simp only [ht, if_true]
      exact ⟨rfl, rfl, hnone furthest⟩
  | @miss p test n s hp ht =>
      intro furthest
      obtain ⟨wanted, hrun⟩ := run_of_test? hp
      rw [hrun]
      cases s with
      | nil => exact answers_fail ..
      | cons t s =>
          unfold Cursor.take
          simp only [ht t rfl, Bool.false_eq_true, if_false]
          exact answers_fail ..
  | ended | nothing => exact fun furthest => ⟨rfl, rfl, hnone furthest⟩
  | unended => exact fun furthest => answers_fail ..
  | broken _ ih =>
      intro furthest
      obtain ⟨failure, hrun, hfailure⟩ := (ih furthest).exists_failure
      show Answers _ _ _ _ (runAll _ _)
      unfold runAll
      rw [hrun]
      exact hfailure
  | behind hpart _ ih ih' =>
      intro furthest
      obtain ⟨furthest', hrun, hcarried⟩ := (ih furthest).exists_cursor
      show Answers _ _ _ _ (runAll _ _)
      unfold runAll
      rw [hrun]
      exact (ih' furthest').append hcarried (hpart.onward rfl).1
  | taken _ ih =>
      intro furthest
      obtain ⟨furthest', hrun, hcarried⟩ := (ih furthest).exists_cursor
      unfold run
      rw [hrun]
      exact ⟨rfl, rfl, hcarried⟩
  | @omitted part n s kept lost _ ih =>
      intro furthest
      have hpart := ih furthest
      obtain ⟨failure, hrun, -⟩ := hpart.exists_failure
      rw [hrun] at hpart
      unfold run
      rw [hrun]
      exact answers_note hpart s
  | @stop part n s kept lost _ ih =>
      intro furthest
      have hpart := ih furthest
      obtain ⟨failure, hrun, -⟩ := hpart.exists_failure
      rw [hrun] at hpart
      unfold run rounds
      simp only [hrun]
      exact answers_note hpart s
  | idle _ hle ih =>
      intro furthest
      obtain ⟨furthest', hrun, -⟩ := (ih furthest).exists_cursor
      unfold run rounds
      simp only [hrun, if_neg (Nat.not_lt.mpr hle)]
      exact ⟨rfl, rfl, hnone furthest⟩
  | @round part n m s r goal kept lost kept' lost' hpart hlt _ ih ih' =>
      intro furthest
      obtain ⟨furthest', hrun, hcarried⟩ := (ih furthest).exists_cursor
      have honward := hpart.onward rfl
      have hbound : rounds (run part) s.length ⟨m, r, furthest'⟩ =
          rounds (run part) (r.length + 1) ⟨m, r, furthest'⟩ :=
        rounds_eq part (show r.length < s.length by omega) (Nat.lt_succ_self _)
      unfold run rounds
      simp only [hrun, if_pos hlt, hbound]
      exact (ih' furthest').append hcarried honward.1
  | barren => exact fun furthest => answers_fail ..
  | chosen _ ih =>
      intro furthest
      obtain ⟨furthest', hrun, hcarried⟩ := (ih furthest).exists_cursor
      show Answers _ _ _ _ (runFirst _ _ _ _)
      unfold runFirst
      rw [hrun]
      exact ⟨rfl, rfl, hcarried⟩
  | @last part name n s kept lost _ ih =>
      intro furthest
      obtain ⟨failure, hrun, hposition, hle, hne⟩ :=
        (ih furthest).exists_failure
      have honward := onward_run part ⟨n, s, furthest⟩
      rw [hrun] at honward
      have hreach : Cursor.reach ⟨n, s, furthest⟩ ≤ failure.position := honward
      have hsame := position_noAlternative hreach name
      show Answers _ _ _ _ (runFirst _ _ _ _)
      unfold runFirst
      rw [hrun]
      exact ⟨hsame.trans hposition, hle, hne⟩
  | @other part parts name n s goal kept lost kept' lost' _ _ _ ih ih' =>
      intro furthest
      obtain ⟨failure, hrun, hposition, hle, hne⟩ :=
        (ih furthest).exists_failure
      have honward := onward_run part ⟨n, s, furthest⟩
      rw [hrun] at honward
      have hreach : Cursor.reach ⟨n, s, furthest⟩ ≤ failure.position := honward
      show Answers _ _ _ _ (runFirst _ _ _ _)
      unfold runFirst
      rw [hrun]
      exact (ih' furthest).lift (lifts_runFirst parts name hreach)
        hposition hle hne

/-- A round of a steady pattern is never idle. -/
theorem Tries.lost_eq_nil (h : Tries p n s goal kept lost) :
    Steady p → lost = [] := by
  induction h with
  | pass | miss | ended | unended | nothing | barren => exact fun _ => rfl
  | broken _ ih | chosen _ ih | last _ ih => exact fun hp => ih hp.1
  | taken _ ih | omitted _ ih => exact fun hp => ih hp
  | stop _ ih => exact fun hp => ih hp.1
  | behind _ _ ih ih' => exact fun hp => by rw [ih hp.1, ih' hp.2]; rfl
  | round _ _ _ ih ih' => exact fun hp => by rw [ih hp.1, ih' hp]; rfl
  | other _ _ _ ih ih' => exact fun hp => by rw [ih hp.1, ih' hp.2]; rfl
  | idle hpart hle _ =>
      intro hp
      obtain ⟨furthest, hrun, -⟩ := (hpart.answers none).exists_cursor
      have hlt := hp.2 _ _ hrun
      exact absurd hlt (Nat.not_lt.mpr hle)

/-- A match that fails reports the furthest of all failed tests, apart from
those in rounds that took nothing. So what it reports is the furthest of all if
and only if none of the latter is further, and for steady patterns there are
none of these. -/
theorem furthest_of_matchTokens {tokens : List Token}
    (h : p.matchTokens tokens = .error failure) :
    (∃ goal kept lost, Tries p 0 tokens goal kept lost) ∧
      ∀ goal kept lost, Tries p 0 tokens goal kept lost →
        goal = none ∧ IsGreatest {n | n ∈ kept} failure.position ∧
        (IsGreatest {n | n ∈ kept ++ lost} failure.position ↔
          ∀ n ∈ lost, n ≤ failure.position) ∧
        (Steady p → lost = []) := by
  refine ⟨exists_tries p 0 tokens, fun goal kept lost htries => ?_⟩
  have hrun : run p ⟨0, tokens, none⟩ = .error failure := by
    unfold matchTokens at h
    cases hrun : run p (.ofTokens tokens) with
    | ok d => rw [hrun] at h; cases h
    | error other =>
        rw [hrun] at h
        exact hrun.trans (congrArg Except.error (Except.error.inj h))
  have hanswers := htries.answers none
  rw [hrun] at hanswers
  cases goal with
  | some goal => exact hanswers.elim
  | none =>
      obtain ⟨hposition, -, hne⟩ := hanswers
      have hpeak : failure.position = peak kept :=
        hposition.trans (Nat.zero_max _)
      have hmem : failure.position ∈ kept := hpeak ▸ peak_mem hne
      have hle : ∀ n ∈ kept, n ≤ failure.position :=
        fun n hn => hpeak ▸ le_peak hn
      refine ⟨rfl, ⟨hmem, hle⟩,
        ⟨fun hall n hn => ?_, fun hlost => ⟨?_, fun n hn => ?_⟩⟩,
        htries.lost_eq_nil⟩
      · exact hall.2 (List.mem_append_right kept hn)
      · exact List.mem_append_left lost hmem
      · exact (List.mem_append.mp hn).elim (hle n) (hlost n)

/-! ## Names behind commas -/

/-- Names with a comma before each, up to the end of the input. -/
def listed : Pattern :=
  .sequence [.repetition (.sequence [.keyword ",", .identifier]), .endOfInput]

/-- A list whose third item is no name. -/
def unlisted : List Token :=
  [.keyword "," 1, .word (.identifier "a") 1 none, .keyword "," 1,
    .word (.identifier "b") 1 none, .keyword "," 1,
    .word (.constant .one) 1 none]

/-- The end of the input fails behind the second item, and the third item fails
further on, in a round that is given up. -/
theorem furthest_of_unlisted :
    listed.matchTokens unlisted = .error ⟨.construct "identifier", 5⟩ ∧
      ∃ goal kept lost, Tries listed 0 unlisted goal kept lost ∧
        IsGreatest {n | n ∈ kept} 5 ∧ lost = [] := by
  have hmatch :
      listed.matchTokens unlisted = .error ⟨.construct "identifier", 5⟩ := rfl
  obtain ⟨⟨goal, kept, lost, htries⟩, hall⟩ := furthest_of_matchTokens hmatch
  obtain ⟨-, hgreatest, -, hlost⟩ := hall goal kept lost htries
  have hsteady : Steady listed :=
    ⟨⟨⟨trivial, trivial, trivial⟩, moves_sequence (moves_keyword ",") _⟩,
      trivial, trivial⟩
  exact ⟨hmatch, goal, kept, lost, htries, hgreatest, hlost hsteady⟩

/-! ## An idle round -/

/-- Three names or none, again and again, up to the end of the input. -/
def triples : Pattern :=
  .sequence [
    .repetition (.option (.sequence [.identifier, .identifier, .identifier])),
    .endOfInput]

/-- Two names. -/
def pair : List Token :=
  [.word (.identifier "a") 1 none, .word (.identifier "b") 1 none]

/-- The third name is missing behind the second one, but what is reported is
that the input does not end before the first. -/
theorem triples_forgets_failure : ∃ failure kept lost,
    triples.matchTokens pair = .error failure ∧ failure.position = 0 ∧
      Tries triples 0 pair none kept lost ∧
      ¬ IsGreatest {n | n ∈ kept ++ lost} failure.position := by
  have hname : ∀ {n x s},
      Tries .identifier n (.word (.identifier x) 1 none :: s)
        (some (n + 1, s)) [] [] := .pass rfl rfl
  have hmissing : Tries .identifier 2 [] none [2] [] := .miss rfl nofun
  have hround :
      Tries (.option (.sequence [.identifier, .identifier, .identifier]))
        0 pair (some (0, pair)) [2] [] :=
    .omitted (.behind hname (.behind hname (.broken hmissing)))
  have htries : Tries triples 0 pair none [0] [2] :=
    .behind (.idle hround (Nat.le_refl 0)) (.broken .unended)
  refine ⟨⟨.endOfInput, 0⟩, _, _, rfl, rfl, htries, fun h => ?_⟩
  have hle : (2 : Nat) ≤ 0 := h.2 (show 2 ∈ [0] ++ [2] by decide)
  exact absurd hle (by decide)

end Reckon.Pattern
