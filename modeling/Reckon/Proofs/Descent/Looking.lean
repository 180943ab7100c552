import Reckon.Proofs.Descent.Matching

/-!
# How far a match looks

A cursor carries the furthest failure, so no place that was ever looked at is
behind the one that is reported in the end. Two inputs that do not differ up to
there are matched alike: the same failure is reported for both.

That is stated for any two cursors with the same position and the same
failure to carry, and of all their matches only those that do not look beyond
what the inputs share.
-/

namespace Reckon

/-- The position of a failure that is carried along, if there is one. -/
def Failure.carried (furthest : Option Failure) : Nat :=
  furthest.elim 0 Failure.position

/-- The furthest place that has been looked at. -/
def Cursor.reach (c : Cursor) : Nat :=
  max c.position (Failure.carried c.furthest)

namespace Pattern

open Failure (carried)

/-- The furthest place that a match has looked at. -/
def reach : Except Failure Cursor → Nat
  | .ok d => d.reach
  | .error failure => failure.position

/-- A match takes a cursor onward, and what it has looked at stays looked at. -/
def Onward (c : Cursor) : Except Failure Cursor → Prop
  | .ok d => c.position ≤ d.position ∧ c.reach ≤ d.reach
  | .error failure => c.reach ≤ failure.position

variable {c d : Cursor} {failure : Failure} {wanted : Wanted}

theorem Onward.reach_le {result : Except Failure Cursor} (h : Onward c result) :
    c.reach ≤ reach result := by
  cases result with
  | ok d => exact h.2
  | error failure => exact h

theorem position_deeper (failure : Failure) (other : Option Failure) :
    (failure.deeper other).position = max failure.position (carried other) := by
  unfold Failure.deeper carried
  cases other with
  | none => simp
  | some other =>
      show Failure.position (if _ then _ else _) = max _ other.position
      split <;> omega

theorem position_fail (c : Cursor) (wanted : Wanted) :
    (c.fail wanted).position = c.reach := position_deeper ..

theorem reach_note (c : Cursor) (failure : Failure) :
    (c.note failure).reach = max failure.position c.reach := by
  have h : carried (some (failure.deeper c.furthest)) =
      max failure.position (carried c.furthest) := position_deeper ..
  show max c.position (carried (some (failure.deeper c.furthest))) =
    max failure.position (max c.position (carried c.furthest))
  omega

theorem onward_take (c : Cursor) (wanted : Wanted) (test : Token → Bool) :
    Onward c (c.take wanted test) := by
  have hfail : Onward c (.error (c.fail wanted)) :=
    Nat.le_of_eq (position_fail c wanted).symm
  unfold Cursor.take
  split
  · split
    · refine ⟨Nat.le_succ _, ?_⟩
      unfold Cursor.reach
      show _ ≤ max (c.position + 1) (carried c.furthest)
      omega
    · exact hfail
  · exact hfail

theorem onward_note (c : Cursor) (failure : Failure) :
    Onward c (.ok (c.note failure)) := by
  refine ⟨Nat.le_refl _, ?_⟩
  rw [reach_note]
  exact Nat.le_max_right ..

theorem onward_rounds {round : Cursor → Except Failure Cursor}
    (hround : ∀ c, Onward c (round c)) (bound : Nat) :
    ∀ c, Onward c (.ok (rounds round bound c)) := by
  induction bound with
  | zero => exact fun c => ⟨Nat.le_refl _, Nat.le_refl _⟩
  | succ bound ih =>
      intro c
      have hfirst := hround c
      unfold rounds
      split
      · next next hok =>
          rw [hok] at hfirst
          split
          · exact ⟨Nat.le_trans hfirst.1 (ih next).1,
              Nat.le_trans hfirst.2 (ih next).2⟩
          · exact ⟨Nat.le_refl _, Nat.le_refl _⟩
      · exact onward_note c _

theorem Onward.deeper (h : Onward c (.error failure))
    (deepest : Option Failure) :
    ∀ other, some (failure.deeper deepest) = some other →
      c.reach ≤ other.position := by
  intro other hother
  obtain rfl := Option.some.inj hother
  have hdeeper := position_deeper failure deepest
  have : c.reach ≤ failure.position := h
  omega

mutual

theorem onward_run (p : Pattern) (c : Cursor) : Onward c (run p c) := by
  cases p with
  | keyword | keywordOf | identifier | constant | label => exact onward_take ..
  | endOfInput =>
      unfold run
      split
      · exact ⟨Nat.le_refl _, Nat.le_refl _⟩
      · exact Nat.le_of_eq (position_fail c _).symm
  | sequence parts => exact onward_runAll parts c
  | option part =>
      have h := onward_run part c
      unfold run
      split
      · next hok => rwa [hok] at h
      · exact onward_note c _
  | repetition part =>
      unfold run
      exact onward_rounds (onward_run part) _ c
  | choice alternatives name =>
      unfold run
      have hnone : ∀ failure, (none : Option Failure) = some failure →
          c.reach ≤ failure.position := nofun
      exact (onward_runFirst alternatives name hnone).1

theorem onward_runAll (parts : List Pattern) (c : Cursor) :
    Onward c (runAll parts c) := by
  cases parts with
  | nil => exact ⟨Nat.le_refl _, Nat.le_refl _⟩
  | cons part parts =>
      have h := onward_run part c
      unfold runAll
      split
      · next next hok =>
          rw [hok] at h
          have hrest := onward_runAll parts next
          cases hrun : runAll parts next with
          | ok d =>
              rw [hrun] at hrest
              exact ⟨Nat.le_trans h.1 hrest.1, Nat.le_trans h.2 hrest.2⟩
          | error other =>
              rw [hrun] at hrest
              exact Nat.le_trans h.2 hrest
      · next herror => rwa [herror] at h

/-- The failures of the alternatives in front are not forgotten either. -/
theorem onward_runFirst (parts : List Pattern) (name : String)
    {deepest : Option Failure} {c : Cursor}
    (hdeepest : ∀ failure, deepest = some failure →
      c.reach ≤ failure.position) : Onward c (runFirst parts name deepest c) ∧
      carried deepest ≤ reach (runFirst parts name deepest c) := by
  cases parts with
  | nil =>
      have hfail := position_fail c (.construct name)
      have hcursor : c.position ≤ c.reach := Nat.le_max_left ..
      show c.reach ≤ (noAlternative c name deepest).position ∧
        carried deepest ≤ (noAlternative c name deepest).position
      unfold noAlternative
      split
      · next other =>
          show _ ∧ other.position ≤ _
          split
          · exact ⟨hdeepest other rfl, Nat.le_refl _⟩
          · omega
      · exact ⟨Nat.le_of_eq hfail.symm, Nat.zero_le _⟩
  | cons part parts =>
      have h := onward_run part c
      unfold runFirst
      split
      · next next hok =>
          rw [hok] at h
          cases deepest with
          | none => exact ⟨h, Nat.zero_le _⟩
          | some other =>
              have hnote := reach_note next other
              refine ⟨⟨h.1, ?_⟩, ?_⟩
              · have := h.2
                show _ ≤ (next.note other).reach
                omega
              · show other.position ≤ (next.note other).reach
                omega
      · next other herror =>
          rw [herror] at h
          have hdeeper := position_deeper other deepest
          have hrest := onward_runFirst parts name (h.deeper deepest)
          have hcarried : (other.deeper deepest).position ≤ _ := hrest.2
          exact ⟨hrest.1, by omega⟩

end

/-! ## Inputs with a common front -/

/-- Two cursors that cannot be told apart by what is in front of a place. -/
structure Shared (n : Nat) (c c' : Cursor) : Prop where
  position : c.position = c'.position
  furthest : c.furthest = c'.furthest
  front :
    ∃ u m m', c.rest = u ++ m ∧ c'.rest = u ++ m' ∧ c.position + u.length = n

/-- Two matches that cannot be told apart either. -/
inductive Alike (n : Nat) :
    Except Failure Cursor → Except Failure Cursor → Prop where
  | ok {d d' : Cursor} : Shared n d d' → Alike n (.ok d) (.ok d')
  | error (failure : Failure) : Alike n (.error failure) (.error failure)

variable {n : Nat} {c' : Cursor} {result : Except Failure Cursor}

theorem Alike.of_ok (h : Alike n (.ok d) result) :
    ∃ d', result = .ok d' ∧ Shared n d d' := by
  cases h with
  | ok h => exact ⟨_, rfl, h⟩

theorem Alike.of_error (h : Alike n (.error failure) result) :
    result = .error failure := by
  cases h
  rfl

namespace Shared

theorem fail (h : Shared n c c') (wanted : Wanted) :
    c.fail wanted = c'.fail wanted := by
  unfold Cursor.fail
  rw [h.position, h.furthest]

theorem note (h : Shared n c c') (failure : Failure) :
    Shared n (c.note failure) (c'.note failure) where
  position := h.position
  furthest := congrArg (fun other => some (failure.deeper other)) h.furthest
  front := h.front

/-- In front of the place both inputs go on with the same token. -/
theorem next (h : Shared n c c') (hlt : c.reach < n) : ∃ t r r',
    c.rest = t :: r ∧ c'.rest = t :: r' ∧
      Shared n { c with position := c.position + 1, rest := r }
        { c' with position := c'.position + 1, rest := r' } := by
  obtain ⟨u, m, m', hu, hu', hn⟩ := h.front
  have hcursor : c.position ≤ c.reach := Nat.le_max_left ..
  cases u with
  | nil =>
      rw [List.length_nil] at hn
      omega
  | cons t u =>
      refine ⟨t, u ++ m, u ++ m', hu, hu', congrArg (· + 1) h.position,
        h.furthest, u, m, m', rfl, rfl, ?_⟩
      rw [List.length_cons] at hn
      show c.position + 1 + u.length = n
      omega

end Shared

theorem alike_take {test : Token → Bool} (h : Shared n c c')
    (hlt : c.reach < n) :
    Alike n (c.take wanted test) (c'.take wanted test) := by
  obtain ⟨t, r, r', hr, hr', hnext⟩ := h.next hlt
  unfold Cursor.take
  rw [hr, hr']
  dsimp only
  split
  · exact .ok hnext
  · rw [h.fail]
    exact .error _

/-- A match of the pattern takes at least one token. -/
def Moves (p : Pattern) : Prop :=
  ∀ c d, run p c = .ok d → c.position < d.position

theorem position_lt_of_take {test : Token → Bool}
    (h : c.take wanted test = .ok d) : c.position < d.position := by
  unfold Cursor.take at h
  split at h
  · split at h
    · cases h
      exact Nat.lt_succ_self _
    · cases h
  · cases h

theorem moves_keyword (text : String) : Moves (.keyword text) :=
  fun _ _ h => position_lt_of_take h

theorem moves_keywordOf (texts : List String) (name : String) :
    Moves (.keywordOf texts name) :=
  fun _ _ h => position_lt_of_take h

theorem moves_sequence {p : Pattern} (hp : Moves p) (parts : List Pattern) :
    Moves (.sequence (p :: parts)) := by
  intro c d h
  change runAll (p :: parts) c = .ok d at h
  unfold runAll at h
  split at h
  · next next hok =>
      have hrest := onward_runAll parts next
      rw [h] at hrest
      exact Nat.lt_of_lt_of_le (hp c next hok) hrest.1
  · cases h

mutual

/-- Repetitions do not end with a round that matches and takes nothing, so that
no failure is lost with it. -/
def Steady : Pattern → Prop
  | .sequence parts => SteadyAll parts
  | .option part => Steady part
  | .repetition part => Steady part ∧ Moves part
  | .choice alternatives _ => SteadyAll alternatives
  | _ => True

/-- All of the patterns are steady. -/
def SteadyAll : List Pattern → Prop
  | [] => True
  | part :: parts => Steady part ∧ SteadyAll parts

end

/-- The bounds of the repetitions differ with the inputs and are of no
importance. -/
theorem shared_rounds {p : Pattern} (hmoves : Moves p)
    (hround : ∀ {c c'}, Shared n c c' → reach (run p c) < n →
      Alike n (run p c) (run p c')) (bound : Nat) :
    ∀ {bound' : Nat} {c c' : Cursor}, Shared n c c' →
      c.rest.length < bound → c'.rest.length < bound' →
        (rounds (run p) bound c).reach < n →
          Shared n (rounds (run p) bound c) (rounds (run p) bound' c') := by
  induction bound with
  | zero => exact fun _ hbound => absurd hbound (Nat.not_lt_zero _)
  | succ bound ih =>
      intro bound' c c' h hbound hbound' hlt
      obtain ⟨bound', rfl⟩ : ∃ k, bound' = k + 1 := ⟨bound' - 1, by omega⟩
      unfold rounds at hlt ⊢
      cases hrun : run p c with
      | ok next =>
          have hmove := hmoves c next hrun
          have htotal := (leaves_of_run p hrun).2
          rw [hrun] at hlt
          simp only [if_pos hmove] at hlt
          have hnext : next.reach < n :=
            Nat.lt_of_le_of_lt (onward_rounds (onward_run p) bound next).2 hlt
          obtain ⟨next', hrun', hshared⟩ :=
            Alike.of_ok (hrun ▸ hround h (by rw [hrun]; exact hnext))
          have hmove' := hmoves c' next' hrun'
          have htotal' := (leaves_of_run p hrun').2
          simp only [Cursor.total] at htotal htotal'
          simp only [hrun', if_pos hmove, if_pos hmove']
          exact ih hshared (by omega) (by omega) hlt
      | error failure =>
          rw [hrun] at hlt
          have hnote := reach_note c failure
          have hfailure : failure.position < n := by
            have : (c.note failure).reach < n := hlt
            omega
          have hrun' :=
            Alike.of_error (hrun ▸ hround h (by rw [hrun]; exact hfailure))
          simp only [hrun']
          exact h.note failure

mutual

/-- A match that does not look beyond what two inputs share is the same for
both. -/
theorem alike_of_run (p : Pattern) (hp : Steady p) {c c' : Cursor}
    (h : Shared n c c') (hlt : reach (run p c) < n) :
    Alike n (run p c) (run p c') := by
  have hcursor : c.reach < n := Nat.lt_of_le_of_lt (onward_run p c).reach_le hlt
  cases p with
  | keyword | keywordOf | identifier | constant | label =>
      exact alike_take h hcursor
  | endOfInput =>
      obtain ⟨t, r, r', hr, hr', -⟩ := h.next hcursor
      unfold run
      rw [hr, hr', h.fail]
      exact .error _
  | sequence parts => exact alike_of_runAll parts hp h hlt
  | option part =>
      unfold run at hlt ⊢
      cases hrun : run part c with
      | ok d =>
          rw [hrun] at hlt
          obtain ⟨d', hrun', hshared⟩ :=
            Alike.of_ok
              (hrun ▸ alike_of_run part hp h (by rw [hrun]; exact hlt))
          rw [hrun']
          exact .ok hshared
      | error failure =>
          rw [hrun] at hlt
          have hnote := reach_note c failure
          have hfailure : failure.position < n := by
            have : (c.note failure).reach < n := hlt
            omega
          have hrun' := Alike.of_error
            (hrun ▸ alike_of_run part hp h (by rw [hrun]; exact hfailure))
          rw [hrun']
          exact .ok (h.note failure)
  | repetition part =>
      unfold run at hlt ⊢
      exact .ok (shared_rounds hp.2 (alike_of_run part hp.1) _ h
        (Nat.lt_succ_self _) (Nat.lt_succ_self _) hlt)
  | choice alternatives name =>
      unfold run at hlt ⊢
      exact alike_of_runFirst alternatives hp h (fun _ h => nomatch h) hlt

theorem alike_of_runAll (parts : List Pattern) (hparts : SteadyAll parts)
    {c c' : Cursor} (h : Shared n c c') (hlt : reach (runAll parts c) < n) :
    Alike n (runAll parts c) (runAll parts c') := by
  cases parts with
  | nil => exact .ok h
  | cons part parts =>
      unfold runAll at hlt ⊢
      cases hrun : run part c with
      | ok d =>
          rw [hrun] at hlt
          have hd : d.reach < n :=
            Nat.lt_of_le_of_lt (onward_runAll parts d).reach_le hlt
          obtain ⟨d', hrun', hshared⟩ := Alike.of_ok
            (hrun ▸ alike_of_run part hparts.1 h (by rw [hrun]; exact hd))
          rw [hrun']
          exact alike_of_runAll parts hparts.2 hshared hlt
      | error failure =>
          rw [hrun] at hlt
          have hrun' := Alike.of_error
            (hrun ▸ alike_of_run part hparts.1 h (by rw [hrun]; exact hlt))
          rw [hrun']
          exact .error failure

theorem alike_of_runFirst (parts : List Pattern) (hparts : SteadyAll parts)
    {name : String} {deepest : Option Failure} {c c' : Cursor}
    (h : Shared n c c') (hdeepest : ∀ failure, deepest = some failure →
      c.reach ≤ failure.position)
    (hlt : reach (runFirst parts name deepest c) < n) :
    Alike n (runFirst parts name deepest c)
      (runFirst parts name deepest c') := by
  cases parts with
  | nil =>
      unfold runFirst noAlternative
      rw [h.fail, h.position]
      exact .error _
  | cons part parts =>
      unfold runFirst at hlt ⊢
      cases hrun : run part c with
      | ok d =>
          rw [hrun] at hlt
          have hd : d.reach < n := by
            cases deepest with
            | none => exact hlt
            | some other =>
                have hnote := reach_note d other
                have : (d.note other).reach < n := hlt
                omega
          obtain ⟨d', hrun', hshared⟩ := Alike.of_ok
            (hrun ▸ alike_of_run part hparts.1 h (by rw [hrun]; exact hd))
          rw [hrun']
          cases deepest with
          | none => exact .ok hshared
          | some other => exact .ok (hshared.note other)
      | error failure =>
          rw [hrun] at hlt
          have hfailed := onward_run part c
          rw [hrun] at hfailed
          have hfurther := hfailed.deeper deepest
          have hfailure : failure.position < n := by
            have hdeeper := position_deeper failure deepest
            have hcarried : (failure.deeper deepest).position ≤ _ :=
              (onward_runFirst parts name hfurther).2
            have : reach
                (runFirst parts name (some (failure.deeper deepest)) c) < n :=
              hlt
            omega
          have hrun' := Alike.of_error
            (hrun ▸ alike_of_run part hparts.1 h (by rw [hrun]; exact hfailure))
          rw [hrun']
          exact alike_of_runFirst parts hparts.2 h hfurther hlt

end

end Pattern

end Reckon
