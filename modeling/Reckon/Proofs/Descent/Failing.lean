import Reckon.Proofs.Descent.Matching

/-!
# Where matches fail

The failure that a match ends with, or that the cursor behind it carries, is at
a place that the pattern may come to. `Stops p s m` is to failures what
`Leaves p s r` is to successes: it forgets which of several failures is reported
and keeps that it was a failure of the pattern or of something in it. Branches
that were given up count, since their failures are carried along.
-/

namespace Reckon

namespace Pattern

/-! ## Places of failures -/

mutual

/-- In front of `s` a match of the pattern, or of a branch that it gives up, may
fail with `m` left. -/
def Stops : Pattern → List Token → List Token → Prop
  | .sequence parts, s, m => StopsAll parts s m
  | .option part, s, m => Stops part s m
  | .repetition part, s, m =>
      ∃ q, Relation.ReflTransGen (Leaves part) s q ∧ Stops part q m
  | .choice alternatives _, s, m => m = s ∨ StopsSome alternatives s m
  | _, s, m => m = s

/-- One of the patterns may fail with `m` left, if those in front of it
match. -/
def StopsAll : List Pattern → List Token → List Token → Prop
  | [], _, _ => False
  | part :: parts, s, m =>
      Stops part s m ∨ ∃ q, Leaves part s q ∧ StopsAll parts q m

/-- One of the patterns may fail with `m` left. -/
def StopsSome : List Pattern → List Token → List Token → Prop
  | [], _, _ => False
  | part :: parts, s, m => Stops part s m ∨ StopsSome parts s m

end

/-- The failure that a match ends with, or that the cursor behind it carries. -/
def failure? : Except Failure Cursor → Option Failure
  | .ok d => d.furthest
  | .error failure => some failure

/-- The failure has been carried to the cursor, or it is at one of some
places. -/
def Explains (places : List Token → Prop) (c : Cursor)
    (failure : Failure) : Prop :=
  c.furthest = some failure ∨
    ∃ m, places m ∧ failure.position + m.length = c.total

variable {c d : Cursor} {failure : Failure} {wanted : Wanted}
  {places places' : List Token → Prop}

theorem Explains.mono (h : Explains places c failure)
    (hplaces : ∀ m, places m → places' m) : Explains places' c failure := by
  rcases h with h | ⟨m, hm, hposition⟩
  · exact .inl h
  · exact .inr ⟨m, hplaces m hm, hposition⟩

theorem deeper_cases (failure : Failure) (other : Option Failure) :
    failure.deeper other = failure ∨ other = some (failure.deeper other) := by
  unfold Failure.deeper
  split
  · split
    · exact .inr rfl
    · exact .inl rfl
  · exact .inl rfl

/-- What is reported at a cursor is a failure there, or it was carried along. -/
theorem explains_fail (h : places c.rest) :
    Explains places c (c.fail wanted) := by
  rcases deeper_cases ⟨wanted, c.position⟩ c.furthest with hhere | hcarried
  · refine .inr ⟨c.rest, h, ?_⟩
    unfold Cursor.fail
    rw [hhere]
    rfl
  · exact .inl hcarried

theorem explains_note {other : Failure} (h : Explains places c failure)
    (hother : (c.note failure).furthest = some other) :
    Explains places c other := by
  obtain rfl := Option.some.inj hother
  rcases deeper_cases failure c.furthest with hhere | hcarried
  · rwa [hhere]
  · exact .inl hcarried

theorem explains_take {test : Token → Bool} (hplaces : places c.rest)
    (h : failure? (c.take wanted test) = some failure) :
    Explains places c failure := by
  unfold Cursor.take at h
  split at h
  · split at h
    · exact .inl h
    · obtain rfl := Option.some.inj h
      exact explains_fail hplaces
  · obtain rfl := Option.some.inj h
    exact explains_fail hplaces

theorem explains_rounds {round : Cursor → Except Failure Cursor}
    {R S : List Token → List Token → Prop}
    (hround : ∀ c d, round c = .ok d → R c.rest d.rest ∧ d.total = c.total)
    (hplaces : ∀ c failure, failure? (round c) = some failure →
      Explains (S c.rest) c failure)
    (bound : Nat) :
    ∀ c : Cursor, (rounds round bound c).furthest = some failure →
      Explains (fun m => ∃ q, Relation.ReflTransGen R c.rest q ∧ S q m) c
        failure := by
  induction bound with
  | zero => exact fun c h => .inl h
  | succ bound ih =>
      intro c h
      unfold rounds at h
      split at h
      · next next hok =>
          obtain ⟨hstep, htotal⟩ := hround c next hok
          split at h
          · rcases ih next h with hcarried | ⟨m, ⟨q, hrest, hm⟩, hposition⟩
            · refine (hplaces c failure (by rw [hok]; exact hcarried)).mono ?_
              exact fun m hm => ⟨c.rest, .refl, hm⟩
            · exact .inr ⟨m, ⟨q, .head hstep hrest, hm⟩, hposition.trans htotal⟩
          · exact .inl h
      · next other herror =>
          have hother := hplaces c other (by rw [herror]; rfl)
          exact (explains_note hother h).mono fun m hm => ⟨c.rest, .refl, hm⟩

mutual

/-- A failure is at a place where the pattern may fail. -/
theorem stops_of_run (p : Pattern) {c : Cursor} {failure : Failure}
    (h : failure? (run p c) = some failure) :
    Explains (Stops p c.rest) c failure := by
  cases p with
  | keyword | keywordOf | identifier | constant | label =>
      exact explains_take (by simp [Stops]) h
  | endOfInput =>
      unfold run at h
      split at h
      · exact .inl h
      · obtain rfl := Option.some.inj h
        exact explains_fail (by simp [Stops])
  | sequence parts => exact stopsAll_of_runAll parts h
  | option part =>
      unfold run at h
      cases hrun : run part c with
      | ok d =>
          rw [hrun] at h
          exact stops_of_run part (by rw [hrun]; exact h)
      | error other =>
          rw [hrun] at h
          exact explains_note (stops_of_run part (by rw [hrun]; rfl)) h
  | repetition part =>
      unfold run at h
      exact explains_rounds (fun c d hok => leaves_of_run part hok)
        (fun c failure hfailure => stops_of_run part hfailure) _ c h
  | choice alternatives name =>
      unfold run at h
      rcases stopsSome_of_runFirst alternatives h with hplace | hdeepest
      · exact hplace
      · cases hdeepest

theorem stopsAll_of_runAll (parts : List Pattern) {c : Cursor}
    {failure : Failure} (h : failure? (runAll parts c) = some failure) :
    Explains (StopsAll parts c.rest) c failure := by
  cases parts with
  | nil => exact .inl h
  | cons part parts =>
      unfold runAll at h
      cases hrun : run part c with
      | ok d =>
          rw [hrun] at h
          obtain ⟨hleaves, htotal⟩ := leaves_of_run part hrun
          rcases stopsAll_of_runAll parts h with hcarried | ⟨m, hm, hposition⟩
          · exact (stops_of_run part (by rw [hrun]; exact hcarried)).mono
              fun m hm => .inl hm
          · exact .inr ⟨m, .inr ⟨d.rest, hleaves, hm⟩, hposition.trans htotal⟩
      | error other =>
          rw [hrun] at h
          exact (stops_of_run part (by rw [hrun]; exact h)).mono
            fun m hm => .inl hm

theorem stopsSome_of_runFirst (parts : List Pattern) {name : String}
    {deepest : Option Failure} {c : Cursor} {failure : Failure}
    (h : failure? (runFirst parts name deepest c) = some failure) :
    Explains (fun m => m = c.rest ∨ StopsSome parts c.rest m) c failure ∨
      deepest = some failure := by
  cases parts with
  | nil =>
      obtain rfl := Option.some.inj h
      unfold noAlternative
      split
      · split
        · exact .inr rfl
        · exact .inl (explains_fail (.inl rfl))
      · exact .inl (explains_fail (.inl rfl))
  | cons part parts =>
      unfold runFirst at h
      cases hrun : run part c with
      | ok d =>
          rw [hrun] at h
          have hpart : ∀ {other}, d.furthest = some other →
              Explains (fun m => m = c.rest ∨
                StopsSome (part :: parts) c.rest m) c other := fun hother =>
            (stops_of_run part (by rw [hrun]; exact hother)).mono
              fun m hm => .inr (.inl hm)
          cases deepest with
          | none => exact .inl (hpart h)
          | some other =>
              have hnoted := Option.some.inj h
              rcases deeper_cases other d.furthest with hhere | hcarried
              · exact .inr (congrArg some (hhere.symm.trans hnoted))
              · exact .inl (hpart (hcarried.trans (congrArg some hnoted)))
      | error other =>
          rw [hrun] at h
          have hpart : Explains (fun m => m = c.rest ∨
              StopsSome (part :: parts) c.rest m) c other :=
            (stops_of_run part (by rw [hrun]; rfl)).mono fun m hm =>
              .inr (.inl hm)
          rcases stopsSome_of_runFirst parts h with hplace | hdeepest
          · refine .inl (hplace.mono fun m hm => ?_)
            exact hm.imp_right .inr
          · have hnoted := Option.some.inj hdeepest
            rcases deeper_cases other deepest with hhere | hcarried
            · rw [← hnoted, hhere]
              exact .inl hpart
            · exact .inr (hcarried.trans hdeepest)

end

end Pattern

end Reckon
