import Reckon.Proofs.Descent.Complete
import Reckon.Proofs.Descent.Depth
import Reckon.Proofs.Descent.Opening
import Reckon.Proofs.Syntax.Viable

/-!
# Where matching reports an error

The failure of a match is where the input stops being a program. What is in
front of it begins a program, since that is what the patterns of the
language have read where they fail. And with the token at the failure it
does no more: a program with the same beginning would be matched alike up to
there, and it would fail too.
-/

namespace Reckon.Descent

open Pattern Reckon.Language

variable {tokens : List Token} {depth : Nat} {failure : Failure}

/-- What has been read in front of a failure begins a program. -/
theorem viable_of_failure
    (h : run (program depth) (.ofTokens tokens) = .error failure) :
    failure.position ≤ tokens.length ∧
    Viable (tokens.take failure.position) := by
  have hfailure :
      failure? (run (program depth) (.ofTokens tokens)) = some failure := by
    rw [h]
    rfl
  have hexplains := stops_of_run (program depth) hfailure
  rcases hexplains with hcarried | ⟨m, hstops, hposition⟩
  · cases hcarried
  · obtain ⟨a, b, ⟨source, hsource⟩, u, hu, hspells⟩ :=
      opens_program depth _ m hstops
    have hlength := congrArg List.length hu
    rw [List.length_append] at hlength
    have htotal : failure.position + m.length = 0 + tokens.length := hposition
    have hlengthu : u.length = failure.position := by
      have : tokens.length = u.length + m.length := hlength
      omega
    have htake : tokens.take failure.position = u := by
      rw [show tokens = u ++ m from hu, ← hlengthu, List.take_left]
    exact ⟨by omega, htake ▸ viable_of_spells hsource hspells⟩

/-- With the token at a failure no program begins. -/
theorem not_viable_of_failure (hdepth : tokens.length < depth)
    (h : run (program depth) (.ofTokens tokens) = .error failure)
    (hlt : failure.position < tokens.length) :
    ¬Viable (tokens.take (failure.position + 1)) := by
  rintro ⟨rest, hprogram⟩
  obtain ⟨source, hspells⟩ := isProgram_iff.mp hprogram
  let other := tokens.take (failure.position + 1) ++ rest
  -- At a depth that suffices for both inputs the first one fails as it did.
  let deeper := max depth other.length
  have hdeeper : run (program deeper) (.ofTokens tokens) = .error failure := by
    have hagrees :=
      agrees_program (Nat.le_refl depth) (Nat.le_max_left depth other.length)
    exact (hagrees _ hdepth).symm.trans h
  have hshared :
      Shared (failure.position + 1) (.ofTokens tokens) (.ofTokens other) := by
    refine ⟨rfl, rfl, tokens.take (failure.position + 1),
      tokens.drop (failure.position + 1), rest, (List.take_append_drop ..).symm,
      rfl, ?_⟩
    show 0 + (tokens.take (failure.position + 1)).length = _
    rw [List.length_take]
    omega
  have halike := alike_of_run (program deeper) (steady_program deeper) hshared
    (by rw [hdeeper]; exact Nat.lt_succ_self _)
  rw [hdeeper] at halike
  obtain ⟨d, hd, -⟩ :=
    takes_program hspells (Nat.le_max_right depth other.length)
      (.ofTokens other) rfl
  rw [halike.of_error] at hd
  cases hd

/-- What is no program is reported where it stops being one. -/
theorem exists_breaks (h : ¬IsProgram tokens) : ∃ k wanted, Breaks tokens k ∧
    check tokens = .error (.unexpected wanted tokens tokens[k]?) := by
  cases hrun : run (program (tokens.length + 1)) (.ofTokens tokens) with
  | ok d =>
      exact absurd
        (isProgram_iff.mpr (sound_program (leaves_of_run _ hrun).1)) h
  | error failure =>
      obtain ⟨hle, hviable⟩ := viable_of_failure hrun
      refine ⟨failure.position, failure.wanted.text,
        ⟨hle, hviable, fun hlt => ?_⟩, ?_⟩
      · exact not_viable_of_failure (Nat.lt_succ_self _) hrun hlt
      · unfold check matchTokens
        rw [hrun]
        rfl

end Reckon.Descent
