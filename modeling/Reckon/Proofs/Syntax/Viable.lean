import Reckon.Proofs.Syntax.Derivable

/-!
# Where tokens stop being a program

Tokens that are no program are the beginning of one up to some place, and it is
this place that an error should point to. There is exactly one: the beginnings
of a beginning are beginnings.
-/

namespace Reckon.Language

/-- The tokens have terminals, and these are derived from the start symbol. -/
def IsProgram (tokens : List Token) : Prop :=
  ∃ w, grammar.Classes tokens w ∧ grammar.Derives [program] w

/-- Some program starts with the tokens. -/
def Viable (tokens : List Token) : Prop := ∃ rest, IsProgram (tokens ++ rest)

/-- The first `k` tokens start a program, and no more of them do. -/
structure Breaks (tokens : List Token) (k : Nat) : Prop where
  le : k ≤ tokens.length
  viable : Viable (tokens.take k)
  broken : k < tokens.length → ¬Viable (tokens.take (k + 1))

variable {tokens u v : List Token} {j k : Nat}

theorem isProgram_iff : IsProgram tokens ↔
    ∃ source : Source, Spells tokens source.lexemes := derives_iff_source

theorem Viable.front (h : Viable (u ++ v)) : Viable u := by
  obtain ⟨rest, hrest⟩ := h
  exact ⟨v ++ rest, List.append_assoc u v rest ▸ hrest⟩

theorem Viable.take (h : Viable (tokens.take k)) (hle : j ≤ k) :
    Viable (tokens.take j) := by
  rw [← List.take_append_drop j (tokens.take k), List.take_take,
    Nat.min_eq_left hle] at h
  exact h.front

/-- The beginning of a source is that of a program. -/
theorem viable_of_spells {source : Source} {a b : List Lexeme}
    (hsource : a ++ b = source.lexemes) (hu : Spells u a) : Viable u :=
  ⟨_, isProgram_iff.mpr ⟨source, hsource ▸ hu.append (spells_words b)⟩⟩

theorem Breaks.viable_iff (h : Breaks tokens k) (hj : j ≤ tokens.length) :
    Viable (tokens.take j) ↔ j ≤ k := by
  constructor
  · intro hviable
    by_cases hle : j ≤ k
    · exact hle
    · exact absurd (hviable.take (show k + 1 ≤ j by omega))
        (h.broken (by omega))
  · exact h.viable.take

theorem Breaks.unique (h : Breaks tokens j) (h' : Breaks tokens k) : j = k := by
  have hle := (h'.viable_iff h.le).mp h.viable
  have hge := (h.viable_iff h'.le).mp h'.viable
  omega

end Reckon.Language
