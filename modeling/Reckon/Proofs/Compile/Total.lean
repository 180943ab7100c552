import Reckon.Proofs.Compile.Rendering

/-!
# Composing does not fail

The composer has many ways to fail, and none of them is open once the tokens are
known to be a program: they spell a source, and the words of a source are
composed whatever labels and variables there are. The relations of the grammar
do not conflict either. So a text that is not compiled could not be read, or it
is no program.
-/

namespace Reckon

variable {words : List Token}

/-- Tokens with the words of a source. -/
def Source.tokens (source : Source) : List Token :=
  source.lexemes.map fun x => .word x 1 none

theorem Source.spells_tokens (source : Source) :
    Spells source.tokens source.lexemes := spells_words source.lexemes

theorem Source.exists_parsed (source : Source) :
    ∃ parsed, Language.parse source.tokens = .ok parsed :=
  Language.parse_ok_iff.mpr
    (Language.derives_iff_source.mpr ⟨source, source.spells_tokens⟩)

/-- A program that counts to three. -/
def counting : Source where
  name := "p"
  definitions := .one ⟨"i", []⟩
  body :=
    let number (v : Single) : Expression := .only (.only (.constant v))
    .one (.plain (.loop "i" (number .one) (number ⟨0x40400000⟩)
      (.one (.plain (.transfer .write ⟨"i", []⟩)))))

/-- What is accepted spells a source. -/
theorem Language.exists_source {parsed : Parsed}
    (h : parse words = .ok parsed) :
    ∃ source : Source, Spells words source.lexemes :=
  derives_iff_source.mp (parse_ok_iff.mp ⟨parsed, h⟩)

theorem Language.exists_illFormed {e : ParseError}
    (h : parse words = .error e) : ∃ cause, e = .illFormed cause := by
  obtain ⟨table, hbuilt⟩ := exists_precedence
  obtain ⟨cause, -, he⟩ := (parse_eq_error_iff hbuilt).mp h
  exact ⟨cause, he.symm⟩

theorem Checker.exists_illFormed {checker : Checker} {e : ParseError}
    (h : checker.check words = .error e) : ∃ cause, e = .illFormed cause := by
  cases checker with
  | precedence =>
      cases hparse : Language.parse words with
      | error cause =>
          rw [check, hparse] at h
          obtain rfl := Except.error.inj h
          exact Language.exists_illFormed hparse
      | ok parsed =>
          rw [check, hparse] at h
          cases h
  | descent | pushdown =>
      obtain ⟨cause, -, he⟩ := mapError_eq_error_iff.mp h
      exact ⟨cause, he.symm⟩

namespace Compilation

/-- Behind the recogniser only reduction by precedence can fail. -/
theorem ofReading_error {reading : Reading} {e : Error}
    (h : ofReading reading = .error e) :
    ∃ cause, e = .parse (.illFormed cause) := by
  rcases bind_eq_error_iff.mp h with hparse | ⟨parsed, hparsed, h⟩
  · obtain ⟨cause, hcause, rfl⟩ := mapError_eq_error_iff.mp hparse
    obtain ⟨cause, rfl⟩ := Language.exists_illFormed hcause
    exact ⟨cause, rfl⟩
  · obtain ⟨source, hspells⟩ :=
      Language.exists_source (mapError_eq_ok_iff.mp hparsed)
    obtain ⟨c, hc, -⟩ := Composer.compose_eq_ok hspells [] .empty
    rw [hc] at h
    cases h

theorem error_of_ofText {checker : Checker} {text : String} {e : Error}
    (h : ofText checker text = .error e) :
    (∃ cause, e = .scan cause) ∨ ∃ cause, e = .parse (.illFormed cause) := by
  rcases bind_eq_error_iff.mp h with hread | ⟨reading, -, h⟩
  · obtain ⟨cause, -, he⟩ := mapError_eq_error_iff.mp hread
    exact .inl ⟨cause, he.symm⟩
  · refine .inr ?_
    dsimp only at h
    split at h
    · exact ofReading_error h
    · rcases bind_eq_error_iff.mp h with hcheck | ⟨-, -, h⟩
      · obtain ⟨cause, hcause, rfl⟩ := mapError_eq_error_iff.mp hcheck
        obtain ⟨cause, rfl⟩ := Checker.exists_illFormed hcause
        exact ⟨cause, rfl⟩
      · exact ofReading_error h

/-- Programs are composed with any names there are at the start, and what a text
cannot be compiled for is that it is not read or is no program. -/
theorem composing_is_total :
    (∀ {tokens : List Token} {parsed : Parsed},
      Language.parse tokens = .ok parsed →
      ∀ labels store, ∃ c, Composer.compose tokens labels store = .ok c) ∧
    ∀ {checker : Checker} {text : String} {e : Error},
      ofText checker text = .error e →
      (∃ cause, e = .scan cause) ∨ ∃ cause, e = .parse (.illFormed cause) := by
  refine ⟨fun h labels store => ?_, error_of_ofText⟩
  obtain ⟨source, hspells⟩ := Language.exists_source h
  obtain ⟨c, hc, -⟩ := Composer.compose_eq_ok hspells labels store
  exact ⟨c, hc⟩

theorem counting_is_composed :
    (∃ c, Composer.compose counting.tokens ["_m1"]
      (Store.empty.set "_r1" .one) = .ok c) ∧
    ∃ e, ofText .pushdown "end" = .error e ∧
      ((∃ cause, e = .scan cause) ∨
        ∃ cause, e = .parse (.illFormed cause)) := by
  constructor
  · obtain ⟨parsed, hparsed⟩ := counting.exists_parsed
    exact composing_is_total.1 hparsed _ _
  · have hfails : (ofText .pushdown "end").isOk = false := by
      decide +kernel
    cases htext : ofText .pushdown "end" with
    | error e => exact ⟨e, rfl, composing_is_total.2 htext⟩
    | ok compiled =>
        rw [htext] at hfails
        cases hfails

end Compilation

end Reckon
