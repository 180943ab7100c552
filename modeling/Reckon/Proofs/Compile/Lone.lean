import Reckon.Proofs.Compile.Runs

/-!
# Lone formulas

A text that is arithmetic or a condition and nothing else can be evaluated
without a program around it. It is not checked, but its words are fed to the
composer as those of a formula in a program are, and the end of the text sends
out what is still waiting. What comes of it is the code of the formula, all of
it. So the run ends behind this code with an operand that denotes the value of
the formula, provided that all of its variables have a value.

A budget only says how far a run is looked at. `Evaluates` leaves it out: there
is a budget from which on the answer is the given one.
-/

namespace Reckon

variable {t : Tier} {tokens : List Token} {text x : String} {s : Store}
  {reading : Reading}

/-! ## Composing -/

theorem Spells.getLast? {lexemes : List Lexeme} {last : Lexeme}
    (h : Spells tokens lexemes) (hlast : lexemes.getLast? = some last) :
    ∃ token, tokens.getLast? = some token ∧ token.lexeme? = some last := by
  have hboth := congrArg List.getLast? h
  rw [List.getLast?_map, List.getLast?_map, hlast] at hboth
  exact Option.map_eq_some_iff.mp hboth

/-- Words that stand alone and leave nothing but operators waiting are composed
into what they have put out with these operators behind it. -/
theorem Composer.composeBare_of_feeds {lexemes : List Lexeme} {last : Lexeme}
    {labels : List String} {store : Store} {out : List Item} {ops : List Op}
    (h : Spells tokens lexemes) (hlast : lexemes.getLast? = some last)
    (hinline : last ≠ .keyword lineBreak)
    (hfeeds : FeedsAll none { stock := ⟨labels, store⟩ } lexemes
      { items := out, stack := ops.map .operator, stock := ⟨labels, store⟩ })
    (hplain : ∀ o ∈ ops, o.isPlain = true) :
    ∃ c, composeBare tokens labels store = .ok c ∧
      Emits c.program (out ++ ops.map .op) := by
  have hempty : Shows { labels, store } { stock := ⟨labels, store⟩ } :=
    { emits := .empty, stack := rfl, labels := rfl, store := rfl }
  obtain ⟨c, hc, hshows⟩ := hfeeds.feedAll h hempty (b := none) rfl
  obtain ⟨token, htoken, hlexeme⟩ := h.getLast? hlast
  -- The last word is no line break, so one is fed behind it.
  have hopen : token.isLineBreak = false := by
    cases hbreak : token.isLineBreak with
    | false => rfl
    | true =>
        have hkeyword := Token.isKeyword_iff.mp hbreak
        exact absurd (Option.some.inj (hlexeme.symm.trans hkeyword)) hinline
  let fed : View := { items := out, stock := ⟨labels, store⟩ }
  have hbreak : Feeds (some last) (fed.pend (ops.map .operator))
      (.keyword lineBreak) ((fed.put (ops.map .op)).pend []) := by
    have hfeed : Feeds (some last) (fed.pend (ops.map .operator ++ [])) _ _ :=
      feeds_break .nil hplain
    rwa [List.append_nil] at hfeed
  obtain ⟨c', hc', hshows'⟩ :=
    hbreak c (some token) (.keyword lineBreak token.line) hlexeme rfl hshows
  have hend : c.endLine tokens.getLast? = .ok c' := by
    rw [htoken]
    exact (if_neg (by simp [hopen])).trans hc'
  exact ⟨c', composeBare_eq_ok hc hend hshows'.stack, hshows'.emits⟩

/-- A formula that stands alone is composed into its code. -/
theorem Composer.composeBare_of_spells {e : Formula t}
    (h : Spells tokens e.lexemes) (labels : List String) (store : Store) :
    ∃ c, composeBare tokens labels store = .ok c ∧
      Emits c.program (e.code false) := by
  have hclear : Clear t [] := ⟨nofun, nofun⟩
  obtain ⟨out, ops, hfeeds, hcode, hhold⟩ :=
    e.defers none { stock := ⟨labels, store⟩ } false nofun hclear rfl
  obtain ⟨last, hlast, hvalue⟩ := e.exists_last
  have hinline : last ≠ .keyword lineBreak := by
    rintro rfl
    cases hvalue
  rw [List.append_nil, List.append_nil] at hfeeds
  exact hcode ▸ composeBare_of_feeds h hlast hinline hfeeds
    (plain_of_hold hhold)

/-! ## Evaluating -/

/-- The value of a variable, zero if it has none. -/
def Store.value (s : Store) (x : String) : Single := (s.get? x).getD .zero

theorem Store.get?_eq_value (h : (s.get? x).isSome) :
    s.get? x = some (s.value x) := by
  obtain ⟨v, hv⟩ := Option.isSome_iff_exists.mp h
  rw [value, hv]
  rfl

/-- A text is evaluated to a result and leaves some variables behind. -/
def Store.Evaluates (s : Store) (text : String)
    (result : Except Error (Option Single)) (after : Store) : Prop :=
  ∃ enough, ∀ budget, enough ≤ budget →
    s.evaluate budget text = some (result, after)

/-- An identifier of a text. -/
def Reading.Names (reading : Reading) (x : String) : Prop :=
  ∃ token ∈ reading.tokens, token.lexeme? = some (.identifier x)

theorem Reading.names_iff {lexemes : List Lexeme}
    (h : Spells reading.tokens lexemes) :
    reading.Names x ↔ .identifier x ∈ lexemes := by
  have hwords : reading.Names x ↔ some (.identifier x) ∈ lexemes.map some := by
    rw [← h]
    exact List.mem_map.symm
  exact hwords.trans (by simp)

/-- A text is evaluated to what the run of its composed words ends with. -/
theorem Store.evaluates_of_run {c : Composer} {halt : Halt} {enough : Nat}
    (hread : Reading.ofText text = .ok reading)
    (hcompose : Composer.composeBare reading.tokens [] .empty = .ok c)
    (hrun : ∀ budget, enough ≤ budget →
      Machine.run none c.program budget (.start s [] none) = some halt) :
    s.Evaluates text (halt.value.mapError .fault) halt.machine.store := by
  refine ⟨enough, fun budget hbudget => ?_⟩
  unfold evaluate
  rw [hread]
  dsimp only
  rw [hcompose]
  dsimp only
  rw [hrun budget hbudget]
  rfl

/-- What cannot be composed is not run. -/
theorem Store.evaluates_of_failure {failure : ComposeFailure}
    (hread : Reading.ofText text = .ok reading)
    (hcompose : Composer.composeBare reading.tokens [] .empty =
      .error failure) :
    s.Evaluates text (.error (.compose failure.error)) s := by
  refine ⟨0, fun budget _ => ?_⟩
  unfold evaluate
  rw [hread]
  dsimp only
  rw [hcompose]

/-- A text is evaluated to the value of its code if all variables in it have
one. -/
theorem Store.evaluates_code {c : Composer} {items : List Item} {v : Single}
    (hread : Reading.ofText text = .ok reading)
    (hcompose : Composer.composeBare reading.tokens [] .empty = .ok c)
    (hemits : Emits c.program items)
    (hknown : ∀ x, .op (.name x) ∈ items → (s.get? x).isSome)
    (heval : Item.evaluate c.program.literal s.value items [] = some [v]) :
    s.Evaluates text (.ok (some v)) s := by
  let start : Machine := .start s [] none
  obtain ⟨o, ho, hreach⟩ := Item.runs_value (m := start)
    (fun x hx => get?_eq_value (hknown x hx)) hemits.seg_start heval []
  obtain ⟨enough, j, hrun⟩ := Machine.run_to_end hreach hemits.getElem?_end
  let final : Machine :=
    { start.standing (0 + Item.sizes items) [o] with steps := j }
  have hresult : final.result = some v := Machine.result_of_denotes rfl ho
  exact hresult ▸ evaluates_of_run hread hcompose hrun

/-- Arithmetic and conditions are evaluated to their values, and no variable
changes, if all of their variables have values. -/
theorem Store.evaluates_formula (hread : Reading.ofText text = .ok reading)
    (hformula : Language.IsFormula reading.tokens)
    (hknown : ∀ x, reading.Names x → (s.get? x).isSome) :
    ∃ c, Composer.composeBare reading.tokens [] .empty = .ok c ∧
      ((∃ e : Expression, Spells reading.tokens e.lexemes) ∨
        ∃ e : Condition, Spells reading.tokens e.lexemes) ∧
      ∀ {t : Tier} (e : Formula t), Spells reading.tokens e.lexemes →
        s.Evaluates text (.ok (some (e.value c.program.literal s.value false)))
          s := by
  obtain ⟨_, e₀, hspells₀⟩ := Language.exists_formula hformula
  obtain ⟨c, hc, -⟩ := Composer.composeBare_of_spells hspells₀ [] .empty
  refine ⟨c, hc, Language.isFormula_iff.mp hformula, fun e hspells => ?_⟩
  obtain ⟨c', hc', hemits⟩ := Composer.composeBare_of_spells hspells [] .empty
  obtain rfl := Except.ok.inj (hc.symm.trans hc')
  refine evaluates_code hread hc hemits (fun x hx => ?_)
    (e.evaluate_code _ _ false [])
  exact hknown x ((Reading.names_iff hspells).mpr (e.mem_lexemes_of_code hx))

/-- A condition on three variables. -/
def judgingText : String := "![-a/b >= c]"

/-- What `judgingText` says. -/
def judging : Condition :=
  let named (x : String) : Expression := .only (.only (.name x))
  let quotient : Formula (.chain .product) :=
    .join (.only (.name "a")) ⟨.div, by decide⟩ (.name "b")
  .only (.only (.not (.bracket (.only (.only
    (.compare (.negated quotient) ⟨.ge, by decide⟩ (named "c")))))))

theorem judging_names (h : .identifier x ∈ judging.lexemes) :
    x ∈ ["a", "b", "c"] := by
  simpa [judging, Formula.lexemes] using h

/-- Four, two and zero. -/
def judged : Store :=
  ((Store.empty.set "a" ⟨0x40800000⟩).set "b" ⟨0x40000000⟩).set "c" .zero

theorem Store.evaluates_judging :
    judged.Evaluates judgingText (.ok (some .one)) judged := by
  obtain ⟨reading, hread, hspells⟩ :=
    Reading.exists_spelling judgingText judging.lexemes (by decide +kernel)
  have hknown : ∀ x ∈ ["a", "b", "c"], (judged.get? x).isSome := by
    decide +kernel
  obtain ⟨c, -, -, heval⟩ := evaluates_formula (s := judged) hread
    (Language.isFormula_iff.mpr (.inr ⟨judging, hspells⟩))
    fun x hx => hknown x (judging_names ((Reading.names_iff hspells).mp hx))
  have hvalue : judging.value c.program.literal judged.value false = .one := by
    simp only [judging, Formula.value]
    decide +kernel
  exact hvalue ▸ heval judging hspells

end Reckon
