import Mathlib.Data.List.Forall2
import Reckon.Proofs.Token.Meaning

/-!
# Other spellings

A number can be spelt in many ways, and a line break with any blanks and line
breaks behind it. Nothing else has a choice, and nothing else that the meaning
of a lexeme depends on is touched by such a choice (`Denotes.respell`): a colon,
`begin` and `goto` have one spelling each.
-/

namespace Reckon

namespace Lexical

variable {s r : Span} {earlier earlier' spans spans' : List Span}
  {word : List Char}

/-- Two lexemes with one text, two line breaks, or two numerals of one value. -/
inductive Alike (s r : Span) : Prop where
  | same : s.text = r.text → Alike s r
  | lineBreak : IsBreak s.text → IsBreak r.text → Alike s r
  | numeral : IsNumeral s.text → IsNumeral r.text →
      Single.parse? s.spelling = Single.parse? r.spelling → Alike s r

/-- A text that has one spelling, being no numeral and no line break. -/
def Fixed (word : List Char) : Prop :=
  kindOf word ≠ some .numeral ∧ kindOf word ≠ some .lineBreak

instance : DecidablePred Fixed := fun word =>
  inferInstanceAs
    (Decidable (kindOf word ≠ some .numeral ∧ kindOf word ≠ some .lineBreak))

namespace Alike

theorem text_eq_iff (h : Alike s r) (hword : Fixed word) :
    s.text = word ↔ r.text = word := by
  cases h with
  | same htext => rw [htext]
  | lineBreak hs hr =>
      refine iff_of_false ?_ ?_
      · rintro rfl
        exact hword.2 hs.kindOf
      · rintro rfl
        exact hword.2 hr.kindOf
  | numeral hs hr _ =>
      refine iff_of_false ?_ ?_
      · rintro rfl
        exact hword.1 hs.kindOf
      · rintro rfl
        exact hword.1 hr.kindOf

theorem isBreak_eq (h : Alike s r) : s.isBreak = r.isBreak := by
  cases h with
  | same htext => rw [Span.isBreak, Span.isBreak, htext]
  | lineBreak hs hr =>
      rw [(Span.isBreak_iff (.lineBreak hs)).mpr hs,
        (Span.isBreak_iff (.lineBreak hr)).mpr hr]
  | numeral hs hr _ =>
      rw [Span.isBreak_eq_false hs.kindOf (by decide),
        Span.isBreak_eq_false hr.kindOf (by decide)]

/-- Where the place makes no difference they mean the same. -/
theorem means {x : Lexeme} (h : Alike s r)
    (hplace : NamesLabel earlier s ↔ NamesLabel earlier' r)
    (hmeans : Means earlier s x) : Means earlier' r x := by
  cases h with
  | same htext =>
      have hspelling : s.spelling = r.spelling := congrArg String.ofList htext
      cases hmeans with
      | lineBreak h => exact .lineBreak (htext ▸ h)
      | sign h => exact hspelling ▸ .sign (htext ▸ h)
      | numeral h hvalue => exact .numeral (htext ▸ h) (hspelling ▸ hvalue)
      | reserved h hreserved =>
          exact hspelling ▸ .reserved (htext ▸ h) (hspelling ▸ hreserved)
      | label h hfree hnames =>
          exact hspelling ▸ .label (htext ▸ h) (hspelling ▸ hfree)
            (hplace.mp hnames)
      | identifier h hfree hother =>
          exact hspelling ▸ .identifier (htext ▸ h) (hspelling ▸ hfree)
            (hplace.not.mp hother)
  | lineBreak hs hr =>
      cases hmeans with
      | lineBreak => exact .lineBreak hr
      | sign h | numeral h | reserved h | label h | identifier h =>
          cases h.kindOf.symm.trans hs.kindOf
  | numeral hs hr hvalue =>
      cases hmeans with
      | numeral _ hx => exact .numeral hr (hvalue.symm.trans hx)
      | lineBreak h | sign h | reserved h | label h | identifier h =>
          cases h.kindOf.symm.trans hs.kindOf

end Alike

/-- At which places a text stands. -/
def places (word : List Char) (spans : List Span) : List Bool :=
  spans.map fun s => decide (s.text = word)

theorem map_eq_of_alike {f : Span → Bool} (hf : ∀ s r, Alike s r → f s = f r)
    (h : List.Forall₂ Alike spans spans') : spans.map f = spans'.map f := by
  induction h with
  | nil => rfl
  | cons hs _ ih => exact congrArg₂ List.cons (hf _ _ hs) ih

/-- A text with one spelling stands at the same places. -/
theorem places_eq (h : List.Forall₂ Alike spans spans') (hword : Fixed word) :
    places word spans = places word spans' :=
  map_eq_of_alike (fun _ _ hs => decide_eq_decide.mpr (hs.text_eq_iff hword)) h

theorem spelling_eq_iff {text : String} :
    s.spelling = text ↔ s.text = text.toList := by
  rw [Span.spelling, ← String.toList_inj, String.toList_ofList]

theorem namesLabel_iff_places : NamesLabel earlier s ↔
    true ∈ places "begin".toList earlier ∧
      (s.BeforeColon ∨ (places "goto".toList earlier).getLast? =
        some true) := by
  unfold NamesLabel places
  rw [List.getLast?_map, Option.map_eq_some_iff, Option.map_eq_some_iff,
    List.mem_map]
  simp only [spelling_eq_iff, decide_eq_true_eq]

theorem namesLabel_congr (h : List.Forall₂ Alike earlier earlier')
    (hcolon : s.BeforeColon ↔ r.BeforeColon) :
    NamesLabel earlier s ↔ NamesLabel earlier' r := by
  rw [namesLabel_iff_places, namesLabel_iff_places, places_eq h (by decide),
    places_eq h (by decide), hcolon]

theorem head_colon_congr (h : List.Forall₂ Alike spans spans') :
    (∃ s ∈ spans.head?, s.text = [':']) ↔ ∃ s ∈ spans'.head?,
    s.text = [':'] := by
  cases h with
  | nil => exact Iff.rfl
  | cons hs _ => simpa using hs.text_eq_iff (show Fixed [':'] by decide)

/-- Lexemes that are spelt otherwise have the same tokens, up to their lines. -/
theorem Denotes.respell {tokens : List Token} (h : Denotes earlier spans tokens)
    (hearlier : List.Forall₂ Alike earlier earlier')
    (hspans : List.Forall₂ Alike spans spans')
    (hcolon : ∀ s later, s :: later <:+ spans →
      (s.BeforeColon ↔ ∃ r ∈ later.head?, r.text = [':']))
    (hcolon' : ∀ s later, s :: later <:+ spans' →
      (s.BeforeColon ↔ ∃ r ∈ later.head?, r.text = [':'])) :
    ∃ tokens', Denotes earlier' spans' tokens' ∧
      tokens'.map Token.lexeme? = tokens.map Token.lexeme? := by
  induction h generalizing earlier' spans' with
  | nil =>
      cases hspans
      exact ⟨[], .nil, rfl⟩
  | @cons earlier spans s x index tokens hmeans _ ih =>
      cases hspans with
      | @cons _ r _ spans' hs hlater =>
          have hplace : NamesLabel earlier s ↔ NamesLabel earlier' r := by
            refine namesLabel_congr hearlier ?_
            rw [hcolon s spans (List.suffix_refl _),
              hcolon' r spans' (List.suffix_refl _)]
            exact head_colon_congr hlater
          obtain ⟨tokens', hdenotes, hlexemes⟩ := ih
            (List.rel_append hearlier (.cons hs .nil)) hlater
            (fun s' later h =>
              hcolon s' later (h.trans (List.suffix_cons s spans)))
            fun s' later h =>
              hcolon' s' later (h.trans (List.suffix_cons r spans'))
          refine ⟨.word x r.line none :: tokens',
            .cons (hs.means hplace hmeans) hdenotes, ?_⟩
          rw [List.map_cons, List.map_cons, hlexemes]
          rfl

end Lexical

end Reckon
