import Reckon.Proofs.Token.Meaning

/-!
# The lines of tokens

Every token stands on the line on which its first character stands. Line breaks
between two other tokens, however many there are and whatever blanks are among
them, are one token, and there is none at either end. All of this is said of the
lexemes first, and carried over to the tokens by their flags: a token is a line
break if its lexeme is one.
-/

namespace Reckon

namespace Lexical

variable {before text rest : List Char} {spans earlier : List Span} {s r : Span}
  {tokens : List Token}

/-! ## Tokens and their lexemes -/

theorem Means.isLineBreak {x : Lexeme} (h : Means earlier s x) (line : Nat)
    (index : Option Nat) :
    (Token.word x line index).isLineBreak = s.isBreak := by
  rw [Bool.eq_iff_iff, Token.isLineBreak, Token.isKeyword_iff, Token.lexeme?,
    Option.some.injEq]
  cases h with
  | lineBreak h => simp [(Span.isBreak_iff (.lineBreak h)).mpr h]
  | sign h =>
      obtain ⟨sign, hsign, htext⟩ := id h
      have hne : s.spelling ≠ Reckon.lineBreak := by
        have hall : ∀ sign ∈ signs, sign ≠ Reckon.lineBreak := by decide
        rw [Span.spelling, htext, String.ofList_toList]
        exact hall sign hsign
      simp [hne, Span.isBreak_eq_false h.kindOf (by decide)]
  | reserved h hreserved =>
      have hall : ∀ word ∈ reservedWords, word ≠ Reckon.lineBreak := by decide
      simp [hall _ hreserved, Span.isBreak_eq_false h.kindOf (by decide)]
  | numeral h => simp [Span.isBreak_eq_false h.kindOf (by decide)]
  | label h => simp [Span.isBreak_eq_false h.kindOf (by decide)]
  | identifier h => simp [Span.isBreak_eq_false h.kindOf (by decide)]

theorem Denotes.map_line (h : Denotes earlier spans tokens) :
    tokens.map Token.line = spans.map Span.line := by
  induction h with
  | nil => rfl
  | cons _ _ ih =>
      rw [List.map_cons, List.map_cons, ih]
      rfl

theorem Denotes.length_eq (h : Denotes earlier spans tokens) :
    tokens.length = spans.length := by
  rw [← List.length_map Token.line, h.map_line, List.length_map]

theorem Denotes.map_isLineBreak (h : Denotes earlier spans tokens) :
    tokens.map Token.isLineBreak = spans.map Span.isBreak := by
  induction h with
  | nil => rfl
  | cons hmeans _ ih =>
      rw [List.map_cons, List.map_cons, ih, hmeans.isLineBreak]

theorem Denotes.exists_span (h : Denotes earlier spans tokens) {k : Nat}
    {t : Token} (ht : tokens[k]? = some t) :
    ∃ s, spans[k]? = some s ∧ s.isBreak = t.isLineBreak := by
  have hflags := congrArg (·[k]?) h.map_isLineBreak
  simp only [List.getElem?_map, ht, Option.map_some] at hflags
  exact Option.map_eq_some_iff.mp hflags.symm

theorem Denotes.exists_token (h : Denotes earlier spans tokens) {k : Nat}
    (hs : spans[k]? = some s) :
    ∃ t, tokens[k]? = some t ∧ t.isLineBreak = s.isBreak := by
  have hflags := congrArg (·[k]?) h.map_isLineBreak
  simp only [List.getElem?_map, hs, Option.map_some] at hflags
  exact Option.map_eq_some_iff.mp hflags

/-! ## The lexemes between the two ends -/

theorem trimmed_head (spans : List Span) :
    ∀ s ∈ (trimmed spans).head?, s.isBreak = false := by
  intro s hs
  obtain ⟨behind, hbehind⟩ :=
    List.rdropWhile_prefix Span.isBreak (spans.dropWhile Span.isBreak)
  have hnot := List.head?_dropWhile_not Span.isBreak spans
  obtain ⟨later, hlater⟩ := List.head?_eq_some_iff.mp hs
  rw [trimmed] at hlater
  rw [← hbehind, hlater] at hnot
  simpa using hnot

theorem trimmed_getLast (spans : List Span) :
    ∀ s ∈ (trimmed spans).getLast?, s.isBreak = false := by
  intro s hs
  obtain ⟨hne, rfl⟩ := List.mem_getLast?_eq_getLast hs
  exact Bool.eq_false_iff.mpr (List.rdropWhile_last_not _ _ hne)

theorem trimmed_isInfix (spans : List Span) : trimmed spans <:+: spans := by
  obtain ⟨front, back, hspans, -⟩ := split_trimmed spans
  exact ⟨front, back, hspans.symm⟩

/-- Lexemes stand in the order of their lines. -/
theorem Splits.pairwise_line (h : Splits before text spans rest) :
    (spans.map Span.line).Pairwise (· ≤ ·) := by
  rw [← List.isChain_iff_pairwise, List.isChain_map,
    List.isChain_iff_forall_rel_of_append_cons_cons]
  rintro s r front later rfl
  obtain ⟨gap, -, -, hbefore⟩ := h.blanks_between (List.suffix_append ..)
  rw [Span.line, Span.line, lineAt, lineAt, hbefore, List.append_assoc,
    List.count_append]
  omega

/-- Only blanks stand between a lexeme and the next one, also when the line
breaks at the ends are left out. -/
theorem Splits.blanks_between_trimmed {i : Nat}
    (h : Splits before text spans rest) (hs : (trimmed spans)[i]? = some s)
    (hr : (trimmed spans)[i + 1]? = some r) :
    ∃ gap, r.before = s.before ++ s.text ++ gap ∧ ∀ c ∈ gap, Blank c := by
  have hdrop :
      (trimmed spans).drop i = s :: r :: (trimmed spans).drop (i + 2) := by
    rw [List.drop_eq_getElem?_toList_append, hs,
      List.drop_eq_getElem?_toList_append, hr]
    rfl
  obtain ⟨back, hsuffix, -⟩ :=
    suffix_of_trimmed (List.drop_suffix i (trimmed spans))
  rw [hdrop] at hsuffix
  obtain ⟨gap, hgap, -, hbefore⟩ := h.blanks_between hsuffix
  exact ⟨gap, hbefore, hgap⟩

theorem Splits.isBreak_next {i : Nat} (h : Splits before text spans rest)
    (hs : (trimmed spans)[i]? = some s) (hr : (trimmed spans)[i + 1]? = some r)
    (hbreak : s.isBreak = true) : r.isBreak = false := by
  have hchain := List.IsChain.infix h.isChain (trimmed_isInfix spans)
  rw [List.isChain_iff_getElem] at hchain
  obtain ⟨_, rfl⟩ := List.getElem?_eq_some_iff.mp hs
  obtain ⟨hlt, rfl⟩ := List.getElem?_eq_some_iff.mp hr
  exact hchain i hlt hbreak

/-- Two lexemes with only line breaks between them have at most one there, and
then a line break stands between them in the text. -/
theorem Splits.between {i j : Nat} (h : Splits before text spans rest)
    (hs : (trimmed spans)[i]? = some s) (hr : (trimmed spans)[j]? = some r)
    (hlt : i < j) (hbreaks : ∀ k b, i < k → k < j →
      (trimmed spans)[k]? = some b → b.isBreak = true) :
    ∃ middle, r.before = s.before ++ s.text ++ middle ∧
      ('\n' ∈ middle ↔ i + 1 < j) := by
  obtain ⟨hj, -⟩ := List.getElem?_eq_some_iff.mp hr
  rcases Nat.eq_or_lt_of_le hlt with rfl | hmore
  · obtain ⟨gap, hbefore, hgap⟩ := h.blanks_between_trimmed hs hr
    exact ⟨gap, hbefore, iff_of_false (inline_of_blank hgap) (Nat.lt_irrefl _)⟩
  · have hb := List.getElem?_eq_getElem (hmore.trans hj)
    have hbreak := hbreaks (i + 1) _ (Nat.lt_succ_self i) hmore hb
    generalize (trimmed spans)[i + 1] = b at hb hbreak
    -- No other line break is next to this one, so the second lexeme is.
    have hnext : j = i + 2 := by
      by_contra hne
      have hlast : i + 2 < j := by omega
      have hc := List.getElem?_eq_getElem (hlast.trans hj)
      have hother := hbreaks (i + 2) _ (by omega) hlast hc
      rw [h.isBreak_next hb hc hbreak] at hother
      cases hother
    subst hnext
    obtain ⟨gap, hbefore, hgap⟩ := h.blanks_between_trimmed hs hb
    obtain ⟨gap', hbefore', hgap'⟩ := h.blanks_between_trimmed hb hr
    refine ⟨gap ++ b.text ++ gap', ?_, iff_of_true ?_ hmore⟩
    · rw [hbefore', hbefore]
      simp only [List.append_assoc]
    · rw [Span.isBreak, beq_iff_eq] at hbreak
      exact List.mem_append_left _
        (List.mem_append_right _ (List.mem_of_mem_head? hbreak))

/-! ## Line breaks between tokens -/

/-- The tokens at two places are no line breaks, and there are only line breaks
between them. -/
structure Successive (tokens : List Token) (i j : Nat) : Prop where
  lt : i < j
  left : ∃ t, tokens[i]? = some t ∧ t.isLineBreak = false
  right : ∃ t, tokens[j]? = some t ∧ t.isLineBreak = false
  between : ∀ k t, i < k → k < j → tokens[k]? = some t → t.isLineBreak = true

/-- The tokens of a text that can be read stand on the lines of its lexemes,
which never decrease. Line breaks are neither at an end nor side by side. Two
tokens that are none and have none but such between them have one there if and
only if there is one in the text. -/
theorem lines_of_ofText {text : String} {reading : Reading}
    (h : Reading.ofText text = .ok reading) :
    ∃ spans, Splits [] text.toList spans [] ∧
      Denotes [] (trimmed spans) reading.tokens ∧
      (∀ s ∈ trimmed spans, text.toList = s.before ++ s.text ++ s.after) ∧
      reading.tokens.map Token.line =
        (trimmed spans).map (fun s => 1 + s.before.count '\n') ∧
      (reading.tokens.map Token.line).Pairwise (· ≤ ·) ∧
      (∀ t ∈ reading.tokens.head?, t.isLineBreak = false) ∧
      (∀ t ∈ reading.tokens.getLast?, t.isLineBreak = false) ∧
      reading.tokens.IsChain (fun t u => t.isLineBreak = true →
        u.isLineBreak = false) ∧
      (∀ i s r, (trimmed spans)[i]? = some s →
        (trimmed spans)[i + 1]? = some r →
        ∃ gap, r.before = s.before ++ s.text ++ gap ∧ ∀ c ∈ gap, Blank c) ∧
      ∀ i j, Successive reading.tokens i j →
        ∃ s r middle, (trimmed spans)[i]? = some s ∧
          (trimmed spans)[j]? = some r ∧
          r.before = s.before ++ s.text ++ middle ∧
          ('\n' ∈ middle ↔
            ∃ k t, i < k ∧ k < j ∧ reading.tokens[k]? = some t ∧
              t.isLineBreak = true) := by
  obtain ⟨spans, rest, hsplits⟩ := exists_splits [] text.toList
  obtain rfl : rest = [] := by
    cases rest with
    | nil => rfl
    | cons c rest =>
        obtain ⟨read, -, herror⟩ := ofText_error hsplits
        cases herror.symm.trans h
  obtain ⟨reading', hreading, hdenotes⟩ := ofText_ok hsplits
  cases h.symm.trans hreading
  have hflags := hdenotes.map_isLineBreak
  have hinside := trimmed_isInfix spans
  refine ⟨spans, hsplits, hdenotes, ?_, hdenotes.map_line, ?_, ?_, ?_, ?_,
    fun i s r => hsplits.blanks_between_trimmed, ?_⟩
  · intro s hs
    exact (hsplits.of_mem (hinside.subset hs)).2
  · rw [hdenotes.map_line]
    exact hsplits.pairwise_line.sublist (hinside.sublist.map Span.line)
  · intro t ht
    rw [List.head?_eq_getElem?] at ht
    obtain ⟨s, hs, hbreak⟩ := hdenotes.exists_span ht
    rw [← hbreak]
    exact trimmed_head spans s (List.head?_eq_getElem?.trans hs)
  · intro t ht
    rw [List.getLast?_eq_getElem?, hdenotes.length_eq] at ht
    obtain ⟨s, hs, hbreak⟩ := hdenotes.exists_span ht
    rw [← hbreak]
    exact trimmed_getLast spans s (List.getLast?_eq_getElem?.trans hs)
  · rw [← List.isChain_map (R := fun a b => a = true → b = false), hflags,
      List.isChain_map]
    exact List.IsChain.infix hsplits.isChain hinside
  · rintro i j ⟨hlt, ⟨t, ht, -⟩, ⟨u, hu, -⟩, hbetween⟩
    obtain ⟨s, hs, -⟩ := hdenotes.exists_span ht
    obtain ⟨r, hr, -⟩ := hdenotes.exists_span hu
    have hbreaks : ∀ k b, i < k → k < j → (trimmed spans)[k]? = some b →
        b.isBreak = true := by
      intro k b hik hkj hb
      obtain ⟨v, hv, hbreak⟩ := hdenotes.exists_token hb
      rw [← hbreak]
      exact hbetween k v hik hkj hv
    obtain ⟨middle, hbefore, hiff⟩ := hsplits.between hs hr hlt hbreaks
    refine ⟨s, r, middle, hs, hr, hbefore, hiff.trans ⟨fun hmore => ?_, ?_⟩⟩
    · obtain ⟨hj, -⟩ := List.getElem?_eq_some_iff.mp hu
      have hv := List.getElem?_eq_getElem (hmore.trans hj)
      exact ⟨i + 1, _, Nat.lt_succ_self i, hmore, hv,
        hbetween _ _ (Nat.lt_succ_self i) hmore hv⟩
    · rintro ⟨k, v, hik, hkj, -, -⟩
      omega

/-- A break at either end, and a run of two with blanks around them. -/
def ragged : String := "\na;\r\n \n b\n"

theorem lines_of_ragged :
    ∃ reading spans, Reading.ofText ragged = .ok reading ∧
      Splits [] ragged.toList spans [] ∧
      reading.tokens.map Token.line = [2, 2, 2, 4] ∧
      (trimmed spans).map (fun s => 1 + s.before.count '\n') = [2, 2,
        2, 4] := by
  have hread :
      (Reading.ofText ragged).toOption.map (fun r => r.tokens.map Token.line) =
        some [2, 2, 2, 4] := by decide +kernel
  cases hreading : Reading.ofText ragged with
  | error e =>
      rw [hreading] at hread
      cases hread
  | ok reading =>
      rw [hreading] at hread
      have hlines : reading.tokens.map Token.line = [2, 2, 2, 4] :=
        Option.some.inj hread
      obtain ⟨spans, hsplits, -, -, hspans, -⟩ := lines_of_ofText hreading
      exact ⟨reading, spans, rfl, hsplits, hlines, hspans.symm.trans hlines⟩

end Lexical

end Reckon
