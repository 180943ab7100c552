import Reckon.Proofs.Single.Written
import Reckon.Proofs.Token.Lines
import Reckon.Proofs.Token.Respelling
import Reckon.Proofs.Token.Tables

/-!
# Tokens written out

The tokens of a text are written out with one blank between any two, and each
line break as one. Read again they are what they were, but for their lines
(`Reading.ofText_written`). A blank ends every lexeme except a line break,
which it becomes part of, so each of the texts is a lexeme again. The texts
are the old ones or, for numbers, others of the same value; numbers that are
not finite have none. Whether a name is one of a label depends on nothing that
is written otherwise.
-/

namespace Reckon

/-- The text of a token in a source. -/
def Token.written (t : Token) : String :=
  if t.isLineBreak then lineBreak else t.text

/-- A source text of some tokens. -/
def Reading.written (tokens : List Token) : String :=
  " ".intercalate (tokens.map Token.written)

/-! ## Numbers -/

namespace Single

theorem isNegative_ofDecimal (digits : Nat) (exponent : Int) :
    (ofDecimal false digits exponent).isNegative = false := by
  have hunits : ∀ num den, (ofUnits false num den).isNegative = false :=
    fun num den => isNegative_ofMagnitude
      (Nat.lt_of_le_of_lt (Nat.min_le_right ..) (by decide))
  unfold ofDecimal
  dsimp only
  split
  · exact isNegative_ofMagnitude (by decide)
  · split
    · exact isNegative_ofMagnitude (by decide)
    · split
      · exact hunits ..
      · exact hunits ..

end Single

namespace Lexical

variable {before text rest gap lexeme after : List Char}
  {spans earlier : List Span} {s r : Span}

open Reading (numeralValue)

theorem numeralValue_of_decimal {digits : Nat} {exponent : Int}
    (h : Single.Decimal digits exponent text) :
    IsNumeral text ∧ numeralValue text =
      Single.ofDecimal false digits exponent := by
  unfold numeralValue Single.ofDigits
  cases h with
  | whole hne hds hvalue hexponent =>
      have hall : text.takeWhile Char.isDigit = text :=
        List.takeWhile_eq_self_iff.mpr hds
      have hrest : text.dropWhile Char.isDigit = [] :=
        List.dropWhile_eq_nil_iff.mpr hds
      refine ⟨.whole hne hds, ?_⟩
      rw [hall, hrest, List.drop_nil, List.append_nil, hvalue, hexponent]
      rfl
  | @pointed ds fs hne hds hfs hvalue hexponent =>
      have hfront : (ds ++ '.' :: fs).takeWhile Char.isDigit = ds := by
        rw [List.takeWhile_append_of_pos hds]
        simp
      have hback : (ds ++ '.' :: fs).dropWhile Char.isDigit = '.' :: fs := by
        rw [List.dropWhile_append_of_pos hds]
        simp
      refine ⟨.pointed (.inl hne) hds hfs, ?_⟩
      rw [hfront, hback, List.drop_one, List.tail_cons, hvalue, hexponent,
        Int.zero_sub]

/-- A finite number without a sign is written as a numeral that is read as
it. -/
theorem parse?_toText {v : Single} (hfinite : v.isFinite = true)
    (hpositive : v.isNegative = false) :
    IsNumeral v.toText.toList ∧ Single.parse? v.toText = some v := by
  obtain ⟨hnumber, hbounded⟩ := Single.isFinite_iff.mp hfinite
  have htext : v.toText.toList = Single.magnitudeText v.magnitude := by
    rw [Single.toText, hnumber, hpositive, if_neg nofun]
    exact String.toList_ofList
  have hself : Single.ofMagnitude false v.magnitude = v := by
    refine Single.ext_iff.mpr ⟨Single.magnitude_ofMagnitude v.magnitude_lt, ?_⟩
    rw [hpositive, Single.isNegative_ofMagnitude v.magnitude_lt]
  have hread :
      IsNumeral v.toText.toList ∧ numeralValue v.toText.toList = v := by
    rw [htext]
    rcases Nat.eq_zero_or_pos v.magnitude with hzero | hpos
    · have hdigit : Single.magnitudeText 0 = ['0'] := rfl
      rw [hzero] at hself
      rw [hzero, hdigit]
      exact ⟨.whole nofun (List.forall_mem_singleton.mpr rfl), hself⟩
    · obtain ⟨digits, exponent, hdecimal, hvalue⟩ :=
        Single.exists_decimal hpos (of_decide_eq_true hfinite)
      obtain ⟨hnumeral, hread⟩ := numeralValue_of_decimal hdecimal
      exact ⟨hnumeral, hread.trans (hvalue.trans hself)⟩
  refine ⟨hread.1, ?_⟩
  have hparse := hread.1.parse?
  rwa [String.ofList_toList, hread.2] at hparse

/-! ## The text of a token -/

/-- What a lexeme is written as: a line break as one, and anything else as a
lexeme that is spelt like it or, if it is a numeral, has its value. -/
inductive Rewritten (s : Span) (item : String) : Prop where
  | lineBreak : IsBreak s.text → item = lineBreak → Rewritten s item
  | same :
      IsLexeme s.text → ¬IsBreak s.text → item.toList = s.text →
      Rewritten s item
  | numeral : IsNumeral s.text → IsNumeral item.toList →
      Single.parse? s.spelling = Single.parse? item → Rewritten s item

theorem not_isBreak {kind : Kind} (h : kindOf text = some kind)
    (hkind : kind ≠ .lineBreak) : ¬IsBreak text :=
  fun hbreak => hkind (Option.some.inj (h.symm.trans hbreak.kindOf))

theorem text_keyword (hinline : ¬IsBreak s.text) :
    (Lexeme.keyword s.spelling).text = s.spelling := by
  refine if_neg fun hbreak => hinline ?_
  rw [spelling_eq_iff.mp hbreak]
  exact ⟨[], rfl, nofun⟩

/-- The text of a token is a way to write what it means. -/
theorem Means.rewritten {x : Lexeme} (h : Means earlier s x)
    (hfinite : ∀ v, x = .constant v → v.isFinite = true) (line : Nat)
    (index : Option Nat) : Rewritten s (Token.word x line index).written := by
  have htext : s.isBreak = false → (Token.word x line index).written = x.text :=
    fun hbreak => by
    rw [Token.written, h.isLineBreak, hbreak, if_neg nofun, Token.text]
  have hsame : ∀ {kind : Kind}, kindOf s.text = some kind → kind ≠ .lineBreak →
      IsLexeme s.text → x.text = s.spelling →
        Rewritten s (Token.word x line index).written := by
    intro kind hkind hinline hlexeme hspelling
    refine .same hlexeme (not_isBreak hkind hinline) ?_
    rw [htext (Span.isBreak_eq_false hkind hinline), hspelling, Span.spelling,
      String.toList_ofList]
  cases h with
  | lineBreak h => exact .lineBreak h rfl
  | sign h =>
      exact hsame h.kindOf (by decide) (.sign h)
        (text_keyword (not_isBreak h.kindOf (by decide)))
  | reserved h _ =>
      exact hsame h.kindOf (by decide) (.word h)
        (text_keyword (not_isBreak h.kindOf (by decide)))
  | label h => exact hsame h.kindOf (by decide) (.word h) rfl
  | identifier h => exact hsame h.kindOf (by decide) (.word h) rfl
  | @numeral v h hvalue =>
      -- A number in a text has no sign.
      have hpositive : v.isNegative = false := by
        rw [Option.some.inj (hvalue.symm.trans h.parse?)]
        exact Single.isNegative_ofDecimal ..
      obtain ⟨hnumeral, hparse⟩ := parse?_toText (hfinite v rfl) hpositive
      rw [htext (Span.isBreak_eq_false h.kindOf (by decide))]
      exact .numeral h hnumeral (hvalue.trans hparse.symm)

theorem Denotes.rewritten {tokens : List Token}
    (h : Denotes earlier spans tokens)
    (hfinite : ∀ v line index, .word (.constant v) line index ∈ tokens →
      v.isFinite = true) :
    List.Forall₂ Rewritten spans (tokens.map Token.written) := by
  induction h with
  | nil => exact .nil
  | @cons earlier spans s x index tokens hmeans _ ih =>
      refine .cons (hmeans.rewritten ?_ _ _) (ih fun v line index hmem =>
        hfinite v line index (List.mem_cons_of_mem _ hmem))
      rintro v rfl
      exact hfinite v _ _ List.mem_cons_self

namespace Rewritten

variable {item : String}

theorem isLexeme (h : Rewritten s item) (hinline : s.isBreak = false) :
    IsLexeme item.toList ∧ ¬IsBreak item.toList := by
  cases h with
  | lineBreak hbreak _ =>
      rw [(Span.isBreak_iff (.lineBreak hbreak)).mpr hbreak] at hinline
      cases hinline
  | same hlexeme hother htext =>
      rw [htext]
      exact ⟨hlexeme, hother⟩
  | numeral _ hnumeral _ =>
      exact ⟨.numeral hnumeral, not_isBreak hnumeral.kindOf (by decide)⟩

theorem alike (h : Rewritten s item) (hinline : s.isBreak = false)
    (htext : r.text = item.toList) : Alike s r := by
  cases h with
  | lineBreak hbreak _ =>
      rw [(Span.isBreak_iff (.lineBreak hbreak)).mpr hbreak] at hinline
      cases hinline
  | same _ _ hsame => exact .same (hsame.symm.trans htext.symm)
  | numeral hs hnumeral hvalue =>
      refine .numeral hs (htext ▸ hnumeral) ?_
      rw [hvalue, Span.spelling, htext, String.ofList_toList]

theorem of_isBreak (h : Rewritten s item) (hbreak : s.isBreak = true) :
    IsBreak s.text ∧ item = Reckon.lineBreak := by
  cases h with
  | lineBreak hs hitem => exact ⟨hs, hitem⟩
  | same hlexeme hother _ =>
      exact absurd ((Span.isBreak_iff hlexeme).mp hbreak) hother
  | numeral hs _ _ =>
      rw [Span.isBreak_eq_false hs.kindOf (by decide)] at hbreak
      cases hbreak

end Rewritten

/-! ## Splitting what was written -/

/-- In front of a blank, of a line break or of the end nothing but a line break
can be longer. -/
theorem longest_of_space (h : IsLexeme lexeme) (hinline : ¬IsBreak lexeme)
    (hafter : ∀ c ∈ after.head?, Space c) : Longest lexeme after := by
  refine ⟨h, fun other hstart hother => ?_⟩
  by_contra hlonger
  obtain ⟨more, rfl⟩ :=
    List.prefix_of_prefix_length_le (List.prefix_append lexeme after)
    hstart (by omega)
  have hother_inline : ¬IsBreak (lexeme ++ more) := by
    rw [hother.isBreak_iff, List.head?_append_of_ne_nil _ h.ne_nil,
      ← h.isBreak_iff]
    exact hinline
  cases more with
  | nil => exact hlonger (by rw [List.append_nil])
  | cons c more =>
      obtain ⟨behind, rfl⟩ := (List.prefix_append_right_inj lexeme).mp hstart
      exact hother.not_space hother_inline c
        (List.mem_append_right _ List.mem_cons_self) (hafter c rfl)

/-- Some texts with a blank in front of each. -/
def lead (items : List String) : List Char :=
  items.flatMap fun item => ' ' :: item.toList

theorem toList_intercalate (item : String) (items : List String) :
    (" ".intercalate (item :: items)).toList = item.toList ++ lead items := by
  induction items generalizing item with
  | nil =>
      rw [String.intercalate_singleton, lead, List.flatMap_nil, List.append_nil]
  | cons next items ih =>
      rw [String.intercalate_cons_cons, String.toList_append,
        String.toList_append, ih, List.append_assoc]
      rfl

theorem stuck_nil : Stuck [] :=
  ⟨nofun, fun _ hstart hlexeme => hlexeme.ne_nil (List.prefix_nil.mp hstart)⟩

theorem splits_nil (before : List Char) : Splits before [] [] [] :=
  @Splits.stuck before [] [] nofun stuck_nil

theorem longest_break_blank (h : IsLexeme lexeme ∧ ¬IsBreak lexeme)
    (after : List Char) : Longest ['\n', ' '] (lexeme ++ after) := by
  obtain ⟨c, rest, rfl⟩ := List.exists_cons_of_ne_nil h.1.ne_nil
  have hfirst : ¬Space c := h.1.not_space h.2 c List.mem_cons_self
  have hlongest := longest_break (' ' :: (c :: rest ++ after))
  have hblank : Space ' ' := .inl (.inl rfl)
  simpa [hblank, hfirst] using hlongest

/-- What the lexemes are written as is split into lexemes like them. -/
theorem exists_splits_lead {items : List String} {item : String}
    (h : List.Forall₂ Rewritten (s :: spans) (item :: items))
    (hchain : (s :: spans).IsChain fun s r => s.isBreak = true →
      r.isBreak = false)
    (before gap : List Char) (hgap : ∀ c ∈ gap, Blank c) :
    ∃ spans', Splits before (gap ++ (item.toList ++ lead items)) spans' [] ∧
      List.Forall₂ Alike (s :: spans) spans' := by
  have hblank : ∀ c ∈ [' '], Blank c := List.forall_mem_singleton.mpr (.inl rfl)
  induction spans generalizing s item items before gap with
  | nil =>
      obtain ⟨hs, hlater⟩ := List.forall₂_cons.mp h
      cases hlater
      rw [lead, List.flatMap_nil]
      cases hbreak : s.isBreak with
      | false =>
          obtain ⟨hlexeme, hinline⟩ := hs.isLexeme hbreak
          exact ⟨_, .lexeme hgap (longest_of_space hlexeme hinline nofun)
            (splits_nil _), .cons (hs.alike hbreak rfl) .nil⟩
      | true =>
          obtain ⟨hline, rfl⟩ := hs.of_isBreak hbreak
          exact ⟨_, .lexeme hgap (longest_break []) (splits_nil _),
            .cons (.lineBreak hline ⟨[], rfl, nofun⟩) .nil⟩
  | cons r spans ih =>
      obtain ⟨hs, hlater⟩ := List.forall₂_cons.mp h
      cases hlater with
      | @cons _ next _ items hr hlater =>
          have hnext := hchain.rel
          have hbehind := ih (.cons hr hlater) hchain.tail
          cases hbreak : s.isBreak with
          | false =>
              obtain ⟨hlexeme, hinline⟩ := hs.isLexeme hbreak
              obtain ⟨spans', hsplits, halike⟩ :=
                hbehind (before ++ gap ++ item.toList) [' '] hblank
              refine ⟨_,
                .lexeme hgap (longest_of_space hlexeme hinline ?_) hsplits,
                .cons (hs.alike hbreak rfl) halike⟩
              rintro c ⟨⟩
              exact .inl (.inl rfl)
          | true =>
              -- The blank behind a line break becomes part of it.
              obtain ⟨hline, rfl⟩ := hs.of_isBreak hbreak
              obtain ⟨spans', hsplits, halike⟩ :=
                hbehind (before ++ gap ++ ['\n', ' ']) [] nofun
              have htext : Reckon.lineBreak.toList ++ lead (next :: items) =
                ['\n', ' '] ++ (next.toList ++ lead items) := rfl
              rw [htext]
              refine ⟨_, .lexeme hgap
                  (longest_break_blank (hr.isLexeme (hnext hbreak)) _) hsplits,
                .cons (.lineBreak hline ⟨[' '], rfl,
                  fun c hc => .inl (hblank c hc)⟩) halike⟩

theorem exists_splits_intercalate {items : List String}
    (h : List.Forall₂ Rewritten spans items)
    (hchain : spans.IsChain fun s r => s.isBreak = true → r.isBreak = false) :
    ∃ spans', Splits [] (" ".intercalate items).toList spans' [] ∧
      List.Forall₂ Alike spans spans' := by
  cases h with
  | nil => exact ⟨[], splits_nil [], .nil⟩
  | cons hs hlater =>
      rw [toList_intercalate]
      exact exists_splits_lead (.cons hs hlater) hchain [] [] nofun

/-! ## The ends of a text -/

theorem trimmed_eq_self (hhead : ∀ s ∈ spans.head?, s.isBreak = false)
    (hlast : ∀ s ∈ spans.getLast?, s.isBreak = false) :
    trimmed spans = spans := by
  rw [trimmed_eq hhead, List.rdropWhile_eq_self_iff]
  intro hne hbreak
  cases (hlast _ (List.getLast?_eq_some_getLast hne)).symm.trans hbreak

/-- What is like the lexemes between the ends has no line break at an end
either. -/
theorem trimmed_of_alike {spans' : List Span}
    (h : List.Forall₂ Alike (trimmed spans) spans') :
    trimmed spans' = spans' := by
  have hflags := map_eq_of_alike (fun _ _ hs => hs.isBreak_eq) h
  refine trimmed_eq_self (fun r hr => ?_) fun r hr => ?_
  · have hhead := congrArg List.head? hflags
    rw [List.head?_map, List.head?_map, hr] at hhead
    obtain ⟨s, hs, hbreak⟩ := Option.map_eq_some_iff.mp hhead
    exact hbreak.symm.trans (trimmed_head spans s hs)
  · have hlast := congrArg List.getLast? hflags
    rw [List.getLast?_map, List.getLast?_map, hr] at hlast
    obtain ⟨s, hs, hbreak⟩ := Option.map_eq_some_iff.mp hlast
    exact hbreak.symm.trans (trimmed_getLast spans s hs)

theorem exists_splits_of_ofText {text : String} {reading : Reading}
    (h : Reading.ofText text = .ok reading) :
    ∃ spans, Splits [] text.toList spans [] ∧
      Denotes [] (trimmed spans) reading.tokens := by
  obtain ⟨spans, rest, hsplits⟩ := exists_splits [] text.toList
  cases rest with
  | nil =>
      obtain ⟨reading', hreading, hdenotes⟩ := ofText_ok hsplits
      cases h.symm.trans hreading
      exact ⟨spans, hsplits, hdenotes⟩
  | cons c rest =>
      obtain ⟨read, -, herror⟩ := ofText_error hsplits
      cases herror.symm.trans h

end Lexical

/-! ## Tables -/

namespace Reading

/-- Indices and tables depend on nothing but the words and their order. -/
theorem ofWords_congr {words words' : List (Lexeme × Nat)}
    (h : words.map Prod.fst = words'.map Prod.fst) (l : Lexicon) :
    (ofWords l words).tokens.map Token.index = (ofWords l words').tokens.map
      Token.index ∧ (ofWords l words).lexicon = (ofWords l words').lexicon := by
  induction words generalizing words' l with
  | nil =>
      cases List.map_eq_nil_iff.mp h.symm
      exact ⟨rfl, rfl⟩
  | cons w words ih =>
      obtain ⟨w', words', rfl, hw, hwords⟩ := List.map_eq_cons_iff.mp h.symm
      obtain ⟨x, line⟩ := w
      obtain ⟨x', line'⟩ := w'
      obtain rfl : x' = x := hw
      obtain ⟨hindices, hlexicon⟩ := ih hwords.symm (l.enter x').2
      exact ⟨congrArg ((l.enter x').1 :: ·) hindices, hlexicon⟩

theorem map_lexeme?_ofWords (words : List (Lexeme × Nat)) (l : Lexicon) :
    (ofWords l words).tokens.map Token.lexeme? = words.map fun w =>
    some w.1 := by
  induction words generalizing l with
  | nil => rfl
  | cons w words ih => exact congrArg _ (ih (l.enter w.1).2)

/-- The same words fill the same tables. -/
theorem tables_congr {text text' : String} {reading reading' : Reading}
    (h : ofText text = .ok reading) (h' : ofText text' = .ok reading')
    (hsame : reading'.tokens.map Token.lexeme? = reading.tokens.map
      Token.lexeme?) :
    reading'.tokens.map Token.index = reading.tokens.map Token.index ∧
      reading'.lexicon = reading.lexicon := by
  obtain ⟨words, -, rfl⟩ := exists_words h
  obtain ⟨words', -, rfl⟩ := exists_words h'
  rw [map_lexeme?_ofWords, map_lexeme?_ofWords] at hsame
  refine ofWords_congr ?_ {}
  have hsome := congrArg (List.filterMap id) hsame
  simpa [List.filterMap_map, Function.comp_def] using hsome

/-- Where the tables have finite numbers only, so have the tokens. -/
theorem isFinite_of_ofText {text : String} {reading : Reading}
    (h : ofText text = .ok reading)
    (hfinite : ∀ v ∈ reading.lexicon.constants, v.isFinite = true) {v : Single}
    {line : Nat} {index : Option Nat}
    (hv : .word (.constant v) line index ∈ reading.tokens) :
    v.isFinite = true := by
  cases (Files.ofText h).indexed _ hv with
  | constant hentry hnear =>
      have hmem := List.mem_of_getElem? hentry
      rcases hnear with rfl | hnear
      · exact hfinite _ hmem
      · exact (Single.isFinite_of_near hnear).2

open Lexical in
/-- A text whose numbers are finite, written out token by token, is read as the
same words with the same indices and tables. -/
theorem ofText_written {text : String} {reading : Reading}
    (h : ofText text = .ok reading)
    (hfinite : ∀ v ∈ reading.lexicon.constants, v.isFinite = true) :
    ∃ again, ofText (written reading.tokens) = .ok again ∧
      again.tokens.map Token.lexeme? = reading.tokens.map Token.lexeme? ∧
      again.tokens.map Token.index = reading.tokens.map Token.index ∧
      again.lexicon = reading.lexicon := by
  obtain ⟨spans, hsplits, hdenotes⟩ := exists_splits_of_ofText h
  have hrewritten :=
    hdenotes.rewritten fun v _ _ hv => isFinite_of_ofText h hfinite hv
  have hchain := List.IsChain.infix hsplits.isChain (trimmed_isInfix spans)
  obtain ⟨spans', hsplits', halike⟩ :=
    exists_splits_intercalate hrewritten hchain
  have htrimmed := trimmed_of_alike halike
  obtain ⟨again, hagain, hdenotes'⟩ := ofText_ok hsplits'
  -- The tokens of the new text are what the old ones become when they
  -- are spelt otherwise.
  obtain ⟨tokens, hrespelt, hlexemes⟩ := hdenotes.respell .nil halike
    (fun s later hs => hsplits.beforeColon_trimmed_iff hs)
    (fun s later hs => hsplits'.beforeColon_trimmed_iff (htrimmed.symm ▸ hs))
  rw [htrimmed] at hdenotes'
  have hsame := (hdenotes'.unique hrespelt).trans hlexemes
  exact ⟨again, hagain, hsame, tables_congr h hagain hsame⟩

/-- Words and signs side by side, several breaks at once, and
numbers in long form. -/
def crowded : String := "begin\r\n \n m :a<=.10;goto m\n1.000001 1 16777217.0"

theorem ofText_written_crowded :
    ∃ reading again, ofText crowded = .ok reading ∧
      (∀ v ∈ reading.lexicon.constants, v.isFinite = true) ∧
      written reading.tokens =
        "begin \n m : a <= 0.1 ; goto m \n 1.000001 1 16777216" ∧
      ofText (written reading.tokens) = .ok again ∧
      again.tokens.map Token.index =
        [none, none, some 0, none, some 0, none, some 0, none, none, some 0,
          none, some 1, some 1, some 2] := by
  have hread : (ofText crowded).toOption.map (fun r => (written r.tokens,
      r.lexicon.constants.all Single.isFinite, r.tokens.map Token.index)) =
      some ("begin \n m : a <= 0.1 ; goto m \n 1.000001 1 16777216", true,
        [none, none, some 0, none, some 0, none, some 0, none, none, some 0,
          none, some 1, some 1, some 2]) := by
    decide +kernel
  cases hreading : ofText crowded with
  | error e =>
      rw [hreading] at hread
      cases hread
  | ok reading =>
      rw [hreading] at hread
      obtain ⟨hwritten, hrest⟩ := Prod.mk.inj (Option.some.inj hread)
      obtain ⟨hall, hindices⟩ := Prod.mk.inj hrest
      have hfinite := List.all_eq_true.mp hall
      obtain ⟨again, hagain, -, hsame, -⟩ := ofText_written hreading hfinite
      exact ⟨reading, again, rfl, hfinite, hwritten, hagain,
        hsame.trans hindices⟩

end Reading

end Reckon
