import Reckon.Proofs.Syntax.Spelling
import Reckon.Proofs.Token.Scanning
import Reckon.Token.Reading

/-!
# What the lexemes of a text mean

A lexeme becomes one token (`Denotes`). For most lexemes its own characters say
which: a numeral is the number it is parsed to, which it always is to one, and a
line break, a sign or a reserved word is itself. Any other word is a label or an
identifier, and there the place decides (`NamesLabel`), as far back as the first
`begin` and as far ahead as a colon on the same line.

The reader knows of the place only what the neighbouring pieces are, and the
flag that `begin` sets. That this is enough is `Splits.beforeColon_iff` and
`namesLabel_iff`.
-/

namespace Reckon

namespace Lexical

variable {before text rest : List Char} {spans earlier later : List Span}
  {s : Span} {c : Char}

namespace Span

/-- A colon is the next thing behind the lexeme on its line. -/
def BeforeColon (s : Span) : Prop :=
  ∃ gap rest, s.after = gap ++ ':' :: rest ∧ ∀ c ∈ gap, Blank c

end Span

/-- Whether a name with these lexemes before it is one of a label. -/
def NamesLabel (earlier : List Span) (s : Span) : Prop :=
  (∃ b ∈ earlier, b.spelling = "begin") ∧
    (s.BeforeColon ∨ earlier.getLast?.map Span.spelling = some "goto")

/-- What a lexeme is the text of, with these lexemes before it. -/
inductive Means (earlier : List Span) (s : Span) : Lexeme → Prop where
  | lineBreak : IsBreak s.text → Means earlier s (.keyword lineBreak)
  | sign : IsSign s.text → Means earlier s (.keyword s.spelling)
  | numeral {value : Single} : IsNumeral s.text →
      Single.parse? s.spelling = some value → Means earlier s (.constant value)
  | reserved : IsWord s.text → s.spelling ∈ reservedWords →
      Means earlier s (.keyword s.spelling)
  | label : IsWord s.text → s.spelling ∉ reservedWords → NamesLabel earlier s →
      Means earlier s (.label s.spelling)
  | identifier : IsWord s.text → s.spelling ∉ reservedWords →
      ¬NamesLabel earlier s → Means earlier s (.identifier s.spelling)

/-- The tokens are those of the lexemes, which stand behind some earlier
ones. -/
inductive Denotes : List Span → List Span → List Token → Prop where
  | nil {earlier : List Span} : Denotes earlier [] []
  | cons {earlier spans : List Span} {s : Span} {x : Lexeme}
      {index : Option Nat}
      {tokens : List Token} :
        Means earlier s x → Denotes (earlier ++ [s]) spans tokens →
      Denotes earlier (s :: spans) (.word x s.line index :: tokens)

/-- A lexeme means one thing at most. -/
theorem Means.unique {x y : Lexeme} (hx : Means earlier s x)
    (hy : Means earlier s y) : x = y := by
  cases hx with
  | lineBreak h =>
      cases hy with
      | lineBreak => rfl
      | sign h' | numeral h' | reserved h' | label h' | identifier h' =>
          cases h.kindOf.symm.trans h'.kindOf
  | sign h =>
      cases hy with
      | sign => rfl
      | lineBreak h' | numeral h' | reserved h' | label h' | identifier h' =>
          cases h.kindOf.symm.trans h'.kindOf
  | numeral h hvalue =>
      cases hy with
      | numeral h' hvalue' => rw [Option.some.inj (hvalue.symm.trans hvalue')]
      | lineBreak h' | sign h' | reserved h' | label h' | identifier h' =>
          cases h.kindOf.symm.trans h'.kindOf
  | reserved h hreserved =>
      cases hy with
      | reserved => rfl
      | label _ hfree | identifier _ hfree => exact absurd hreserved hfree
      | lineBreak h' | sign h' | numeral h' =>
          cases h.kindOf.symm.trans h'.kindOf
  | label h hfree hnames =>
      cases hy with
      | label => rfl
      | reserved _ hreserved => exact absurd hreserved hfree
      | identifier _ _ hother => exact absurd hnames hother
      | lineBreak h' | sign h' | numeral h' =>
          cases h.kindOf.symm.trans h'.kindOf
  | identifier h hfree hother =>
      cases hy with
      | identifier => rfl
      | reserved _ hreserved => exact absurd hreserved hfree
      | label _ _ hnames => exact absurd hnames hother
      | lineBreak h' | sign h' | numeral h' =>
          cases h.kindOf.symm.trans h'.kindOf

theorem Denotes.unique {tokens tokens' : List Token}
    (h : Denotes earlier spans tokens) (h' : Denotes earlier spans tokens') :
    tokens.map Token.lexeme? = tokens'.map Token.lexeme? := by
  induction h generalizing tokens' with
  | nil =>
      cases h'
      rfl
  | cons hmeans _ ih =>
      cases h' with
      | cons hmeans' hlater' =>
          rw [List.map_cons, List.map_cons, ih hlater', hmeans.unique hmeans']
          rfl

/-! ## Numerals -/

/-- Every numeral is read as a number. -/
theorem IsNumeral.parse? (h : IsNumeral text) :
    Single.parse? (String.ofList text) = some (Reading.numeralValue text) := by
  have hnumeral :
      Single.numeral? false text = some (Reading.numeralValue text) := by
    unfold Single.numeral? Reading.numeralValue
    cases h with
    | whole hne hds =>
        have hall : text.takeWhile Char.isDigit = text :=
          List.takeWhile_eq_self_iff.mpr hds
        have hrest : text.dropWhile Char.isDigit = [] :=
          List.dropWhile_eq_nil_iff.mpr hds
        simp only [hall, hrest]
        rw [if_neg fun hnil => hne hnil.1]
        rfl
    | @pointed ds fs hne hds hfs =>
        have hfront : (ds ++ '.' :: fs).takeWhile Char.isDigit = ds := by
          rw [List.takeWhile_append_of_pos hds]
          simp
        have hback : (ds ++ '.' :: fs).dropWhile Char.isDigit = '.' :: fs := by
          rw [List.dropWhile_append_of_pos hds]
          simp
        have hall : fs.takeWhile Char.isDigit = fs :=
          List.takeWhile_eq_self_iff.mpr hfs
        have hrest : fs.dropWhile Char.isDigit = [] :=
          List.dropWhile_eq_nil_iff.mpr hfs
        simp only [hfront, hback, hall, hrest]
        rw [if_neg fun hnil => hne.elim (· hnil.1) (· hnil.2)]
        rfl
  obtain ⟨c, rest, rfl, hc⟩ := h.head
  have hminus : c ≠ '-' := by
    rintro rfl
    exact absurd hc (by decide)
  have hplus : c ≠ '+' := by
    rintro rfl
    exact absurd hc (by decide)
  unfold Single.parse?
  rw [String.toList_ofList]
  split
  next negative front hsign =>
    split at hsign
    · next heq => exact absurd (List.cons.inj heq).1 hminus
    · next heq => exact absurd (List.cons.inj heq).1 hplus
    · cases hsign
      rw [hnumeral, Option.some_or]

/-! ## The token of a lexeme -/

section TokenOf

open Reading (tokenOf numeralValue)

variable {asLabel : Bool} {lexicon : Lexicon} {p : Piece}

theorem tokenOf_numeral (h : kindOf p.text = some .numeral) :
    tokenOf asLabel lexicon p =
      let value := numeralValue p.text
      let (slot, constants) := Pool.intern Single.near lexicon.constants value
      (.word (.constant value) p.line (some slot),
        { lexicon with constants }) := by
  rw [tokenOf]
  generalize p.text = text at h ⊢
  cases text with
  | nil => cases h
  | cons c rest =>
      simp only [if_pos (kindAt_eq_numeral.mp h)]

theorem tokenOf_fixed (hne : p.text ≠ [])
    (hnumeral : kindOf p.text ≠ some .numeral)
    (hfixed : kindOf p.text ≠ some .word ∨
      String.ofList p.text ∈ reservedWords) : tokenOf asLabel lexicon p =
      (.word (.keyword (String.ofList p.text)) p.line none, lexicon) := by
  rw [tokenOf]
  generalize p.text = text at hne hnumeral hfixed ⊢
  cases text with
  | nil => exact absurd rfl hne
  | cons c rest =>
      have hkeyword :
          (!c.isAlpha || reservedWords.contains (String.ofList (c :: rest))) =
            true := by
        rw [Bool.or_eq_true, Bool.not_eq_true', List.contains_iff_mem]
        refine hfixed.imp_left fun hword =>
          Bool.eq_false_iff.mpr fun halpha => hword ?_
        exact kindAt_eq_word.mpr halpha
      simp only [if_neg fun hdigit => hnumeral (kindAt_eq_numeral.mpr hdigit),
        if_pos hkeyword]

theorem tokenOf_name (h : kindOf p.text = some .word)
    (hfree : String.ofList p.text ∉ reservedWords) :
    tokenOf asLabel lexicon p =
      let name := String.ofList p.text
      if asLabel then
        let (slot, labels) := Pool.intern (· == ·) lexicon.labels name
        (.word (.label name) p.line (some slot), { lexicon with labels })
      else
        let (slot, identifiers) := Pool.intern (· == ·) lexicon.identifiers name
        (.word (.identifier name) p.line (some slot),
          { lexicon with identifiers }) := by
  rw [tokenOf]
  generalize p.text = text at h hfree ⊢
  cases text with
  | nil => cases h
  | cons c rest =>
      have hnumeral : ¬(c.isDigit || c == '.') = true := by
        intro hdigit
        cases (kindAt_eq_numeral.mpr hdigit).symm.trans h
      have hkeyword :
          ¬(!c.isAlpha || reservedWords.contains (String.ofList (c :: rest))) =
            true := by
        rw [kindAt_eq_word.mp h, Bool.not_true, Bool.false_or,
          List.contains_iff_mem]
        exact hfree
      simp only [if_neg hnumeral, if_neg hkeyword]

end TokenOf

theorem Span.piece_text (h : s.isBreak = false) : s.piece.text = s.text := by
  rw [piece, h]
  rfl

theorem Span.piece_text_break (h : s.isBreak = true) :
    s.piece.text = ['\n'] := by
  rw [piece, h]
  rfl

/-- The token of a lexeme means it, if the reader knows whether it names a
label. -/
theorem tokenOf_means {asLabel : Bool} (lexicon : Lexicon) (h : IsLexeme s.text)
    (hlabel : asLabel = true ↔ NamesLabel earlier s) :
    ∃ x index, (Reading.tokenOf asLabel lexicon s.piece).1 =
      .word x s.line index ∧ Means earlier s x := by
  cases hbreak : s.isBreak with
  | true =>
      have htext := Span.piece_text_break hbreak
      refine ⟨.keyword lineBreak, none, ?_,
        .lineBreak ((Span.isBreak_iff h).mp hbreak)⟩
      rw [tokenOf_fixed (by rw [htext]; decide) (by rw [htext]; decide)
        (.inl (by rw [htext]; decide)), htext]
      rfl
  | false =>
      have htext := Span.piece_text hbreak
      have hne : s.piece.text ≠ [] := htext ▸ h.ne_nil
      cases h with
      | numeral h =>
          rw [tokenOf_numeral (htext ▸ h.kindOf), htext]
          exact ⟨_, _, rfl, .numeral h h.parse?⟩
      | word h =>
          by_cases hreserved : s.spelling ∈ reservedWords
          · refine ⟨.keyword s.spelling, none, ?_, .reserved h hreserved⟩
            rw [tokenOf_fixed hne (by rw [htext, h.kindOf]; decide)
              (.inr (htext ▸ hreserved)), htext]
            rfl
          · rw [tokenOf_name (htext ▸ h.kindOf) (htext ▸ hreserved), htext]
            cases hasLabel : asLabel with
            | true => exact ⟨_, _, rfl, .label h hreserved (hlabel.mp hasLabel)⟩
            | false =>
                refine ⟨_, _, rfl, .identifier h hreserved fun hnames => ?_⟩
                rw [hlabel.mpr hnames] at hasLabel
                cases hasLabel
      | sign h =>
          refine ⟨.keyword s.spelling, none, ?_, .sign h⟩
          rw [tokenOf_fixed hne (by rw [htext, h.kindOf]; decide)
            (.inl (by rw [htext, h.kindOf]; decide)), htext]
          rfl
      | lineBreak h =>
          rw [(Span.isBreak_iff (.lineBreak h)).mpr h] at hbreak
          cases hbreak

/-! ## The place of a name -/

theorem eq_colon (h : IsLexeme (':' :: rest)) : rest = [] := by
  have hkind : kindOf (':' :: rest) = some .sign := rfl
  cases h with
  | numeral h => cases h.kindOf.symm.trans hkind
  | word h => cases h.kindOf.symm.trans hkind
  | sign h =>
      rcases isSign_iff.mp h with ⟨c, hc, heq⟩ | ⟨c, -, heq⟩
      · obtain ⟨rfl, -⟩ := List.cons.inj heq
        exact absurd hc (by decide)
      · exact (List.cons.inj heq).2
  | lineBreak h => cases h.kindOf.symm.trans hkind

theorem Span.piece_text_eq_iff {word : List Char}
    (hword : word.head? ≠ some '\n') : s.piece.text = word ↔ s.text = word := by
  cases hbreak : s.isBreak with
  | false => rw [Span.piece_text hbreak]
  | true =>
      rw [Span.piece_text_break hbreak]
      rw [isBreak, beq_iff_eq] at hbreak
      constructor
      · rintro rfl
        exact absurd rfl hword
      · rintro rfl
        exact absurd hbreak hword

theorem Span.piece_text_eq_spelling {word : String}
    (hword : word.toList.head? ≠ some '\n') :
    s.piece.text = word.toList ↔ s.spelling = word := by
  rw [Span.piece_text_eq_iff hword, spelling, ← String.toList_inj,
    String.toList_ofList]

/-- A colon follows a lexeme on its line if the next lexeme is one. -/
theorem Splits.beforeColon_iff (h : Splits before text spans rest)
    (hs : s :: later <:+ spans) :
    s.BeforeColon ↔ ∃ r ∈ later.head?, r.text = [':'] := by
  have hcolon : ∀ rest : List Char, ∀ c ∈ (':' :: rest).head?, ¬Blank c := by
    rintro rest _ ⟨⟩
    decide
  cases later with
  | nil =>
      obtain ⟨-, -, hbehind⟩ := h.of_suffix hs
      refine ⟨?_, by rintro ⟨r, ⟨⟩, -⟩⟩
      rintro ⟨gap, behind, hafter, hgap⟩
      generalize s.after = after at hbehind hafter
      cases hbehind with
      | stuck hgap' hstuck =>
          obtain ⟨rfl, rfl⟩ :=
            blanks_unique hgap' hstuck.not_blank hgap (hcolon behind) hafter
          refine absurd ?_ (hstuck.not_lexeme [':'] ⟨behind, rfl⟩)
          exact .sign ⟨":", by decide, rfl⟩
  | cons r later =>
      obtain ⟨gap, hgap, hafter, -⟩ := h.blanks_between hs
      obtain ⟨hnext, -, -⟩ := h.of_suffix ((List.suffix_cons s _).trans hs)
      constructor
      · rintro ⟨gap', behind, hafter', hgap'⟩
        obtain ⟨rfl, htext⟩ :=
          blanks_unique hgap hnext.not_blank hgap' (hcolon behind)
            (hafter.symm.trans hafter')
        cases hr : r.text with
        | nil => exact absurd hr hnext.isLexeme.ne_nil
        | cons c front =>
            rw [hr, List.cons_append] at htext
            obtain ⟨rfl, -⟩ := List.cons.inj htext
            have hempty : front = [] := eq_colon (hr ▸ hnext.isLexeme)
            exact ⟨r, rfl, by rw [hr, hempty]⟩
      · rintro ⟨_, ⟨⟩, htext⟩
        exact ⟨gap, r.after, by rw [hafter, htext]; rfl, hgap⟩

theorem split_trimmed (spans : List Span) : ∃ front back,
    spans = front ++ trimmed spans ++ back ∧ (∀ s ∈ back, s.isBreak = true) ∧
      ∀ s ∈ front, s.isBreak = true := by
  refine ⟨spans.takeWhile Span.isBreak,
    (spans.dropWhile Span.isBreak).rtakeWhile Span.isBreak, ?_,
    fun s hs => List.mem_rtakeWhile_imp hs,
    fun s hs => List.mem_takeWhile_imp hs⟩
  rw [trimmed, List.append_assoc, List.rdropWhile_append_rtakeWhile,
    List.takeWhile_append_dropWhile]

/-- What is behind a lexeme when the line breaks at the two ends are left out is
behind it when they are not. -/
theorem suffix_of_trimmed (h : later <:+ trimmed spans) :
    ∃ back, later ++ back <:+ spans ∧ ∀ s ∈ back, s.isBreak = true := by
  obtain ⟨front, back, hspans, hback, -⟩ := split_trimmed spans
  obtain ⟨behind, hbehind⟩ := h
  refine ⟨back, ⟨front ++ behind, ?_⟩, hback⟩
  rw [hspans, ← hbehind]
  simp only [List.append_assoc]

/-- The same holds when the line breaks at the ends are left out. -/
theorem Splits.beforeColon_trimmed_iff (h : Splits before text spans rest)
    (hs : s :: later <:+ trimmed spans) :
    s.BeforeColon ↔ ∃ r ∈ later.head?, r.text = [':'] := by
  obtain ⟨back, hsuffix, hback⟩ := suffix_of_trimmed hs
  rw [h.beforeColon_iff hsuffix]
  cases later with
  | cons r later => rfl
  | nil =>
      cases back with
      | nil => rfl
      | cons b back =>
          have hbreak := hback b List.mem_cons_self
          refine ⟨?_, by rintro ⟨r, ⟨⟩, -⟩⟩
          rintro ⟨_, ⟨⟩, htext⟩
          rw [Span.isBreak, htext] at hbreak
          cases hbreak

/-! ## The tokens of a text -/

/-- The neighbouring pieces tell whether a name is one of a label. -/
theorem namesLabel_iff {inBody : Bool}
    (hbody : inBody = true ↔ ∃ b ∈ earlier, b.spelling = "begin")
    (hcolon : s.BeforeColon ↔ ∃ r ∈ later.head?, r.text = [':']) :
    Reading.namesLabel inBody (earlier.getLast?.map Span.piece)
      (later.head?.map Span.piece) = true ↔ NamesLabel earlier s := by
  have hnext :
      (((later.head?.map Span.piece).map Piece.text) == some [':']) = true ↔
      s.BeforeColon := by
    rw [hcolon, beq_iff_eq, Option.map_map, Option.map_eq_some_iff]
    exact exists_congr fun r => and_congr_right fun _ =>
      Span.piece_text_eq_iff (by decide)
  have hlast :
      (((earlier.getLast?.map Span.piece).map Piece.text) ==
        some "goto".toList) = true ↔
        earlier.getLast?.map Span.spelling = some "goto" := by
    rw [beq_iff_eq, Option.map_map, Option.map_eq_some_iff,
      Option.map_eq_some_iff]
    exact exists_congr fun r =>
      and_congr_right fun _ => Span.piece_text_eq_spelling (by decide)
  rw [Reading.namesLabel, Bool.and_eq_true, Bool.or_eq_true, hnext, hlast,
    hbody]
  rfl

theorem ofPieces_cons {inBody : Bool} {before : Option Piece}
    {lexicon : Lexicon} {p : Piece} {pieces : List Piece} :
    Reading.ofPieces inBody before lexicon (p :: pieces) =
      let read := Reading.tokenOf
        (Reading.namesLabel inBody before pieces.head?) lexicon p
      let later := Reading.ofPieces
        (inBody || p.text == "begin".toList) (some p) read.2 pieces
      ⟨read.1 :: later.tokens, later.lexicon⟩ :=
  rfl

theorem ofPieces_denotes {inBody : Bool} (lexicon : Lexicon)
    (hlexemes : ∀ s ∈ spans, IsLexeme s.text)
    (hcolon : ∀ s later, s :: later <:+ spans →
      (s.BeforeColon ↔ ∃ r ∈ later.head?, r.text = [':']))
    (hbody : inBody = true ↔ ∃ b ∈ earlier, b.spelling = "begin") :
    Denotes earlier spans
      (Reading.ofPieces inBody (earlier.getLast?.map Span.piece) lexicon
        (spans.map Span.piece)).tokens := by
  induction spans generalizing earlier inBody lexicon with
  | nil => exact .nil
  | cons s spans ih =>
      obtain ⟨hs, hspans⟩ := List.forall_mem_cons.mp hlexemes
      have hlabel := namesLabel_iff hbody (hcolon s spans (List.suffix_refl _))
      have hlater : ∀ r later, r :: later <:+ spans →
          (r.BeforeColon ↔ ∃ q ∈ later.head?, q.text = [':']) :=
        fun r later hr => hcolon r later (hr.trans (List.suffix_cons s spans))
      have hflag : (inBody || s.piece.text == "begin".toList) = true ↔
          ∃ b ∈ earlier ++ [s], b.spelling = "begin" := by
        rw [Bool.or_eq_true, hbody, beq_iff_eq,
          Span.piece_text_eq_spelling (by decide)]
        simp [or_and_right, exists_or]
      obtain ⟨x, index, htoken, hmeans⟩ := tokenOf_means lexicon hs hlabel
      rw [List.map_cons, ofPieces_cons, List.head?_map]
      generalize Reading.tokenOf (Reading.namesLabel inBody _ _)
        lexicon s.piece = read at htoken ⊢
      obtain ⟨token, lexicon⟩ := read
      obtain rfl := htoken
      have htail := ih lexicon hspans hlater hflag
      rw [List.getLast?_concat] at htail
      exact .cons hmeans htail

theorem ofText_eq (text : String) : Reading.ofText text =
    (fun pieces =>
      Reading.ofPieces false none {} (Piece.joinBreaks true pieces)) <$>
      scanBehind [] text.toList := by
  rw [map_eq_pure_bind]
  rfl

/-- A text that can be split up to its end is read, and its tokens are what the
lexemes mean. -/
theorem ofText_ok {text : String} (h : Splits [] text.toList spans []) :
    ∃ reading, Reading.ofText text = .ok reading ∧
      Denotes [] (trimmed spans) reading.tokens := by
  obtain ⟨read, pieces, -, hpieces, hscan⟩ := h.scanBehind
  have hnil : scanBehind ([] ++ read) [] = .ok [] := by
    rw [scanBehind, Piece.scan]
  rw [ofText_eq, hscan, hnil]
  refine ⟨_, rfl, ?_⟩
  show Denotes [] (trimmed spans)
    (Reading.ofPieces false none {}
      (Piece.joinBreaks true (pieces ++ []))).tokens
  rw [List.append_nil, (hpieces.joinBreaks h.isChain).2]
  refine ofPieces_denotes {} ?_
    (fun s later hs => h.beforeColon_trimmed_iff hs) ?_
  · intro s hs
    obtain ⟨front, back, hspans, -⟩ := split_trimmed spans
    refine (h.of_mem ?_).1.isLexeme
    rw [hspans]
    exact List.mem_append_left _ (List.mem_append_right _ hs)
  · simp

/-- Where a text is stuck it is refused. -/
theorem ofText_error {text : String}
    (h : Splits [] text.toList spans (c :: rest)) :
    ∃ read, text.toList = read ++ c :: rest ∧
      Reading.ofText text = .error ⟨c, lineAt read, columnAt read⟩ := by
  obtain ⟨read, pieces, htext, -, hscan⟩ := h.scanBehind
  rw [List.nil_append] at hscan
  refine ⟨read, htext, ?_⟩
  rw [ofText_eq, hscan, scanBehind_stuck h.stuck_rest]
  rfl

/-- Reading a text is splitting it into blanks and longest lexemes. There is one
way to do so. If it comes to the end of the text, the tokens are what the
lexemes mean, and they mean one thing each. If it is stuck before, the text is
refused with the place of the character where neither a blank nor a lexeme
starts. No other refusal is possible, since every numeral has a value. -/
theorem ofText_splits (text : String) :
    ∃ spans rest, Splits [] text.toList spans rest ∧
      (∀ spans' rest', Splits [] text.toList spans' rest' → spans' = spans ∧
        rest' = rest) ∧
      (∀ s ∈ spans, IsNumeral s.text → ∃ value,
        Single.parse? s.spelling = some value) ∧
      ((∃ reading, Reading.ofText text = .ok reading) ↔ rest = []) ∧
      (∀ reading, Reading.ofText text = .ok reading →
        Denotes [] (trimmed spans) reading.tokens ∧
        ∀ tokens, Denotes [] (trimmed spans) tokens →
          tokens.map Token.lexeme? = reading.tokens.map Token.lexeme?) ∧
      ∀ e, Reading.ofText text = .error e →
        ∃ read behind, text.toList = read ++ e.found :: behind ∧
          rest = e.found :: behind ∧
          e.line = lineAt read ∧ e.column = columnAt read ∧
          e.message = toString (lineAt read) ++ ":" ++
            toString (columnAt read) ++
            ": unexpected character: '" ++ String.singleton e.found ++ "'" := by
  obtain ⟨spans, rest, hsplits⟩ := exists_splits [] text.toList
  refine ⟨spans, rest, hsplits, ?_, fun s _ hs => ⟨_, hs.parse?⟩, ?_⟩
  · intro spans' rest' h'
    exact h'.unique hsplits
  cases rest with
  | nil =>
      obtain ⟨reading, hreading, hdenotes⟩ := ofText_ok hsplits
      rw [hreading]
      refine ⟨iff_of_true ⟨reading, rfl⟩ rfl, ?_, nofun⟩
      rintro _ ⟨⟩
      exact ⟨hdenotes, fun tokens htokens => htokens.unique hdenotes⟩
  | cons c rest =>
      obtain ⟨read, htext, herror⟩ := ofText_error hsplits
      rw [herror]
      refine ⟨iff_of_false nofun nofun, nofun, ?_⟩
      rintro _ ⟨⟩
      exact ⟨read, rest, htext, rfl, rfl, rfl, rfl⟩

end Lexical

end Reckon
