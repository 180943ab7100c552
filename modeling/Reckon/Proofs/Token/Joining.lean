import Reckon.Proofs.Token.Writing

/-!
# Texts inside other texts

A text in front of a closing bracket is split as it is on its own, wherever it
stands: no lexeme goes over such a bracket (`Splits.cuts_bracket`). What its
lexemes mean depends on the place only where a name may be one of a label, so
without labels and `begin` they mean what they mean on their own. Put together,
the tokens of a text in brackets are those that it has alone, and only the line
breaks at its two ends are more (`exists_padded`).

Up to the first line break all tokens of a text stand on its first line.
-/

namespace Reckon

namespace Lexical

variable {before text gap lexeme after rest tail word : List Char}
  {earlier spans : List Span} {s : Span} {words vs : List (List Char)}
  {x y : Lexeme} {lexemes : List Lexeme} {tokens : List Token} {c : Char}

/-! ## Splitting at any place -/

/-- Wherever the text stands, it is split up to its end into lexemes
with these texts. -/
def Cuts (text : List Char) (words : List (List Char)) : Prop :=
  ∀ before, ∃ spans, Splits before text spans [] ∧ spans.map Span.text = words

theorem cuts_nil : Cuts [] [] := fun before => ⟨[], splits_nil before, rfl⟩

theorem Splits.behind_gap (hgap : ∀ c ∈ gap, Blank c)
    (h : Splits (before ++ gap) text spans rest) :
    Splits before (gap ++ text) spans rest := by
  have hboth : ∀ {more : List Char}, (∀ c ∈ more, Blank c) →
      ∀ c ∈ gap ++ more, Blank c :=
    fun hmore c hc => (List.mem_append.mp hc).elim (hgap c) (hmore c)
  cases h with
  | stuck hmore hstuck =>
      rw [← List.append_assoc]
      exact .stuck (hboth hmore) hstuck
  | lexeme hmore hlongest hlater =>
      rw [List.append_assoc before] at hlater ⊢
      rw [← List.append_assoc gap]
      exact .lexeme (hboth hmore) hlongest hlater

theorem Cuts.behind_gap (hgap : ∀ c ∈ gap, Blank c) (h : Cuts text words) :
    Cuts (gap ++ text) words := by
  intro before
  obtain ⟨spans, hsplits, hwords⟩ := h (before ++ gap)
  exact ⟨spans, hsplits.behind_gap hgap, hwords⟩

theorem Cuts.behind_lexeme (hlongest : Longest lexeme after)
    (h : Cuts after words) : Cuts (lexeme ++ after) (lexeme :: words) := by
  intro before
  obtain ⟨spans, hsplits, rfl⟩ := h (before ++ lexeme)
  have hlater : Splits (before ++ [] ++ lexeme) after spans [] := by
    rwa [List.append_nil]
  exact ⟨_, @Splits.lexeme before [] _ _ _ _ nofun hlongest hlater, rfl⟩

/-- What is found at the front of a text is the longest lexeme there. -/
theorem longest_of_lexemeLength
    (hlength : Piece.lexemeLength (lexeme ++ after) = lexeme.length)
    (hne : lexeme ≠ []) (hinline : lexeme.head? ≠ some '\n') :
    Longest lexeme after := by
  have hlongest := @longest_lexemeLength (lexeme ++ after)
    (hlength ▸ List.length_pos_iff.mpr hne)
      (by rwa [List.head?_append_of_ne_nil _ hne])
  rwa [hlength, List.take_left, List.drop_left] at hlongest

/-- A bracket is a lexeme, and no other lexeme has one in it. -/
theorem eq_bracket (h : IsLexeme text) (hmem : ']' ∈ text) : text = [']'] := by
  cases h with
  | numeral h =>
      cases h with
      | whole _ hds => cases hds _ hmem
      | pointed _ hds hfs =>
          rcases List.mem_append.mp hmem with hmem | hmem
          · cases hds _ hmem
          · rcases List.mem_cons.mp hmem with hpoint | hmem
            · cases hpoint
            · cases hfs _ hmem
  | word h =>
      obtain ⟨c, rest, rfl, hc, hrest⟩ := h
      rcases List.mem_cons.mp hmem with rfl | hmem
      · cases hc
      · cases hrest _ hmem
  | sign h =>
      obtain ⟨c, hc, rfl⟩ | ⟨c, -, rfl⟩ := isSign_iff.mp h
      · simp only [List.mem_cons, List.not_mem_nil, or_false] at hmem
        obtain rfl := hmem.resolve_right (by decide)
        exact absurd hc (by decide)
      · rw [List.mem_singleton.mp hmem]
  | lineBreak h =>
      obtain ⟨rest, rfl, hrest⟩ := h
      rcases List.mem_cons.mp hmem with hline | hmem
      · cases hline
      · exact absurd (hrest _ hmem) (by decide)

/-- A lexeme does not get longer by a bracket that stands behind it. -/
theorem Longest.before_bracket (h : Longest lexeme after) (tail : List Char) :
    Longest lexeme (after ++ ']' :: tail) := by
  refine ⟨h.isLexeme, fun other hstart hother => ?_⟩
  rw [← List.append_assoc] at hstart
  rcases Nat.le_total other.length (lexeme ++ after).length with hle | hge
  · exact h.longest other
      (List.prefix_of_prefix_length_le hstart (List.prefix_append ..) hle)
      hother
  · obtain ⟨more, rfl⟩ :=
      List.prefix_of_prefix_length_le (List.prefix_append ..) hstart hge
    have hpos := List.length_pos_iff.mpr h.isLexeme.ne_nil
    cases more with
    | nil =>
        rw [List.append_nil] at hother ⊢
        exact h.longest _ (List.prefix_refl _) hother
    | cons d more =>
        obtain ⟨behind, hbehind⟩ := (List.prefix_append_right_inj _).mp hstart
        obtain rfl := (List.cons.inj hbehind).1
        have hshort := congrArg List.length
          (eq_bracket hother (List.mem_append_right _ List.mem_cons_self))
        simp only [List.length_append, List.length_cons, List.length_nil]
          at hshort
        omega

/-- In front of a bracket a text is split as it is on its own. -/
theorem Splits.cuts_bracket (h : Splits before text spans [])
    (htail : Cuts (']' :: tail) vs) :
    Cuts (text ++ ']' :: tail) (spans.map Span.text ++ vs) := by
  generalize hrest : ([] : List Char) = rest at h
  induction h with
  | stuck hgap _ =>
      rw [← hrest, List.append_nil]
      exact htail.behind_gap hgap
  | lexeme hgap hlongest _ ih =>
      rw [List.append_assoc, List.append_assoc]
      exact .behind_gap hgap
        (.behind_lexeme (hlongest.before_bracket tail) (ih hrest))

/-! ## What a lexeme tells at any place -/

/-- What a lexeme with this text means wherever it is not the name of a
label. -/
def Tells (word : List Char) (x : Lexeme) : Prop :=
  ∀ earlier s, s.text = word → ¬NamesLabel earlier s → Means earlier s x

theorem Means.tells (h : Means earlier s x) (hx : ∀ l, x ≠ .label l) :
    Tells s.text x := by
  intro earlier' r htext hfree
  have hspelling : s.spelling = r.spelling := congrArg String.ofList htext.symm
  cases h with
  | lineBreak h => exact .lineBreak (htext ▸ h)
  | sign h => exact hspelling ▸ .sign (htext ▸ h)
  | numeral h hvalue => exact .numeral (htext ▸ h) (hspelling ▸ hvalue)
  | reserved h hreserved =>
      exact hspelling ▸ .reserved (htext ▸ h) (hspelling ▸ hreserved)
  | label => exact absurd rfl (hx _)
  | identifier h hother _ =>
      exact hspelling ▸ .identifier (htext ▸ h) (hspelling ▸ hother) hfree

theorem tells_sign {sign : String} (h : sign ∈ signs) :
    Tells sign.toList (.keyword sign) := by
  rintro earlier s htext -
  have hmeans : Means earlier s (.keyword s.spelling) := .sign ⟨sign, h, htext⟩
  rwa [spelling_eq_iff.mpr htext] at hmeans

theorem isWord_reserved {name : String} (h : name ∈ reservedWords) :
    IsWord name.toList := by
  have hall : ∀ name ∈ reservedWords,
      name.toList.head?.any Char.isAlpha = true ∧
      name.toList.tail.all Char.isAlphanum = true := by decide
  obtain ⟨hfirst, hrest⟩ := hall name h
  cases htext : name.toList with
  | nil =>
      rw [htext] at hfirst
      cases hfirst
  | cons c rest =>
      rw [htext] at hfirst hrest
      exact ⟨c, rest, rfl, hfirst, List.all_eq_true.mp hrest⟩

theorem tells_reserved {name : String} (h : name ∈ reservedWords) :
    Tells name.toList (.keyword name) := by
  rintro earlier s htext -
  have hword := isWord_reserved h
  have hspelling := spelling_eq_iff.mpr htext
  have hmeans : Means earlier s (.keyword s.spelling) :=
    .reserved (htext ▸ hword) (hspelling ▸ h)
  rwa [hspelling] at hmeans

/-- With nothing before it a name is not one of a label. -/
theorem Tells.means_alone (h : Tells word x) : Means [] ⟨[], word, []⟩ x :=
  h [] _ rfl fun hnames => by
    obtain ⟨⟨b, hb, -⟩, -⟩ := hnames
    cases hb

theorem Tells.ne_begin (h : Tells word x) (hx : x ≠ .keyword "begin") :
    word ≠ "begin".toList := by
  rintro rfl
  have hbegin : Means [] ⟨[], "begin".toList, []⟩ (.keyword "begin") :=
    (tells_reserved (by decide)).means_alone
  exact hx (h.means_alone.unique hbegin)

/-- A lexeme that tells something else is no line break. -/
theorem Tells.inline (h : Tells s.text x) (hx : x ≠ .keyword lineBreak) :
    s.isBreak = false := by
  refine Bool.eq_false_iff.mpr fun hbreak => hx ?_
  have hflag := (h.means_alone.isLineBreak 1 none).trans hbreak
  exact Option.some.inj (Token.isKeyword_iff.mp hflag)

theorem exists_tells (h : List.Forall₂ Tells (spans.map Span.text) lexemes)
    (hs : s ∈ spans.head?) : ∃ x ∈ lexemes.head?, Tells s.text x := by
  cases spans with
  | nil => cases hs
  | cons r spans =>
      cases hs
      cases h with
      | cons hfirst _ => exact ⟨_, rfl, hfirst⟩

/-- Without labels the lexemes of a text say what its tokens are. -/
theorem Denotes.tells (h : Denotes earlier spans tokens)
    (hspells : Spells tokens lexemes) (hlabels : ∀ l, .label l ∉ lexemes) :
    List.Forall₂ Tells (spans.map Span.text) lexemes := by
  induction h generalizing lexemes with
  | nil =>
      cases lexemes with
      | nil => exact .nil
      | cons => cases hspells
  | cons hmeans _ ih =>
      cases lexemes with
      | nil => cases hspells
      | cons y lexemes =>
          obtain ⟨hy, hlater⟩ := List.cons.inj hspells
          cases hy
          refine .cons (hmeans.tells fun l hl =>
            hlabels l (hl ▸ List.mem_cons_self)) ?_
          exact ih hlater fun l hl => hlabels l (List.mem_cons_of_mem _ hl)

/-- Without `begin` the tokens of a text are what its lexemes say. -/
theorem Denotes.spells (h : Denotes earlier spans tokens)
    (htells : List.Forall₂ Tells (spans.map Span.text) lexemes)
    (hbegin : .keyword "begin" ∉ lexemes)
    (hearlier : ∀ b ∈ earlier, b.text ≠ "begin".toList) :
    Spells tokens lexemes := by
  induction h generalizing lexemes with
  | nil =>
      cases htells
      rfl
  | @cons earlier spans s x index tokens hmeans _ ih =>
      cases htells with
      | @cons _ y _ lexemes hs hlater =>
          obtain ⟨hy, hlexemes⟩ := List.ne_and_not_mem_of_not_mem_cons hbegin
          have hfree : ¬NamesLabel earlier s := by
            rintro ⟨⟨b, hb, hspelling⟩, -⟩
            exact hearlier b hb (spelling_eq_iff.mp hspelling)
          have hmore : ∀ b ∈ earlier ++ [s], b.text ≠ "begin".toList := by
            intro b hb
            rcases List.mem_append.mp hb with hb | hb
            · exact hearlier b hb
            · rw [List.mem_singleton.mp hb]
              exact hs.ne_begin (Ne.symm hy)
          obtain rfl := hmeans.unique (hs earlier s rfl hfree)
          exact .cons rfl (ih hlater hlexemes hmore)

/-! ## The first line -/

theorem line_of_first (hsplits : Splits before text spans rest)
    (hdenotes : Denotes earlier spans tokens) {front later : List Token}
    {t : Token} (htokens : tokens = front ++ t :: later)
    (hfront : ∀ u ∈ front, u.isLineBreak = false) : t.line = lineAt before := by
  induction front generalizing before text spans earlier tokens with
  | nil =>
      subst htokens
      cases hdenotes with
      | cons =>
          cases hsplits with
          | @lexeme _ gap _ _ _ _ hgap _ _ =>
              exact lineAt_append (inline_of_blank hgap)
  | cons u front ih =>
      subst htokens
      obtain ⟨hu, hinner⟩ := List.forall_mem_cons.mp hfront
      cases hdenotes with
      | cons hmeans hlater =>
          cases hsplits with
          | @lexeme _ gap lexeme _ _ _ hgap hlongest hbehind =>
              rw [hmeans.isLineBreak, Bool.eq_false_iff] at hu
              have hother : ¬IsBreak lexeme := fun hbreak =>
                hu ((Span.isBreak_iff
                  (s := ⟨_, lexeme, _⟩) hlongest.isLexeme).mpr hbreak)
              rw [ih hbehind hlater rfl hinner, List.append_assoc,
                lineAt_append]
              rw [List.mem_append, not_or]
              exact ⟨inline_of_blank hgap, hlongest.isLexeme.inline hother⟩

/-! ## Reading a text by its lexemes -/

/-- At any place the text tells these lexemes and is done. -/
def Writes (text : List Char) (lexemes : List Lexeme) : Prop :=
  ∃ words, Cuts text words ∧ List.Forall₂ Tells words lexemes

namespace Writes

theorem nil : Writes [] [] := ⟨[], cuts_nil, .nil⟩

theorem behind_gap (hgap : ∀ c ∈ gap, Blank c) (h : Writes text lexemes) :
    Writes (gap ++ text) lexemes := by
  obtain ⟨words, hcuts, htells⟩ := h
  exact ⟨words, hcuts.behind_gap hgap, htells⟩

theorem behind_word (hlongest : Longest word after) (hword : Tells word x)
    (h : Writes after lexemes) : Writes (word ++ after) (x :: lexemes) := by
  obtain ⟨words, hcuts, htells⟩ := h
  exact ⟨word :: words, hcuts.behind_lexeme hlongest, .cons hword htells⟩

theorem behind_fixed {fixed : String} (hfixed : fixed ∈ signs ++ reservedWords)
    (hlength : Piece.lexemeLength (fixed.toList ++ after) = fixed.toList.length)
    (h : Writes after lexemes) :
    Writes (fixed.toList ++ after) (.keyword fixed :: lexemes) := by
  have hall : ∀ fixed ∈ signs ++ reservedWords,
      fixed.toList ≠ [] ∧ fixed.toList.head? ≠ some '\n' := by decide
  obtain ⟨hne, hinline⟩ := hall fixed hfixed
  refine h.behind_word (longest_of_lexemeLength hlength hne hinline) ?_
  rcases List.mem_append.mp hfixed with hsign | hreserved
  · exact tells_sign hsign
  · exact tells_reserved hreserved

end Writes

/-- A text is read as what its lexemes say. Up to the first line break its
tokens stand on the first line. -/
theorem ofText_of_writes {text : String} (h : Writes text.toList lexemes)
    (hbegin : .keyword "begin" ∉ lexemes)
    (hhead : .keyword lineBreak ∉ lexemes.head?)
    (hlast : .keyword lineBreak ∉ lexemes.getLast?) :
    ∃ reading, Reading.ofText text = .ok reading ∧
      Spells reading.tokens lexemes ∧
      ∀ front t later, reading.tokens = front ++ t :: later →
        (∀ u ∈ front, u.isLineBreak = false) → t.line = 1 := by
  obtain ⟨words, hcuts, htells⟩ := h
  obtain ⟨spans, hsplits, rfl⟩ := hcuts []
  obtain ⟨reading, hread, hdenotes⟩ := ofText_ok hsplits
  have hends : trimmed spans = spans := by
    refine trimmed_eq_self (fun s hs => ?_) fun s hs => ?_
    · obtain ⟨x, hx, hword⟩ := exists_tells htells hs
      exact hword.inline fun he => hhead (he ▸ hx)
    · rw [← List.head?_reverse] at hs hlast
      rw [← List.forall₂_reverse_iff, ← List.map_reverse] at htells
      obtain ⟨x, hx, hword⟩ := exists_tells htells hs
      exact hword.inline fun he => hlast (he ▸ hx)
  rw [hends] at hdenotes
  exact ⟨reading, hread, hdenotes.spells htells hbegin nofun,
    fun front t later htokens hfront =>
    line_of_first hsplits hdenotes htokens hfront⟩

/-! ## A text in front of a bracket -/

/-- A text has a line break in it if one of its lexemes is one. -/
theorem Splits.break_mem_iff (h : Splits before text spans []) :
    '\n' ∈ text ↔ ∃ s ∈ spans, s.isBreak = true := by
  generalize hrest : ([] : List Char) = rest at h
  induction h with
  | @stuck before gap rest hgap _ =>
      rw [← hrest, List.append_nil]
      exact iff_of_false (inline_of_blank hgap) (by simp)
  | @lexeme before gap lexeme after spans rest hgap hlongest _ ih =>
      have hlexeme :
          '\n' ∈ lexeme ↔
          Span.isBreak ⟨before ++ gap, lexeme, after⟩ = true := by
        rw [Span.isBreak_iff hlongest.isLexeme]
        constructor
        · intro hmem
          by_contra hother
          exact hlongest.isLexeme.inline hother hmem
        · rintro ⟨rest, rfl, -⟩
          exact List.mem_cons_self
      have hlater : '\n' ∈ after ↔ ∃ s ∈ spans, s.isBreak = true := ih hrest
      rw [List.mem_append, List.mem_append, hlater, hlexeme]
      simp [inline_of_blank hgap]

/-- What a text with these lexemes and line breaks around them says in
front of a bracket. -/
structure Padded (text : String) (lexemes padded : List Lexeme) : Prop where
  around : ∃ pre post, padded = pre ++ (lexemes ++ post) ∧
    (∀ x ∈ pre, x = .keyword lineBreak) ∧ (∀ x ∈ post, x = .keyword lineBreak) ∧
    ('\n' ∈ text.toList ↔ pre ≠ [] ∨ post ≠ [])
  writes : ∀ tail later, Writes (']' :: tail) later →
    Writes (text.toList ++ ']' :: tail) (padded ++ later)

/-- Without a line break in it a text says what it says alone. -/
theorem Padded.eq_lexemes {text : String} {padded : List Lexeme}
    (h : Padded text lexemes padded) (hinline : '\n' ∉ text.toList) :
    padded = lexemes := by
  obtain ⟨pre, post, rfl, -, -, hends⟩ := h.around
  obtain ⟨hpre, hpost⟩ := not_or.mp (hends.not.mp hinline)
  rw [not_not.mp hpre, not_not.mp hpost, List.nil_append, List.append_nil]

theorem Padded.not_mem {text : String} {padded : List Lexeme}
    (h : Padded text lexemes padded) (hx : x ≠ .keyword lineBreak)
    (hmem : x ∉ lexemes) : x ∉ padded := by
  obtain ⟨pre, post, rfl, hpre, hpost, -⟩ := h.around
  simp only [List.mem_append, not_or]
  exact ⟨fun h => hx (hpre x h), hmem, fun h => hx (hpost x h)⟩

/-- What line breaks tell. -/
def breaks (spans : List Span) : List Lexeme :=
  spans.map fun _ => .keyword lineBreak

theorem eq_of_mem_breaks (h : x ∈ breaks spans) : x = .keyword lineBreak := by
  obtain ⟨-, -, rfl⟩ := List.mem_map.mp h
  rfl

theorem breaks_eq_nil : breaks spans = [] ↔ spans = [] := List.map_eq_nil_iff

theorem tells_break (hlexeme : IsLexeme s.text) (h : s.isBreak = true) :
    Tells s.text (.keyword lineBreak) :=
  fun _ _ htext _ => .lineBreak (htext ▸ (Span.isBreak_iff hlexeme).mp h)

theorem tells_breaks (h : ∀ s ∈ spans, IsLexeme s.text ∧ s.isBreak = true) :
    List.Forall₂ Tells (spans.map Span.text) (breaks spans) := by
  rw [breaks, List.forall₂_map_left_iff, List.forall₂_map_right_iff,
    List.forall₂_same]
  exact fun s hs => tells_break (h s hs).1 (h s hs).2

theorem Denotes.inline (h : Denotes earlier spans tokens)
    (hspells : Spells tokens lexemes) (hinline : .keyword lineBreak ∉ lexemes)
    (hs : s ∈ spans) : s.isBreak = false := by
  have hmem : s.isBreak ∈ spans.map Span.isBreak := List.mem_map_of_mem hs
  rw [← h.map_isLineBreak] at hmem
  obtain ⟨t, ht, hbreak⟩ := List.mem_map.mp hmem
  exact hbreak.symm.trans (hspells.isKeyword_eq_false hinline t ht)

/-- In front of a bracket a text says what it says alone, and where it starts or
ends with line breaks, also these. -/
theorem exists_padded {text : String} {reading : Reading}
    (hread : Reading.ofText text = .ok reading)
    (hspells : Spells reading.tokens lexemes)
    (hlabels : ∀ l, .label l ∉ lexemes)
    (hinline : .keyword lineBreak ∉ lexemes) :
    ∃ padded, Padded text lexemes padded := by
  obtain ⟨spans, hsplits, hdenotes⟩ := exists_splits_of_ofText hread
  obtain ⟨front, back, hspans, hback, hfront⟩ := split_trimmed spans
  have hstart : front ⊆ spans := by rw [hspans]; simp
  have hend : back ⊆ spans := by rw [hspans]; simp
  refine ⟨breaks front ++ (lexemes ++ breaks back),
    ⟨_, _, rfl, fun x => eq_of_mem_breaks, fun x => eq_of_mem_breaks, ?_⟩, ?_⟩
  · rw [hsplits.break_mem_iff, Ne, Ne, breaks_eq_nil, breaks_eq_nil]
    constructor
    · rintro ⟨s, hs, hbreak⟩
      rw [hspans, List.mem_append, List.mem_append] at hs
      rcases hs with (hs | hs) | hs
      · exact .inl (List.ne_nil_of_mem hs)
      · cases (hdenotes.inline hspells hinline hs).symm.trans hbreak
      · exact .inr (List.ne_nil_of_mem hs)
    · rintro (hne | hne)
      · obtain ⟨s, hs⟩ := List.exists_mem_of_ne_nil _ hne
        exact ⟨s, hstart hs, hfront s hs⟩
      · obtain ⟨s, hs⟩ := List.exists_mem_of_ne_nil _ hne
        exact ⟨s, hend hs, hback s hs⟩
  · rintro tail later ⟨vs, hvs, hlater⟩
    have htells : ∀ part ⊆ spans, (∀ s ∈ part, s.isBreak = true) →
        List.Forall₂ Tells (part.map Span.text) (breaks part) :=
        fun part hpart hbreak =>
      tells_breaks fun s hs =>
        ⟨(hsplits.of_mem (hpart hs)).1.isLexeme, hbreak s hs⟩
    refine ⟨_, hsplits.cuts_bracket hvs, List.rel_append ?_ hlater⟩
    rw [hspans, List.append_assoc, List.map_append, List.map_append]
    exact List.rel_append (htells front hstart hfront)
      (List.rel_append (hdenotes.tells hspells hlabels)
        (htells back hend hback))

end Lexical

end Reckon
