import Reckon.Proofs.Token.Splitting

/-!
# Scanning is splitting

The scanner carries the line and the column of the place it has come to. Both
can be told from the text before that place, so that scanning can be spoken of
without them (`scanBehind`), and then it takes the same lexemes as splitting
does (`Splits.scanBehind`). Line breaks come out one by one; all of them but the
first of a run, and the whole runs at the two ends, are dropped afterwards
(`joinBreaks_eq`).
-/

namespace Reckon

namespace Lexical

variable {before text rest gap lexeme after : List Char} {spans : List Span}
  {c : Char}

/-! ## Places -/

theorem lineAt_append (hinline : '\n' ∉ text) :
    lineAt (before ++ text) = lineAt before := by
  rw [lineAt, List.count_append, List.count_eq_zero.mpr hinline]
  rfl

theorem lineAt_break : lineAt (before ++ ['\n']) = lineAt before + 1 := by
  rw [lineAt, List.count_append, List.count_singleton_self]
  exact (Nat.add_assoc ..).symm

theorem columnAt_append (hinline : '\n' ∉ text) :
    columnAt (before ++ text) = columnAt before + text.length := by
  have hall : ∀ c ∈ text.reverse, decide (c ≠ '\n') = true := by
    intro c hc
    exact decide_eq_true fun hline => hinline (hline ▸ List.mem_reverse.mp hc)
  rw [columnAt, columnAt, List.rtakeWhile, List.rtakeWhile, List.reverse_append,
    List.takeWhile_append_of_pos hall]
  simp only [List.length_reverse, List.length_append]
  omega

theorem columnAt_break : columnAt (before ++ ['\n']) = 1 := by
  rw [columnAt, List.rtakeWhile_concat_neg _ _ _ (by simp)]
  rfl

/-! ## The scanner -/

/-- Scanning a text behind another one. -/
def scanBehind (before text : List Char) : Except ScanError (List Piece) :=
  Piece.scan (lineAt before) (columnAt before) text

theorem isBlank_iff : Piece.isBlank c = true ↔ Blank c := by
  simp [Piece.isBlank, Blank, or_assoc]

theorem scanBehind_blank (hc : Blank c) :
    scanBehind before (c :: text) = scanBehind (before ++ [c]) text := by
  have hinline : '\n' ∉ [c] := by
    rintro hline
    cases List.mem_singleton.mp hline
    exact absurd hc (by decide)
  rw [scanBehind, Piece.scan, if_pos (isBlank_iff.mpr hc), scanBehind,
    lineAt_append hinline, columnAt_append hinline]
  rfl

theorem scanBehind_gap (hgap : ∀ c ∈ gap, Blank c) :
    scanBehind before (gap ++ text) = scanBehind (before ++ gap) text := by
  induction gap generalizing before with
  | nil => rw [List.nil_append, List.append_nil]
  | cons c gap ih =>
      rw [List.cons_append, scanBehind_blank (hgap c List.mem_cons_self),
        ih fun d hd => hgap d (List.mem_cons_of_mem c hd), List.append_assoc]
      rfl

theorem scanBehind_break :
    scanBehind before ('\n' :: text) =
      (⟨['\n'], lineAt before⟩ :: ·) <$> scanBehind
        (before ++ ['\n']) text := by
  rw [scanBehind, Piece.scan, if_neg (by decide), if_pos rfl, scanBehind,
    lineAt_break, columnAt_break, map_eq_pure_bind]

/-- Line breaks that stand together are scanned one by one. -/
theorem scanBehind_spaces (before text : List Char)
    (hgap : ∀ c ∈ gap, Space c) :
    ∃ more, (∀ piece ∈ more, piece.isLineBreak = true) ∧
      scanBehind before (gap ++ text) =
        (more ++ ·) <$> scanBehind (before ++ gap) text := by
  induction gap generalizing before with
  | nil => exact ⟨[], nofun, by simp⟩
  | cons c gap ih =>
      obtain ⟨more, hmore, hscan⟩ := ih (before ++ [c])
        fun d hd => hgap d (List.mem_cons_of_mem c hd)
      rw [List.append_assoc] at hscan
      rcases hgap c List.mem_cons_self with hblank | rfl
      · refine ⟨more, hmore, ?_⟩
        rw [List.cons_append, scanBehind_blank hblank]
        exact hscan
      · refine ⟨⟨['\n'], lineAt before⟩ :: more, ?_, ?_⟩
        · exact List.forall_mem_cons.mpr ⟨rfl, hmore⟩
        · rw [List.cons_append, scanBehind_break, hscan, Functor.map_map]
          rfl

theorem scanBehind_lexeme (h : Longest lexeme after)
    (hinline : ¬IsBreak lexeme) : scanBehind before (lexeme ++ after) =
      (⟨lexeme, lineAt before⟩ :: ·) <$> scanBehind
        (before ++ lexeme) after := by
  have hblank := h.not_blank
  have hlength := lexemeLength_eq h hinline
  have hbreak : (lexeme ++ after).head? ≠ some '\n' := by
    rw [List.head?_append_of_ne_nil _ h.isLexeme.ne_nil]
    exact fun hhead => hinline (h.isLexeme.isBreak_iff.mpr hhead)
  have hmem := h.isLexeme.inline hinline
  have hpos := List.length_pos_iff.mpr h.isLexeme.ne_nil
  rw [scanBehind, scanBehind, lineAt_append hmem, columnAt_append hmem]
  -- The scanner looks at the whole text; that it starts with the lexeme
  -- is used at the end.
  generalize htext : lexeme ++ after = text at hblank hlength hbreak
  cases text with
  | nil => exact absurd (List.append_eq_nil_iff.mp htext).1 h.isLexeme.ne_nil
  | cons c rest =>
      rw [Piece.scan, if_neg fun hc => hblank c rfl (isBlank_iff.mp hc),
        if_neg fun hc => hbreak (congrArg some hc)]
      simp only [hlength]
      rw [if_neg (Nat.pos_iff_ne_zero.mp hpos), ← htext, List.take_left,
        List.drop_left, map_eq_pure_bind]

theorem scanBehind_stuck (h : Stuck (c :: rest)) :
    scanBehind before (c :: rest) = .error ⟨c, lineAt before,
      columnAt before⟩ := by
  have hline : c ≠ '\n' := by
    rintro rfl
    exact h.not_lexeme ['\n'] ⟨rest, rfl⟩ (.lineBreak ⟨[], rfl, nofun⟩)
  have hzero : Piece.lexemeLength (c :: rest) = 0 := by
    by_contra hlength
    obtain ⟨lexeme, after, htext, -, hlexeme⟩ :=
      exists_lexeme (Nat.pos_of_ne_zero hlength)
    exact h.not_lexeme lexeme ⟨after, htext.symm⟩ hlexeme
  rw [scanBehind, Piece.scan,
    if_neg fun hc => h.not_blank c rfl (isBlank_iff.mp hc), if_neg hline]
  simp only [hzero, if_pos]

/-! ## The pieces of the lexemes -/

/-- The pieces that come of lexemes: one each, but more may come of a line
break. -/
inductive Pieces : List Span → List Piece → Prop where
  | nil : Pieces [] []
  | cons {s : Span} {spans : List Span} {more pieces : List Piece} :
      (s.isBreak = false → more = []) →
      (∀ piece ∈ more, piece.isLineBreak = true) →
      Pieces spans pieces → Pieces (s :: spans) (s.piece :: (more ++ pieces))

theorem scanBehind_span {s : Span} (h : Longest s.text s.after) :
    ∃ more, (s.isBreak = false → more = []) ∧
      (∀ piece ∈ more, piece.isLineBreak = true) ∧
      scanBehind s.before (s.text ++ s.after) =
        (s.piece :: more ++ ·) <$> scanBehind (s.before ++ s.text) s.after := by
  have hbreak := Span.isBreak_iff h.isLexeme
  cases hs : s.isBreak with
  | true =>
      obtain ⟨spaces, htext, hspaces⟩ := hbreak.mp hs
      obtain ⟨more, hmore, hscan⟩ :=
        scanBehind_spaces (s.before ++ ['\n']) s.after hspaces
      refine ⟨more, nofun, hmore, ?_⟩
      rw [List.append_assoc, List.singleton_append] at hscan
      rw [htext, List.cons_append, scanBehind_break, hscan, Functor.map_map,
        Span.piece, if_pos hs]
      rfl
  | false =>
      have hinline : ¬IsBreak s.text := fun hline => by
        rw [hbreak.mpr hline] at hs
        cases hs
      refine ⟨[], fun _ => rfl, nofun, ?_⟩
      rw [scanBehind_lexeme h hinline, Span.piece, hs]
      rfl

/-- Scanning takes the lexemes one by one, and what it says of the text that is
left it says of that text alone. -/
theorem Splits.scanBehind (h : Splits before text spans rest) :
    ∃ read pieces, text = read ++ rest ∧ Pieces spans pieces ∧
      scanBehind before text =
        (pieces ++ ·) <$> scanBehind (before ++ read) rest := by
  induction h with
  | @stuck before gap rest hgap _ =>
      exact ⟨gap, [], rfl, .nil, by simp [scanBehind_gap hgap]⟩
  | @lexeme before gap lexeme after spans rest hgap hlongest _ ih =>
      obtain ⟨read, pieces, rfl, hpieces, hscan⟩ := ih
      obtain ⟨more, hinline, hmore, hspan⟩ := scanBehind_span
        (s := ⟨before ++ gap, lexeme, read ++ rest⟩) hlongest
      refine ⟨gap ++ (lexeme ++ read), _, ?_, .cons hinline hmore hpieces, ?_⟩
      · simp only [List.append_assoc]
      · rw [scanBehind_gap hgap, hspan, hscan, Functor.map_map]
        simp only [List.append_assoc, List.cons_append]

/-! ## Joining line breaks -/

/-- The lexemes without the line breaks at the two ends. -/
def trimmed (spans : List Span) : List Span :=
  (spans.dropWhile Span.isBreak).rdropWhile Span.isBreak

theorem Span.piece_isLineBreak (s : Span) :
    s.piece.isLineBreak = s.isBreak := by
  rw [piece, Piece.isLineBreak]
  cases hs : s.isBreak with
  | true => rfl
  | false =>
      rw [if_neg nofun, beq_eq_false_iff_ne]
      intro (htext : s.text = ['\n'])
      rw [isBreak, htext] at hs
      cases hs

theorem rdropWhile_cons {α : Type} (p : α → Bool) (a : α) (l : List α) :
    (a :: l).rdropWhile p =
      if p a && l.all p then [] else a :: l.rdropWhile p := by
  have hall : (l.reverse.dropWhile p).isEmpty = l.all p := by
    rw [Bool.eq_iff_iff, List.isEmpty_iff, List.dropWhile_eq_nil_iff,
      List.all_eq_true]
    simp only [List.mem_reverse]
  rw [List.rdropWhile, List.reverse_cons, List.dropWhile_append, hall,
    List.rdropWhile]
  cases hl : l.all p with
  | true =>
      rw [hl, List.isEmpty_iff] at hall
      cases ha : p a <;> simp [ha, hall]
  | false => simp

/-- Where the first lexeme is no line break, only the end can lose one. -/
theorem trimmed_eq (h : ∀ s ∈ spans.head?, s.isBreak = false) :
    trimmed spans = spans.rdropWhile Span.isBreak := by
  cases spans with
  | nil => rfl
  | cons s spans => rw [trimmed, List.dropWhile_cons, h s rfl, if_neg nofun]

theorem trimmed_eq_nil (h : spans.all Span.isBreak = true) :
    trimmed spans = [] := by
  rw [trimmed, List.dropWhile_eq_nil_iff.mpr (List.all_eq_true.mp h)]
  rfl

theorem joinBreaks_append {more pieces : List Piece}
    (hmore : ∀ piece ∈ more, piece.isLineBreak = true) :
    Piece.joinBreaks true (more ++ pieces) = Piece.joinBreaks true pieces := by
  induction more with
  | nil => rfl
  | cons piece more ih =>
      obtain ⟨hpiece, hrest⟩ := List.forall_mem_cons.mp hmore
      rw [List.cons_append, Piece.joinBreaks, if_pos hpiece, Bool.true_or,
        if_pos rfl]
      exact ih hrest

theorem Pieces.all_isLineBreak {pieces : List Piece} (h : Pieces spans pieces) :
    pieces.all Piece.isLineBreak = spans.all Span.isBreak := by
  induction h with
  | nil => rfl
  | @cons s spans more pieces _ hmore _ ih =>
      rw [List.all_cons, List.all_append, List.all_eq_true.mpr hmore,
        Bool.true_and, ih, s.piece_isLineBreak, List.all_cons]

/-- Joining the line breaks leaves one piece for each lexeme between the two
ends. -/
theorem Pieces.joinBreaks {pieces : List Piece} (h : Pieces spans pieces)
    (hchain : spans.IsChain fun s r => s.isBreak = true → r.isBreak = false) :
    Piece.joinBreaks false pieces =
        (spans.rdropWhile Span.isBreak).map Span.piece ∧
    Piece.joinBreaks true pieces = (trimmed spans).map Span.piece := by
  -- Both at once, since the flag is set behind a line break and
  -- cleared behind the rest.
  induction h with
  | nil => exact ⟨rfl, rfl⟩
  | @cons s spans more pieces hinline hmore hpieces ih =>
      obtain ⟨hopen, hclosed⟩ := ih hchain.tail
      have hbreak := s.piece_isLineBreak
      cases hkind : s.isBreak with
      | false =>
          rw [hkind] at hbreak
          rw [hinline hkind, List.nil_append, Piece.joinBreaks,
            Piece.joinBreaks, hbreak, if_neg nofun, if_neg nofun, hopen,
            trimmed_eq (by simpa using hkind), rdropWhile_cons, hkind,
            Bool.false_and, if_neg nofun]
          exact ⟨rfl, rfl⟩
      | true =>
          have hnext : trimmed spans = spans.rdropWhile Span.isBreak :=
            trimmed_eq fun r hr => hchain.rel_head? hr hkind
          have hfirst : trimmed (s :: spans) = trimmed spans := by
            rw [trimmed, List.dropWhile_cons, if_pos hkind]
            rfl
          have hall :
              (more ++ pieces).all Piece.isLineBreak =
                spans.all Span.isBreak := by
            rw [List.all_append, List.all_eq_true.mpr hmore, Bool.true_and,
              hpieces.all_isLineBreak]
          rw [hkind] at hbreak
          rw [Piece.joinBreaks, Piece.joinBreaks, hbreak, if_pos rfl,
            if_pos rfl, joinBreaks_append hmore, hall, hclosed, hfirst,
            rdropWhile_cons, hkind, Bool.false_or, Bool.true_and, Bool.true_or,
            if_pos rfl]
          refine ⟨?_, rfl⟩
          cases hends : spans.all Span.isBreak with
          | true => rw [trimmed_eq_nil hends]; rfl
          | false => rw [hnext]; rfl

end Lexical

end Reckon
