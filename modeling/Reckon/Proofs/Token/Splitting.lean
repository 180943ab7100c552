import Mathlib.Data.List.Chain
import Mathlib.Data.List.DropRight
import Reckon.Proofs.Results
import Reckon.Proofs.Token.Lexical

/-!
# A text in lexemes

A text is split from its front: blanks are left out, and the longest lexeme
behind them is taken together with all that stands before and behind it. This
goes on up to where neither a blank nor a lexeme starts (`Splits`). Every text
can be split in one way only (`exists_splits`, `Splits.unique`).

Scanning is this splitting with the places counted (`Splits.scan`). The two
differ in one thing: a line break and the blanks and line breaks behind it are
one lexeme, but as many pieces as there are line breaks.
-/

namespace Reckon

namespace Lexical

/-- A lexeme with all the text before and behind it. -/
structure Span where
  before : List Char
  text : List Char
  after : List Char
deriving DecidableEq

/-- The line that follows a text. -/
def lineAt (before : List Char) : Nat := 1 + before.count '\n'

/-- The column that follows a text. -/
def columnAt (before : List Char) : Nat :=
  1 + (before.rtakeWhile (· ≠ '\n')).length

namespace Span

/-- The line of the first character. -/
def line (s : Span) : Nat := lineAt s.before

def isBreak (s : Span) : Bool := s.text.head? == some '\n'

def spelling (s : Span) : String := String.ofList s.text

/-- The first piece of a lexeme, and the only one unless it is a line break. -/
def piece (s : Span) : Piece := ⟨if s.isBreak then ['\n'] else s.text, s.line⟩

end Span

/-- The text behind `before` is split into lexemes up to `rest`,
where it is stuck. -/
inductive Splits : List Char → List Char → List Span → List Char → Prop where
  | stuck {before gap rest : List Char} : (∀ c ∈ gap, Blank c) → Stuck rest →
      Splits before (gap ++ rest) [] rest
  | lexeme {before gap lexeme after : List Char} {spans : List Span}
      {rest : List Char} : (∀ c ∈ gap, Blank c) → Longest lexeme after →
      Splits (before ++ gap ++ lexeme) after spans rest →
      Splits before (gap ++ (lexeme ++ after))
        (⟨before ++ gap, lexeme, after⟩ :: spans) rest

variable {before text rest gap lexeme after : List Char} {spans : List Span}
  {c : Char}

/-! ## There is one way to split a text -/

theorem takeWhile_blank (hgap : ∀ c ∈ gap, Blank c)
    (hrest : ∀ c ∈ rest.head?, ¬Blank c) :
    (gap ++ rest).takeWhile (Blank ·) = gap := by
  have hpos : ∀ c ∈ gap, decide (Blank c) = true :=
    fun c hc => decide_eq_true (hgap c hc)
  rw [List.takeWhile_append_of_pos hpos]
  cases rest with
  | nil => simp
  | cons c rest => simp [hrest c rfl]

/-- Where the blanks at the front of a text end is seen from the text. -/
theorem blanks_unique {gap' rest' : List Char} (hgap : ∀ c ∈ gap, Blank c)
    (hrest : ∀ c ∈ rest.head?, ¬Blank c) (hgap' : ∀ c ∈ gap', Blank c)
    (hrest' : ∀ c ∈ rest'.head?, ¬Blank c) (h : gap ++ rest = gap' ++ rest') :
    gap = gap' ∧ rest = rest' := by
  have hfront : gap = gap' := by
    rw [← takeWhile_blank hgap hrest, h, takeWhile_blank hgap' hrest']
  subst hfront
  exact ⟨rfl, List.append_cancel_left h⟩

theorem Longest.not_blank (h : Longest lexeme after) :
    ∀ c ∈ (lexeme ++ after).head?, ¬Blank c := by
  rw [List.head?_append_of_ne_nil _ h.isLexeme.ne_nil]
  exact h.isLexeme.not_blank

/-- Where a text is stuck, no lexeme starts. -/
theorem Stuck.not_longest (h : Stuck (lexeme ++ after)) :
    ¬Longest lexeme after :=
  fun hlongest => h.not_lexeme lexeme ⟨after, rfl⟩ hlongest.isLexeme

theorem Splits.unique (h : Splits before text spans rest) :
    ∀ {spans' : List Span}
    {rest' : List Char}, Splits before text spans' rest' → spans = spans' ∧
    rest = rest' := by
  induction h with
  | @stuck before gap rest hgap hstuck =>
      intro spans' rest' h'
      generalize htext : gap ++ rest = text at h'
      cases h' with
      | stuck hgap' hstuck' =>
          obtain ⟨rfl, rfl⟩ :=
            blanks_unique hgap hstuck.not_blank hgap' hstuck'.not_blank htext
          exact ⟨rfl, rfl⟩
      | lexeme hgap' hlongest' =>
          obtain ⟨rfl, rfl⟩ :=
            blanks_unique hgap hstuck.not_blank hgap' hlongest'.not_blank htext
          exact absurd hlongest' hstuck.not_longest
  | @lexeme before gap lexeme after spans rest hgap hlongest _ ih =>
      intro spans' rest' h'
      generalize htext : gap ++ (lexeme ++ after) = text at h'
      cases h' with
      | stuck hgap' hstuck' =>
          obtain ⟨rfl, rfl⟩ :=
            blanks_unique hgap hlongest.not_blank hgap' hstuck'.not_blank htext
          exact absurd hlongest hstuck'.not_longest
      | lexeme hgap' hlongest' hlater' =>
          obtain ⟨rfl, hsame⟩ :=
            blanks_unique hgap hlongest.not_blank hgap'
              hlongest'.not_blank htext
          obtain ⟨rfl, rfl⟩ := hlongest.unique hlongest' hsame
          obtain ⟨rfl, rfl⟩ := ih hlater'
          exact ⟨rfl, rfl⟩

/-- A lexeme is at the front of every text that starts with no blank
and is not stuck. -/
theorem exists_longest (rest : List Char) (hblank : ¬Blank c) :
    Stuck (c :: rest) ∨
    ∃ lexeme after, c :: rest = lexeme ++ after ∧ Longest lexeme after := by
  by_cases hline : c = '\n'
  · subst hline
    refine .inr ⟨_, _, ?_, longest_break rest⟩
    rw [List.cons_append, List.takeWhile_append_dropWhile]
  · rcases Nat.eq_zero_or_pos (Piece.lexemeLength (c :: rest)) with hzero | hpos
    · exact .inl (stuck_of_lexemeLength hblank hline hzero)
    · exact .inr ⟨_, _, (List.take_append_drop _ _).symm,
        longest_lexemeLength hpos fun hhead => hline (Option.some.inj hhead)⟩

/-- Every text can be split. -/
theorem exists_splits (before text : List Char) :
    ∃ spans rest, Splits before text spans rest := by
  induction hlength : text.length using Nat.strong_induction_on
    generalizing before text with
  | _ length ih =>
      -- The blanks in front, the longest lexeme behind them, and what is left
      -- by induction.
      have hgap : ∀ c ∈ text.takeWhile (Blank ·), Blank c := by
        intro c hc
        simpa using List.mem_takeWhile_imp hc
      have hsplit :=
        List.takeWhile_append_dropWhile (p := (Blank ·)) (l := text)
      cases hrest : text.dropWhile (Blank ·) with
      | nil =>
          rw [hrest] at hsplit
          rw [← hsplit]
          refine ⟨[], [], .stuck hgap ⟨nofun, ?_⟩⟩
          intro lexeme hstart hlexeme
          exact hlexeme.ne_nil (List.prefix_nil.mp hstart)
      | cons c rest =>
          have hblank : ¬Blank c := by
            have := List.head?_dropWhile_not (Blank ·) text
            simpa [hrest] using this
          rw [hrest] at hsplit
          rcases exists_longest rest hblank with
            hstuck | ⟨lexeme, after, htext, hlongest⟩
          · rw [← hsplit]
            exact ⟨[], _, .stuck hgap hstuck⟩
          · rw [htext] at hsplit
            have hshorter : after.length < length := by
              have := List.length_pos_iff.mpr hlongest.isLexeme.ne_nil
              rw [← hlength, ← hsplit]
              simp only [List.length_append]
              omega
            obtain ⟨spans, rest, hlater⟩ := ih _ hshorter
              (before ++ text.takeWhile (Blank ·) ++ lexeme) after rfl
            rw [← hsplit]
            exact ⟨_, rest, .lexeme hgap hlongest hlater⟩

/-! ## The lexemes of a split text -/

theorem Splits.stuck_rest (h : Splits before text spans rest) : Stuck rest := by
  induction h with
  | stuck _ hstuck => exact hstuck
  | lexeme _ _ _ ih => exact ih

/-- From any lexeme on, the text is split as it is from the front. -/
theorem Splits.of_suffix {s : Span} {later : List Span}
    (h : Splits before text spans rest) (hs : s :: later <:+ spans) :
    Longest s.text s.after ∧ before ++ text = s.before ++ s.text ++ s.after ∧
      Splits (s.before ++ s.text) s.after later rest := by
  induction h with
  | stuck => cases List.suffix_nil.mp hs
  | @lexeme before gap lexeme after spans rest hgap hlongest hlater ih =>
      rcases List.suffix_cons_iff.mp hs with heq | hsuffix
      · obtain ⟨rfl, rfl⟩ := List.cons.inj heq
        exact ⟨hlongest, by simp only [List.append_assoc], hlater⟩
      · obtain ⟨hs, htext, hbehind⟩ := ih hsuffix
        refine ⟨hs, ?_, hbehind⟩
        rw [← htext]
        simp only [List.append_assoc]

theorem Splits.of_mem {s : Span} (h : Splits before text spans rest)
    (hs : s ∈ spans) :
    Longest s.text s.after ∧ before ++ text = s.before ++ s.text ++
      s.after := by
  obtain ⟨front, later, rfl⟩ := List.append_of_mem hs
  obtain ⟨hlongest, htext, -⟩ := h.of_suffix (List.suffix_append ..)
  exact ⟨hlongest, htext⟩

/-- Only blanks stand between a lexeme and the next one. -/
theorem Splits.blanks_between {s r : Span} {later : List Span}
    (h : Splits before text spans rest) (hs : s :: r :: later <:+ spans) :
    ∃ gap, (∀ c ∈ gap, Blank c) ∧ s.after = gap ++ (r.text ++ r.after) ∧
      r.before = s.before ++ s.text ++ gap := by
  obtain ⟨-, -, hbehind⟩ := h.of_suffix hs
  generalize s.after = after at hbehind ⊢
  cases hbehind with
  | @lexeme _ gap lexeme after _ _ hgap _ _ => exact ⟨gap, hgap, rfl, rfl⟩

/-- All blanks and line breaks behind a line break belong to it. -/
theorem Longest.after_break (h : Longest lexeme after)
    (hbreak : IsBreak lexeme) : ∀ c ∈ after.head?, ¬Space c := by
  intro c hc hspace
  obtain ⟨behind, rfl⟩ := List.head?_eq_some_iff.mp hc
  obtain ⟨front, rfl, hfront⟩ := hbreak
  have hlonger : IsBreak ('\n' :: (front ++ [c])) := by
    refine ⟨_, rfl, fun d hd => ?_⟩
    rcases List.mem_append.mp hd with hd | hd
    · exact hfront d hd
    · exact List.mem_singleton.mp hd ▸ hspace
  have hlength := h.longest _ ⟨behind, by simp⟩ (.lineBreak hlonger)
  simp only [List.length_cons, List.length_append, List.length_nil] at hlength
  omega

theorem Span.isBreak_iff {s : Span} (h : IsLexeme s.text) :
    s.isBreak = true ↔ IsBreak s.text := by
  rw [h.isBreak_iff, Span.isBreak, beq_iff_eq]

theorem Span.isBreak_eq_false {s : Span} {kind : Kind}
    (h : kindOf s.text = some kind) (hkind : kind ≠ .lineBreak) :
    s.isBreak = false := by
  rw [Bool.eq_false_iff, isBreak, Ne, beq_iff_eq]
  intro hhead
  rw [kindOf, hhead] at h
  exact hkind (Option.some.inj h).symm

/-- No two line breaks stand side by side. -/
theorem Splits.isChain (h : Splits before text spans rest) :
    spans.IsChain fun s r => s.isBreak = true → r.isBreak = false := by
  rw [List.isChain_iff_forall_rel_of_append_cons_cons]
  rintro s r front later rfl hbreak
  have hs : s :: r :: later <:+ front ++ s :: r :: later :=
    List.suffix_append ..
  obtain ⟨gap, hgap, hafter, -⟩ := h.blanks_between hs
  obtain ⟨hlongest, -, -⟩ := h.of_suffix hs
  obtain ⟨hnext, -, -⟩ := h.of_suffix ((List.suffix_cons s _).trans hs)
  have hspace :=
    hlongest.after_break ((Span.isBreak_iff hlongest.isLexeme).mp hbreak)
  rw [hafter] at hspace
  rw [Bool.eq_false_iff]
  intro hother
  cases gap with
  | nil =>
      obtain ⟨behind, htext, -⟩ := (Span.isBreak_iff hnext.isLexeme).mp hother
      rw [htext] at hspace
      exact hspace '\n' rfl (.inr rfl)
  | cons c gap => exact hspace c rfl (.inl (hgap c List.mem_cons_self))

end Lexical

end Reckon
