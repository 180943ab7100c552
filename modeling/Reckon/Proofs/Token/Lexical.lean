import Mathlib.Data.List.TakeWhile
import Reckon.Token.Scan

/-!
# Lexemes

What a lexeme is, said without a scanner: a numeral is digits that may have a
point and more digits behind them, or a point with digits behind it; a word is
letters and digits that start with a letter; the signs are listed; and a line
break is taken together with all blanks and line breaks behind it.

At any place of a text at most one lexeme is the longest (`Longest.unique`).
Unless it is a line break, `lexemeLength` finds its length (`lexemeLength_eq`),
and where that finds nothing, no lexeme starts (`stuck_of_lexemeLength`). What a
lexeme is can be seen from its first character, since no two of the classes
share one (`kindOf`).
-/

namespace Reckon

namespace Lexical

/-! ## The classes -/

/-- Blanks separate lexemes and are otherwise ignored. -/
def Blank (c : Char) : Prop := c = ' ' ∨ c = '\t' ∨ c = '\r'

instance : DecidablePred Blank := fun c =>
  inferInstanceAs (Decidable (c = ' ' ∨ c = '\t' ∨ c = '\r'))

/-- Blanks and line breaks. -/
def Space (c : Char) : Prop := Blank c ∨ c = '\n'

instance : DecidablePred Space :=
  fun c => inferInstanceAs (Decidable (Blank c ∨ c = '\n'))

/-- The operators and punctuation marks. -/
def signs : List String :=
  ["<", ">", "=", "!", "<=", ">=", "==", "!=", "+", "-", "*", "/", "(",
    ")", "[", "]", ",", ";", ":"]

/-- Digits that may have a point and more digits behind them, or a point with
digits behind it. -/
inductive IsNumeral : List Char → Prop where
  | whole {ds : List Char} :
      ds ≠ [] → (∀ c ∈ ds, c.isDigit = true) → IsNumeral ds
  | pointed {ds fs : List Char} : ds ≠ [] ∨ fs ≠ [] →
      (∀ c ∈ ds, c.isDigit = true) →
      (∀ c ∈ fs, c.isDigit = true) → IsNumeral (ds ++ '.' :: fs)

/-- Letters and digits that start with a letter. -/
def IsWord (text : List Char) : Prop :=
  ∃ c rest, text = c :: rest ∧ c.isAlpha = true ∧ ∀ d ∈ rest,
    d.isAlphanum = true

def IsSign (text : List Char) : Prop := ∃ sign ∈ signs, text = sign.toList

/-- A line break with blanks and line breaks behind it. -/
def IsBreak (text : List Char) : Prop :=
  ∃ rest, text = '\n' :: rest ∧ ∀ c ∈ rest, Space c

inductive IsLexeme (text : List Char) : Prop where
  | numeral : IsNumeral text → IsLexeme text
  | word : IsWord text → IsLexeme text
  | sign : IsSign text → IsLexeme text
  | lineBreak : IsBreak text → IsLexeme text

/-- No lexeme at the front of a text is longer. -/
structure Longest (lexeme after : List Char) : Prop where
  isLexeme : IsLexeme lexeme
  longest : ∀ other, other <+: lexeme ++ after → IsLexeme other →
    other.length ≤ lexeme.length

/-- Neither a blank nor a lexeme is at the front of the text. -/
structure Stuck (text : List Char) : Prop where
  not_blank : ∀ c ∈ text.head?, ¬Blank c
  not_lexeme : ∀ lexeme, lexeme <+: text → ¬IsLexeme lexeme

variable {text lexeme after : List Char} {c : Char}

/-! ## First characters -/

theorem IsNumeral.head (h : IsNumeral text) :
    ∃ c rest, text = c :: rest ∧ (c.isDigit = true ∨ c = '.') := by
  cases h with
  | whole hne hds =>
      obtain ⟨c, rest, rfl⟩ := List.exists_cons_of_ne_nil hne
      exact ⟨c, rest, rfl, .inl (hds c List.mem_cons_self)⟩
  | @pointed ds fs _ hds hfs =>
      cases ds with
      | nil => exact ⟨'.', fs, rfl, .inr rfl⟩
      | cons c ds => exact ⟨c, _, rfl, .inl (hds c List.mem_cons_self)⟩

/-- The characters that an equals sign may follow in a sign. -/
def relational : List Char := ['<', '>', '=', '!']

/-- The characters that signs begin with. -/
def signHeads : List Char :=
  relational ++ ['+', '-', '*', '/', '(', ')', '[', ']', ',', ';', ':']

theorem isSign_iff : IsSign text ↔
    (∃ c ∈ relational, text = [c, '=']) ∨ ∃ c ∈ signHeads, text = [c] := by
  constructor
  · rintro ⟨sign, hmem, rfl⟩
    have hall : signs.all (fun sign =>
        relational.any (sign.toList = [·, '=']) ||
          signHeads.any (sign.toList = [·])) = true := by decide
    simpa using List.all_eq_true.mp hall sign hmem
  · have hpairs :
        relational.all (fun c => signs.any ([c, '='] = ·.toList)) = true := by
      decide
    have hsingles :
        signHeads.all (fun c => signs.any ([c] = ·.toList)) = true := by decide
    rintro (⟨c, hc, rfl⟩ | ⟨c, hc, rfl⟩)
    · simpa [IsSign] using List.all_eq_true.mp hpairs c hc
    · simpa [IsSign] using List.all_eq_true.mp hsingles c hc

theorem IsSign.head (h : IsSign text) :
    ∃ c rest, text = c :: rest ∧ c ∈ signHeads := by
  obtain ⟨c, hc, rfl⟩ | ⟨c, hc, rfl⟩ := isSign_iff.mp h
  · exact ⟨c, ['='], rfl, List.mem_append_left _ hc⟩
  · exact ⟨c, [], rfl, hc⟩

theorem isDigit_of_isAlpha (h : c.isAlpha = true) : c.isDigit = false := by
  have hlow : 0x41 ≤ c.toNat := by
    rcases Bool.or_eq_true_iff.mp h with hupper | hlower
    · have hupper : 0x41 ≤ c.toNat ∧ c.toNat ≤ 0x5a := of_decide_eq_true hupper
      exact hupper.1
    · have hlower : 0x61 ≤ c.toNat :=
        of_decide_eq_true (Bool.and_eq_true_iff.mp hlower).1
      omega
  rw [Bool.eq_false_iff]
  intro hdigit
  have hhigh : c.toNat ≤ 0x39 :=
    of_decide_eq_true (Bool.and_eq_true_iff.mp hdigit).2
  omega

/-- What a lexeme can be. -/
inductive Kind where
  | numeral
  | word
  | sign
  | lineBreak
deriving DecidableEq

/-- The kind of the lexemes that begin with a character. -/
def kindAt (c : Char) : Option Kind :=
  if c.isDigit || c == '.' then some .numeral
  else if c.isAlpha then some .word
  else if c ∈ signHeads then some .sign
  else if c = '\n' then some .lineBreak
  else none

theorem kindAt_eq_numeral :
    kindAt c = some .numeral ↔ (c.isDigit || c == '.') = true := by
  rw [kindAt]
  split_ifs with h <;> simp [h]

theorem kindAt_eq_word : kindAt c = some .word ↔ c.isAlpha = true := by
  constructor
  · intro h
    by_contra halpha
    rw [kindAt, if_neg halpha] at h
    split_ifs at h <;> cases h
  · intro halpha
    have hpoint : c ≠ '.' := by
      rintro rfl
      cases halpha
    rw [kindAt, if_neg (by simp [isDigit_of_isAlpha halpha, hpoint]),
      if_pos halpha]

/-- What a text is, if it is a lexeme. -/
def kindOf (text : List Char) : Option Kind := text.head?.bind kindAt

theorem IsNumeral.kindOf (h : IsNumeral text) :
    kindOf text = some .numeral := by
  obtain ⟨c, rest, rfl, hc⟩ := h.head
  exact kindAt_eq_numeral.mpr (by simpa using hc)

theorem IsWord.kindOf (h : IsWord text) : kindOf text = some .word := by
  obtain ⟨c, rest, rfl, hc, -⟩ := h
  exact kindAt_eq_word.mpr hc

theorem IsSign.kindOf (h : IsSign text) : kindOf text = some .sign := by
  obtain ⟨c, rest, rfl, hc⟩ := h.head
  have hall : signHeads.all (fun c => kindAt c = some .sign) = true := by decide
  exact of_decide_eq_true (List.all_eq_true.mp hall c hc)

theorem IsBreak.kindOf (h : IsBreak text) : kindOf text = some .lineBreak := by
  obtain ⟨rest, rfl, -⟩ := h
  rfl

theorem IsLexeme.exists_kindOf (h : IsLexeme text) :
    ∃ kind, kindOf text = some kind := by
  cases h with
  | numeral h => exact ⟨_, h.kindOf⟩
  | word h => exact ⟨_, h.kindOf⟩
  | sign h => exact ⟨_, h.kindOf⟩
  | lineBreak h => exact ⟨_, h.kindOf⟩

theorem IsLexeme.ne_nil (h : IsLexeme text) : text ≠ [] := by
  rintro rfl
  obtain ⟨kind, hkind⟩ := h.exists_kindOf
  cases hkind

theorem kindOf_append {kind : Kind} (h : kindOf lexeme = some kind)
    (after : List Char) : kindOf (lexeme ++ after) = some kind := by
  cases lexeme with
  | nil => cases h
  | cons c rest => exact h

/-- No lexeme starts with a blank. -/
theorem IsLexeme.not_blank (h : IsLexeme text) :
    ∀ c ∈ text.head?, ¬Blank c := by
  intro c hc hblank
  obtain ⟨kind, hkind⟩ := h.exists_kindOf
  rw [kindOf, hc] at hkind
  rcases hblank with rfl | rfl | rfl <;> cases hkind

/-- What starts with a line break is a lexeme only as a line break. -/
theorem IsLexeme.isBreak_iff (h : IsLexeme text) :
    IsBreak text ↔ text.head? = some '\n' := by
  constructor
  · rintro ⟨rest, rfl, -⟩
    rfl
  · intro hhead
    have hkind : kindOf text = some .lineBreak := by
      rw [kindOf, hhead]
      rfl
    cases h with
    | numeral h => cases h.kindOf.symm.trans hkind
    | word h => cases h.kindOf.symm.trans hkind
    | sign h => cases h.kindOf.symm.trans hkind
    | lineBreak h => exact h

/-- Only line breaks have blanks or line breaks in them. -/
theorem IsLexeme.not_space (h : IsLexeme text) (hinline : ¬IsBreak text) :
    ∀ c ∈ text, ¬Space c := by
  have halphanum : ∀ c : Char, c.isAlphanum = true → ¬Space c := by
    rintro c hc ((rfl | rfl | rfl) | rfl) <;> cases hc
  have hdigit : ∀ c : Char, c.isDigit = true → ¬Space c := fun c hc =>
    halphanum c (by rw [Char.isAlphanum, hc, Bool.or_true])
  have hhead : ∀ c ∈ signHeads, ¬Space c := by
    have hall : signHeads.all (fun c => ¬Space c) = true := by decide
    exact fun c hc => of_decide_eq_true (List.all_eq_true.mp hall c hc)
  cases h with
  | numeral h =>
      cases h with
      | whole _ hds => exact fun c hc => hdigit c (hds c hc)
      | pointed _ hds hfs =>
          intro c hc
          rcases List.mem_append.mp hc with hc | hc
          · exact hdigit c (hds c hc)
          · rcases List.mem_cons.mp hc with rfl | hc
            · decide
            · exact hdigit c (hfs c hc)
  | word h =>
      obtain ⟨c, rest, rfl, hc, hrest⟩ := h
      have hfirst : c.isAlphanum = true := by
        rw [Char.isAlphanum, hc, Bool.true_or]
      exact List.forall_mem_cons.mpr
        ⟨halphanum c hfirst, fun d hd => halphanum d (hrest d hd)⟩
  | sign h =>
      obtain ⟨c, hc, rfl⟩ | ⟨c, hc, rfl⟩ := isSign_iff.mp h
      · refine List.forall_mem_cons.mpr
          ⟨hhead c (List.mem_append_left _ hc), ?_⟩
        exact List.forall_mem_singleton.mpr (by decide)
      · exact List.forall_mem_singleton.mpr (hhead c hc)
  | lineBreak h => exact absurd h hinline

theorem IsLexeme.inline (h : IsLexeme text) (hinline : ¬IsBreak text) :
    '\n' ∉ text :=
  fun hmem => h.not_space hinline '\n' hmem (.inr rfl)

theorem inline_of_blank (h : ∀ c ∈ text, Blank c) : '\n' ∉ text :=
  fun hmem => absurd (h '\n' hmem) (by decide)

/-! ## The length of the longest lexeme -/

open Piece (run numeralLength wordLength signLength lexemeLength)

section Run

variable {inClass : Char → Bool}

theorem length_le_run {front : List Char}
    (hfront : ∀ c ∈ front, inClass c = true) (after : List Char) :
    front.length ≤ run inClass (front ++ after) := by
  unfold run
  rw [List.takeWhile_append_of_pos hfront, List.length_append]
  exact Nat.le_add_right ..

theorem drop_run (inClass : Char → Bool) (text : List Char) :
    text.drop (run inClass text) = text.dropWhile inClass := by
  have hsplit := List.takeWhile_append_dropWhile (p := inClass) (l := text)
  calc text.drop (run inClass text)
      = (text.takeWhile inClass ++ text.dropWhile inClass).drop
        (run inClass text) := by
        rw [hsplit]
    _ = text.dropWhile inClass := List.drop_left

end Run

theorem IsNumeral.length_le (h : IsNumeral lexeme) (after : List Char) :
    lexeme.length ≤ numeralLength (lexeme ++ after) := by
  unfold numeralLength
  simp only []
  cases h with
  | whole hne hds =>
      have hlength := length_le_run hds after
      have hpos := List.length_pos_iff.mpr hne
      split
      · split
        · omega
        · omega
      · exact hlength
  | @pointed ds fs hne hds hfs =>
      have htext :
          ds ++ '.' :: fs ++ after = ds ++ '.' :: (fs ++ after) := by simp
      have hrun :
          run Char.isDigit (ds ++ '.' :: (fs ++ after)) = ds.length := by
        unfold run
        rw [List.takeWhile_append_of_pos hds]
        simp
      have hfraction := length_le_run hfs after
      rw [htext, hrun, List.drop_left]
      simp only [List.length_append, List.length_cons]
      split
      · next hzero =>
          rcases hne with hne | hne
          · have := List.length_pos_iff.mpr hne
            omega
          · have := List.length_pos_iff.mpr hne
            omega
      · omega

theorem exists_numeral (h : 0 < numeralLength text) :
    ∃ lexeme after, text = lexeme ++ after ∧
      lexeme.length = numeralLength text ∧ IsNumeral lexeme := by
  have hsplit := List.takeWhile_append_dropWhile (p := Char.isDigit) (l := text)
  have hds : ∀ c ∈ text.takeWhile Char.isDigit, c.isDigit = true :=
    fun c hc => List.mem_takeWhile_imp hc
  unfold numeralLength at h ⊢
  simp only [drop_run] at h ⊢
  split at h
  · next rest hrest =>
      simp only [hrest] at hsplit ⊢
      have hbehind :=
        List.takeWhile_append_dropWhile (p := Char.isDigit) (l := rest)
      have hfs : ∀ c ∈ rest.takeWhile Char.isDigit, c.isDigit = true :=
        fun c hc => List.mem_takeWhile_imp hc
      split at h
      · exact absurd h (Nat.lt_irrefl 0)
      · next hnonzero =>
          refine ⟨text.takeWhile Char.isDigit ++
              '.' :: rest.takeWhile Char.isDigit,
            rest.dropWhile Char.isDigit, ?_, ?_, .pointed ?_ hds hfs⟩
          · rw [List.append_assoc, List.cons_append, hbehind, hsplit]
          · rw [if_neg hnonzero, List.length_append, List.length_cons]
            unfold run
            omega
          · unfold run at hnonzero
            simp only [List.length_eq_zero_iff] at hnonzero
            exact not_and_or.mp hnonzero
  · next hpoint =>
      exact ⟨_, _, hsplit.symm, rfl, .whole (List.length_pos_iff.mp h) hds⟩

theorem IsWord.length_le (h : IsWord lexeme) (after : List Char) :
    lexeme.length ≤ wordLength (lexeme ++ after) := by
  obtain ⟨c, rest, rfl, hc, hrest⟩ := h
  have hlength := length_le_run hrest after
  rw [List.cons_append, wordLength, if_pos hc, List.length_cons]
  omega

theorem exists_word (h : 0 < wordLength text) :
    ∃ lexeme after, text = lexeme ++ after ∧ lexeme.length = wordLength text ∧
      IsWord lexeme := by
  cases text with
  | nil => cases h
  | cons c rest =>
      rw [wordLength] at h ⊢
      split at h
      · next hc =>
          refine ⟨c :: rest.takeWhile Char.isAlphanum,
            rest.dropWhile Char.isAlphanum, ?_, ?_,
            c, _, rfl, hc, fun d hd => List.mem_takeWhile_imp hd⟩
          · rw [List.cons_append, List.takeWhile_append_dropWhile]
          · rw [if_pos hc, List.length_cons]
            exact Nat.add_comm _ _
      · cases h

theorem signLength_cons (c : Char) (rest : List Char) : signLength (c :: rest) =
    if c ∈ relational then if rest.head? = some '=' then 2 else 1
    else if c ∈ signHeads then 1 else 0 := by
  rw [signLength]
  by_cases hc : c ∈ relational
  · rw [if_pos hc, if_pos (show c ∈ ['<', '>', '=', '!'] from hc)]
  · rw [if_neg hc, if_neg (show c ∉ ['<', '>', '=', '!'] from hc)]
    exact if_congr (by simp only [signHeads, List.mem_append, hc, false_or])
      rfl rfl

theorem IsSign.length_le (h : IsSign lexeme) (after : List Char) :
    lexeme.length ≤ signLength (lexeme ++ after) := by
  obtain ⟨c, hc, rfl⟩ | ⟨c, hc, rfl⟩ := isSign_iff.mp h
  · rw [List.cons_append, signLength_cons, if_pos hc]
    exact Nat.le_refl 2
  · rw [List.cons_append, signLength_cons, if_pos hc]
    split
    · split
      · exact Nat.le_succ 1
      · exact Nat.le_refl 1
    · exact Nat.le_refl 1

theorem exists_sign (h : 0 < signLength text) :
    ∃ lexeme after, text = lexeme ++ after ∧ lexeme.length = signLength text ∧
      IsSign lexeme := by
  cases text with
  | nil => cases h
  | cons c rest =>
      rw [signLength_cons] at h ⊢
      split at h
      · next hc =>
          have hhead : c ∈ signHeads := List.mem_append_left _ hc
          rw [if_pos hc]
          split
          · next hequals =>
              obtain ⟨after, rfl⟩ := List.head?_eq_some_iff.mp hequals
              exact ⟨[c, '='], after, rfl, rfl,
                isSign_iff.mpr (.inl ⟨c, hc, rfl⟩)⟩
          · exact ⟨[c], rest, rfl, rfl, isSign_iff.mpr (.inr ⟨c, hhead, rfl⟩)⟩
      · next hc =>
          split at h
          · next hhead =>
              rw [if_neg hc, if_pos hhead]
              exact ⟨[c], rest, rfl, rfl, isSign_iff.mpr (.inr ⟨c, hhead, rfl⟩)⟩
          · cases h

/-! ## The longest lexeme -/

/-- A lexeme that is no line break has the length that is found for its
class. -/
theorem length_le_lexemeLength (h : IsLexeme lexeme) (hinline : ¬IsBreak lexeme)
    (after : List Char) : lexeme.length ≤ lexemeLength (lexeme ++ after) := by
  unfold lexemeLength
  cases h with
  | numeral h => exact (h.length_le after).trans (by omega)
  | word h => exact (h.length_le after).trans (by omega)
  | sign h => exact (h.length_le after).trans (by omega)
  | lineBreak h => exact absurd h hinline

/-- The three lengths are never added up, since at most one of them is not
zero. -/
theorem exists_lexeme (h : 0 < lexemeLength text) :
    ∃ lexeme after, text = lexeme ++ after ∧ lexeme.length = lexemeLength text ∧
      IsLexeme lexeme := by
  have hnumeral : 0 < numeralLength text → kindOf text = some .numeral := by
    intro hpos
    obtain ⟨lexeme, after, rfl, -, hlexeme⟩ := exists_numeral hpos
    exact kindOf_append hlexeme.kindOf after
  have hword : 0 < wordLength text → kindOf text = some .word := by
    intro hpos
    obtain ⟨lexeme, after, rfl, -, hlexeme⟩ := exists_word hpos
    exact kindOf_append hlexeme.kindOf after
  have hsign : 0 < signLength text → kindOf text = some .sign := by
    intro hpos
    obtain ⟨lexeme, after, rfl, -, hlexeme⟩ := exists_sign hpos
    exact kindOf_append hlexeme.kindOf after
  unfold lexemeLength at h ⊢
  rcases Nat.eq_zero_or_pos (numeralLength text) with hnone | hpos
  · rcases Nat.eq_zero_or_pos (wordLength text) with hnoword | hpos
    · have hpos : 0 < signLength text := by omega
      obtain ⟨lexeme, after, htext, hlength, hlexeme⟩ := exists_sign hpos
      exact ⟨lexeme, after, htext, by omega, .sign hlexeme⟩
    · obtain ⟨lexeme, after, htext, hlength, hlexeme⟩ := exists_word hpos
      have : signLength text = 0 := Nat.eq_zero_of_not_pos fun hother => by
        cases (hword hpos).symm.trans (hsign hother)
      exact ⟨lexeme, after, htext, by omega, .word hlexeme⟩
  · obtain ⟨lexeme, after, htext, hlength, hlexeme⟩ := exists_numeral hpos
    have : wordLength text = 0 := Nat.eq_zero_of_not_pos fun hother => by
      cases (hnumeral hpos).symm.trans (hword hother)
    have : signLength text = 0 := Nat.eq_zero_of_not_pos fun hother => by
      cases (hnumeral hpos).symm.trans (hsign hother)
    exact ⟨lexeme, after, htext, by omega, .numeral hlexeme⟩

theorem longest_lexemeLength (hpos : 0 < lexemeLength text)
    (hinline : text.head? ≠ some '\n') :
    Longest (text.take (lexemeLength text))
      (text.drop (lexemeLength text)) := by
  obtain ⟨lexeme, after, htext, hlength, hlexeme⟩ := exists_lexeme hpos
  rw [← hlength]
  subst htext
  rw [List.take_left, List.drop_left]
  refine ⟨hlexeme, fun other hstart hother => ?_⟩
  obtain ⟨behind, hbehind⟩ := hstart
  have hbreak : ¬IsBreak other := by
    rintro ⟨rest, rfl, -⟩
    rw [← hbehind] at hinline
    exact hinline rfl
  calc other.length
      ≤ lexemeLength (other ++ behind) :=
        length_le_lexemeLength hother hbreak behind
    _ = lexeme.length := by rw [hbehind, hlength]

/-- The length that is found is that of the longest lexeme. -/
theorem lexemeLength_eq (h : Longest lexeme after) (hinline : ¬IsBreak lexeme) :
    lexemeLength (lexeme ++ after) = lexeme.length := by
  have hle := length_le_lexemeLength h.isLexeme hinline after
  have hpos := List.length_pos_iff.mpr h.isLexeme.ne_nil
  obtain ⟨other, behind, htext, hlength, hother⟩ :=
    exists_lexeme (hpos.trans_le hle)
  have hge := h.longest other ⟨behind, htext.symm⟩ hother
  omega

theorem stuck_of_lexemeLength {rest : List Char} (hblank : ¬Blank c)
    (hline : c ≠ '\n') (hzero : lexemeLength (c :: rest) = 0) :
    Stuck (c :: rest) := by
  refine ⟨fun d hd => Option.some.inj hd ▸ hblank, ?_⟩
  rintro lexeme ⟨after, htext⟩ hlexeme
  obtain ⟨d, behind, rfl⟩ := List.exists_cons_of_ne_nil hlexeme.ne_nil
  obtain ⟨rfl, -⟩ := List.cons.inj htext
  have hbreak : ¬IsBreak (d :: behind) := fun hbreak =>
    hline (Option.some.inj (hlexeme.isBreak_iff.mp hbreak))
  have hlength := length_le_lexemeLength hlexeme hbreak after
  rw [htext, hzero] at hlength
  cases hlength

theorem longest_break (rest : List Char) :
    Longest ('\n' :: rest.takeWhile (Space ·)) (rest.dropWhile (Space ·)) := by
  have hspaces : ∀ c ∈ rest.takeWhile (Space ·), Space c := by
    intro c hc
    simpa using List.mem_takeWhile_imp hc
  refine ⟨.lineBreak ⟨_, rfl, hspaces⟩, ?_⟩
  rintro other ⟨behind, hbehind⟩ hother
  rw [List.cons_append, List.takeWhile_append_dropWhile] at hbehind
  obtain ⟨c, text, rfl⟩ := List.exists_cons_of_ne_nil hother.ne_nil
  obtain ⟨rfl, rfl⟩ := List.cons.inj hbehind
  obtain ⟨front, htext, hfront⟩ := hother.isBreak_iff.mpr rfl
  obtain ⟨-, rfl⟩ := List.cons.inj htext
  show _ ≤ ('\n' :: (text ++ behind).takeWhile (Space ·)).length
  rw [List.takeWhile_append_of_pos fun c hc => decide_eq_true (hfront c hc)]
  simp

/-- At most one lexeme is the longest. -/
theorem Longest.unique {lexeme' after' : List Char} (h : Longest lexeme after)
    (h' : Longest lexeme' after')
    (htext : lexeme ++ after = lexeme' ++ after') :
    lexeme = lexeme' ∧ after = after' := by
  have hle := h'.longest lexeme ⟨after, htext⟩ h.isLexeme
  have hge := h.longest lexeme' ⟨after', htext.symm⟩ h'.isLexeme
  exact List.append_inj htext (Nat.le_antisymm hle hge)

end Lexical

end Reckon
