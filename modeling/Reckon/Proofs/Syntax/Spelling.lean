import Reckon.Token.Basic

/-!
# The words of tokens

What tokens say is said by their lexemes; the lines they stand on and their
places in tables are for messages. `Spells` relates tokens to the words they
are, all of them, and `Reads` a row of tokens to the words at its front and to
what stands behind these.
-/

namespace Reckon

deriving instance DecidableEq for Lexeme

namespace Token

mutual

/-- Whether two tokens are one and the same, with their lines and places. -/
def decEq : (a b : Token) → Decidable (a = b)
  | word x l i, word y m j =>
    decidable_of_iff (x = y ∧ l = m ∧ i = j) (by rw [word.injEq])
  | phrase ps l, phrase qs m =>
    have := decEqs ps qs
    decidable_of_iff (ps = qs ∧ l = m) (by rw [phrase.injEq])
  | word .., phrase .. | phrase .., word .. => isFalse nofun

def decEqs : (as bs : List Token) → Decidable (as = bs)
  | [], [] => isTrue rfl
  | a :: as, b :: bs =>
    have := decEq a b
    have := decEqs as bs
    decidable_of_iff (a = b ∧ as = bs) (by rw [List.cons.injEq])
  | [], _ :: _ | _ :: _, [] => isFalse nofun

end

instance : DecidableEq Token := decEq

end Token

/-- The lexeme of a token that is a word. -/
def Token.lexeme? : Token → Option Lexeme
  | word lexeme _ _ => some lexeme
  | phrase _ _ => none

theorem Token.isKeyword_iff {t : Token} {text : String} :
    t.isKeyword text = true ↔ t.lexeme? = some (.keyword text) := by
  unfold isKeyword
  cases t with
  | phrase parts line => simp [keyword?, lexeme?]
  | word lexeme line index => cases lexeme <;> simp [keyword?, lexeme?]

theorem Token.eq_word_of_lexeme? {t : Token} {x : Lexeme}
    (h : t.lexeme? = some x) : ∃ line index, t = .word x line index := by
  cases t with
  | phrase parts line => cases h
  | word lexeme line index =>
      injection h with h
      exact ⟨line, index, by rw [h]⟩

/-- The lexeme that some tokens start with. -/
def firstLexeme (s : List Token) : Option Lexeme := s.head?.bind Token.lexeme?

/-- The words of some tokens are the given ones. -/
def Spells (tokens : List Token) (lexemes : List Lexeme) : Prop :=
  tokens.map Token.lexeme? = lexemes.map some

instance (tokens : List Token) (lexemes : List Lexeme) :
    Decidable (Spells tokens lexemes) :=
  inferInstanceAs (Decidable (tokens.map Token.lexeme? = lexemes.map some))

theorem Spells.length_eq {tokens : List Token} {lexemes : List Lexeme}
    (h : Spells tokens lexemes) : tokens.length = lexemes.length := by
  rw [← List.length_map Token.lexeme?, h, List.length_map]

/-- Tokens have one row of words at most. -/
theorem Spells.unique {tokens : List Token} {a b : List Lexeme}
    (ha : Spells tokens a) (hb : Spells tokens b) : a = b :=
  (List.map_inj_right fun _ _ => Option.some.inj).mp (ha.symm.trans hb)

theorem Spells.cons {t : Token} {x : Lexeme} {u : List Token} {a : List Lexeme}
    (ht : t.lexeme? = some x) (hu : Spells u a) : Spells (t :: u) (x :: a) := by
  unfold Spells at hu ⊢
  rw [List.map_cons, List.map_cons, ht, hu]

/-- Tokens do not hold a text that is not among their words. -/
theorem Spells.isKeyword_eq_false {tokens : List Token} {lexemes : List Lexeme}
    {text : String} (h : Spells tokens lexemes)
    (htext : .keyword text ∉ lexemes) :
    ∀ t ∈ tokens, t.isKeyword text = false := by
  intro t ht
  have hmem : t.lexeme? ∈ lexemes.map some := h ▸ List.mem_map_of_mem ht
  cases hkeyword : t.isKeyword text with
  | false => rfl
  | true =>
      rw [Token.isKeyword_iff.mp hkeyword] at hmem
      obtain ⟨lexeme, hlexeme, heq⟩ := List.mem_map.mp hmem
      obtain rfl := Option.some.inj heq
      exact absurd hlexeme htext

/-- Any words can be tokens. -/
theorem spells_words (lexemes : List Lexeme) :
    Spells (lexemes.map fun x => .word x 1 none) lexemes := by
  unfold Spells
  rw [List.map_map]
  rfl

theorem Spells.append {u v : List Token} {a b : List Lexeme} (hu : Spells u a)
    (hv : Spells v b) : Spells (u ++ v) (a ++ b) := by
  unfold Spells at hu hv ⊢
  rw [List.map_append, List.map_append, hu, hv]

/-- The tokens `s` start with the given words, and `r` is behind them. -/
def Reads (s : List Token) (lexemes : List Lexeme) (r : List Token) : Prop :=
  ∃ u, s = u ++ r ∧ Spells u lexemes

variable {s m r : List Token} {a b : List Lexeme} {x : Lexeme} {t : Token}

theorem reads_nil_iff : Reads s [] r ↔ s = r := by
  constructor
  · rintro ⟨u, rfl, hu⟩
    obtain rfl := List.map_eq_nil_iff.mp hu
    rfl
  · rintro rfl
    exact ⟨[], rfl, rfl⟩

theorem reads_cons_iff : Reads s (x :: a) r ↔
    ∃ t m, s = t :: m ∧ t.lexeme? = some x ∧ Reads m a r := by
  constructor
  · rintro ⟨u, rfl, hu⟩
    obtain ⟨t, v, rfl, ht, hv⟩ := List.map_eq_cons_iff.mp hu
    exact ⟨t, v ++ r, rfl, ht, v, rfl, hv⟩
  · rintro ⟨t, _, rfl, ht, v, rfl, hv⟩
    exact ⟨t :: v, rfl, hv.cons ht⟩

theorem reads_append_iff : Reads s (a ++ b) r ↔
    ∃ m, Reads s a m ∧ Reads m b r := by
  constructor
  · rintro ⟨u, rfl, hu⟩
    unfold Spells at hu
    rw [List.map_append] at hu
    obtain ⟨v, w, rfl, hv, hw⟩ := List.map_eq_append_iff.mp hu
    exact ⟨w ++ r, ⟨v, List.append_assoc v w r, hv⟩, w, rfl, hw⟩
  · rintro ⟨_, ⟨v, rfl, hv⟩, w, rfl, hw⟩
    exact ⟨v ++ w, (List.append_assoc v w r).symm, hv.append hw⟩

theorem spells_iff_reads : Spells s a ↔ Reads s a [] := by
  constructor
  · intro h
    exact ⟨s, (List.append_nil s).symm, h⟩
  · rintro ⟨u, rfl, hu⟩
    rwa [List.append_nil]

theorem Reads.one (ht : t.lexeme? = some x) : Reads (t :: r) [x] r :=
  reads_cons_iff.mpr ⟨t, r, rfl, ht, reads_nil_iff.mpr rfl⟩

theorem Reads.append (ha : Reads s a m) (hb : Reads m b r) :
    Reads s (a ++ b) r :=
  reads_append_iff.mpr ⟨m, ha, hb⟩

theorem Reads.cons (ht : t.lexeme? = some x) (h : Reads s a r) :
    Reads (t :: s) (x :: a) r :=
  reads_cons_iff.mpr ⟨t, s, rfl, ht, h⟩

theorem Reads.first (h : Reads s (x :: a) r) : firstLexeme s = some x := by
  obtain ⟨t, m, rfl, ht, -⟩ := reads_cons_iff.mp h
  exact ht

theorem Reads.length_eq (h : Reads s a r) : s.length = a.length + r.length := by
  obtain ⟨u, rfl, hu⟩ := h
  rw [List.length_append, hu.length_eq]

end Reckon
