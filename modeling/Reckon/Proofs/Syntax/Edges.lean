import Reckon.Proofs.Syntax.Tree

/-!
# Both ends of a formula

A recogniser that reads from the left decides by the next word, so what it
needs to know about formulas is what they can start with and what may not
follow them: an operator that would carry on the list, or a list inside its last
item. `Ends` is stated for each tier with all operators that bind as tightly
or more, and then hands down to the tier below.
-/

namespace Reckon

variable {t : Tier} {s r : List Token}

namespace Tier

/-- The fixed texts that formulas of a tier can start with. -/
def opening : Tier → List String
  | factor | chain .product => ["("]
  | chain .sum => ["(", "-"]
  | test | chain .conjunction | chain .condition => ["(", "-", "[", "!"]

/-- A lexeme that a formula of a tier can start with. -/
inductive Starts (t : Tier) : Lexeme → Prop where
  | identifier (x : String) : Starts t (.identifier x)
  | constant (v : Single) : Starts t (.constant v)
  | keyword {text : String} : text ∈ t.opening → Starts t (.keyword text)

/-- The operators that carry a formula of a tier on. -/
def stops : Tier → List Binary
  | factor => []
  | chain .product => [.mul, .div]
  | chain .sum | test => [.mul, .div, .add, .sub]
  | chain .conjunction => [.mul, .div, .add, .sub, .and]
  | chain .condition => [.mul, .div, .add, .sub, .and, .or]

theorem Starts.mono {t u : Tier} {x : Lexeme} (h : t.Starts x)
    (hsubset : ∀ text ∈ t.opening, text ∈ u.opening) : u.Starts x := by
  cases h with
  | identifier x => exact .identifier x
  | constant v => exact .constant v
  | keyword hmem => exact .keyword (hsubset _ hmem)

end Tier

/-- A formula is not empty, and its first word belongs to its tier. -/
theorem Formula.exists_first (e : Formula t) :
    ∃ x rest, e.lexemes = x :: rest ∧ t.Starts x := by
  induction e with
  | name x => exact ⟨_, _, rfl, .identifier x⟩
  | constant v => exact ⟨_, _, rfl, .constant v⟩
  | group e => exact ⟨_, _, rfl, .keyword (by decide)⟩
  | compare a o b iha =>
      obtain ⟨x, rest, ha, hx⟩ := iha
      exact ⟨x,
        rest ++ .keyword o.val.text :: b.lexemes, by rw [lexemes, ha]; rfl,
        hx.mono (by decide)⟩
  | bracket c => exact ⟨_, _, rfl, .keyword (by decide)⟩
  | not a => exact ⟨_, _, rfl, .keyword (by decide)⟩
  | @only l a ih =>
      obtain ⟨x, rest, ha, hx⟩ := ih
      exact ⟨x, rest, ha, hx.mono (by cases l <;> decide)⟩
  | negated a => exact ⟨_, _, rfl, .keyword (by decide)⟩
  | @join l a o b iha =>
      obtain ⟨x, rest, ha, hx⟩ := iha
      exact ⟨x,
        rest ++ .keyword o.val.text :: b.lexemes, by rw [lexemes, ha]; rfl, hx⟩

theorem Formula.lexemes_length_pos (e : Formula t) : 0 < e.lexemes.length := by
  obtain ⟨x, rest, he, -⟩ := e.exists_first
  rw [he]
  exact Nat.succ_pos _

theorem Reads.starts {e : Formula t} (h : Reads s e.lexemes r) :
    ∃ x, firstLexeme s = some x ∧ t.Starts x := by
  obtain ⟨x, rest, he, hx⟩ := e.exists_first
  rw [he] at h
  exact ⟨x, h.first, hx⟩

theorem Reads.first_ne {e : Formula t} (h : Reads s e.lexemes r) {text : String}
    (htext : text ∉ t.opening) : firstLexeme s ≠ some (.keyword text) := by
  obtain ⟨x, hfirst, hx⟩ := h.starts
  rw [hfirst]
  rintro ⟨rfl⟩
  cases hx with
  | keyword hmem => exact htext hmem

/-- Every line of a block has its line break in front. -/
theorem Stmt.exists_lexemes_block :
    ∀ b : Stmt .block, ∃ rest, b.lexemes = .keyword lineBreak :: rest
  | .one a => ⟨a.lexemes, rfl⟩
  | .more b a => by
      obtain ⟨rest, hb⟩ := exists_lexemes_block b
      exact ⟨rest ++ .keyword lineBreak :: a.lexemes, by rw [lexemes, hb]; rfl⟩

/-- The words that close a block. -/
def closing : List String := ["next", "end"]

/-- No statement starts with a word that closes a block. -/
theorem Stmt.first_not_closing {a : Stmt .line} (h : Reads s a.lexemes r) :
    ∀ text ∈ closing, firstLexeme s ≠ some (.keyword text) := by
  intro text htext
  cases a with
  | labelled x a =>
      rw [h.first]
      exact fun he => by cases he
  | plain a =>
      simp only [closing, List.mem_cons, List.not_mem_nil, or_false] at htext
      cases a with
      | transfer kind =>
          rw [h.first]
          cases kind <;> rcases htext with rfl | rfl <;> simp [Transfer.keyword]
      | assign | branch | loop =>
          rw [h.first]
          rcases htext with rfl | rfl <;> simp

/-- What follows does not carry a formula on. -/
def Ends (t : Tier) (r : List Token) : Prop :=
  ∀ o ∈ t.stops, firstLexeme r ≠ some (.keyword o.text)

theorem Ends.below {l : Level} (h : Ends (.chain l) r) : Ends l.below r := by
  have hsubset : ∀ o ∈ l.below.stops, o ∈ (Tier.chain l).stops := by
    cases l <;> decide
  exact fun o ho => h o (hsubset o ho)

theorem Ends.first_ne {l : Level} (h : Ends (.chain l) r) :
    ∀ o ∈ l.operators, firstLexeme r ≠ some (.keyword o.text) := by
  have hsubset : ∀ o ∈ l.operators, o ∈ (Tier.chain l).stops := by
    cases l <;> decide
  exact fun o ho => h o (hsubset o ho)

theorem ends_of_first {text : String}
    (hfirst : firstLexeme r = some (.keyword text))
    (h : text ∉ t.stops.map Binary.text) : Ends t r := by
  intro o ho he
  rw [hfirst] at he
  injection he with he
  injection he with he
  rw [he] at h
  exact h (List.mem_map_of_mem ho)

/-- An operator of a level does not carry on what it joins. -/
theorem ends_of_operator {l : Level} (o : l.Operator)
    (hfirst : firstLexeme r = some (.keyword o.val.text)) : Ends l.below r := by
  have hother : ∀ o ∈ l.operators, o.text ∉ l.below.stops.map Binary.text := by
    cases l <;> decide
  exact ends_of_first hfirst (hother o.val o.property)

theorem ends_of_comparison (o : Comparison)
    (hfirst : firstLexeme r = some (.keyword o.val.text)) :
    Ends (.chain .sum) r := by
  have hother : ∀ o ∈ Binary.comparisons,
      o.text ∉ (Tier.chain .sum).stops.map Binary.text := by
    decide
  exact ends_of_first hfirst (hother o.val o.property)

end Reckon
