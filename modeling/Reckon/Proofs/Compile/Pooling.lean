import Reckon.Proofs.Syntax.Translation
import Reckon.Proofs.Compile.Code

/-!
# What two pools have in common

The composer and the productions put out the literals of a program in the order
of the source, but the composer puts out a one more for every loop. So a literal
need not denote the same number in both pools: one more constant can take the
place of another that is near it.

It can not if literals that are not equal are far from each other. Then
a pool finds what is first in the row of all literals, and a one is
found only for a one.
-/

namespace Reckon

/-- The number that a word puts into the code of a program. The end of a loop
adds one to the parameter. -/
def Lexeme.literal? : Lexeme → Option Single
  | constant v => some v
  | keyword text => if text = "next" then some .one else none
  | _ => none

/-- The number that a word is. -/
def Lexeme.constant? : Lexeme → Option Single
  | constant v => some v
  | _ => none

/-- The literals of some words, in order. -/
def literals (ls : List Lexeme) : List Single := ls.filterMap Lexeme.literal?

/-- The literals that are written out. -/
def constants (ls : List Lexeme) : List Single := ls.filterMap Lexeme.constant?

/-- Numbers that are equal or far from each other. -/
def Separated (vs : List Single) : Prop :=
  ∀ v ∈ vs, ∀ w ∈ vs, v.eq w = true ∨ v.Apart w

instance (vs : List Single) : Decidable (Separated vs) :=
  inferInstanceAs (Decidable (∀ v ∈ vs, ∀ w ∈ vs, _ ∨ _))

theorem Separated.eq_of_near {vs : List Single} {v w : Single}
    (h : Separated vs) (hv : v ∈ vs) (hw : w ∈ vs) (hnear : v.near w = true) :
    v.eq w = true := by
  refine (h v hv w hw).resolve_right fun hapart => ?_
  rw [Single.near_of_apart hapart] at hnear
  cases hnear

/-! ## Pools of separated numbers -/

namespace Pool

variable {all pool numbers : List Single} {v w : Single}

theorem mem_of_intern (h : w ∈ (intern Single.near pool v).2) :
    w ∈ pool ∨ w = v := by
  unfold intern at h
  split at h
  · exact .inl h
  · simpa using h

/-- What is near a pooled number has not to be pooled again. -/
theorem find?_intern (hall : Separated all) (hpool : pool ⊆ all) (hw : w ∈ all)
    (hv : v ∈ all) (rest : List Single) :
    ((intern Single.near pool w).2 ++ rest).find? (·.near v) =
      (pool ++ w :: rest).find? (·.near v) := by
  unfold intern
  split
  · next slot hslot =>
      obtain ⟨hlt, hnear, -⟩ := List.findIdx?_eq_some_iff_getElem.mp hslot
      cases hfind : pool.find? (·.near v) with
      | some u => simp [hfind]
      | none =>
          have hfar : w.near v = false := by
            cases hwv : w.near v with
            | false => rfl
            | true =>
                have hmem : pool[slot] ∈ all := hpool (List.getElem_mem hlt)
                have hslotted := hall.eq_of_near hmem hw hnear
                have hequal := hall.eq_of_near hw hv hwv
                have hfound :=
                  Single.near_of_eq (Single.eq_trans hslotted hequal)
                    (Single.isFinite_of_near hwv).2
                exact absurd hfound
                  (List.find?_eq_none.mp hfind _ (List.getElem_mem hlt))
          simp [hfind, hfar]
  · simp

/-- A pool finds what is first among all that have been put into it. -/
theorem find?_foldl (hall : Separated all) (hpool : pool ⊆ all)
    (hnumbers : numbers ⊆ all) (hv : v ∈ all) :
    (numbers.foldl (fun pool w => (intern Single.near pool w).2) pool).find?
        (·.near v) = (pool ++ numbers).find? (·.near v) := by
  induction numbers generalizing pool with
  | nil => simp
  | cons w numbers ih =>
      obtain ⟨hw, hnumbers⟩ := List.cons_subset.mp hnumbers
      have hmore : (intern Single.near pool w).2 ⊆ all := by
        intro u hu
        rcases mem_of_intern hu with hu | rfl
        · exact hpool hu
        · exact hw
      rw [List.foldl_cons, ih hmore hnumbers, find?_intern hall hpool hw hv]

theorem find?_ofNumbers (hall : Separated all) (hnumbers : numbers ⊆ all)
    (hv : v ∈ all) :
    (ofNumbers numbers).find? (·.near v) = numbers.find? (·.near v) :=
  find?_foldl hall (List.nil_subset all) hnumbers hv

end Pool

/-! ## The literals of code -/

@[simp] theorem literals_nil : literals [] = [] := rfl

@[simp] theorem literals_identifier (x : String) (ls : List Lexeme) :
    literals (.identifier x :: ls) = literals ls := rfl

@[simp] theorem literals_label (l : String) (ls : List Lexeme) :
    literals (.label l :: ls) = literals ls := rfl

@[simp] theorem literals_constant (v : Single) (ls : List Lexeme) :
    literals (.constant v :: ls) = v :: literals ls := rfl

@[simp] theorem literals_next (ls : List Lexeme) :
    literals (.keyword "next" :: ls) = .one :: literals ls := rfl

@[simp] theorem literals_keyword {text : String} (h : text ≠ "next")
    (ls : List Lexeme) : literals (.keyword text :: ls) = literals ls :=
  List.filterMap_cons_none (if_neg h)

@[simp] theorem literals_append (a b : List Lexeme) :
    literals (a ++ b) = literals a ++ literals b := List.filterMap_append

@[simp] theorem constants_nil : constants [] = [] := rfl

@[simp] theorem constants_identifier (x : String) (ls : List Lexeme) :
    constants (.identifier x :: ls) = constants ls := rfl

@[simp] theorem constants_label (l : String) (ls : List Lexeme) :
    constants (.label l :: ls) = constants ls := rfl

@[simp] theorem constants_constant (v : Single) (ls : List Lexeme) :
    constants (.constant v :: ls) = v :: constants ls := rfl

@[simp] theorem constants_keyword (text : String) (ls : List Lexeme) :
    constants (.keyword text :: ls) = constants ls := rfl

@[simp] theorem constants_append (a b : List Lexeme) :
    constants (a ++ b) = constants a ++ constants b := List.filterMap_append

theorem mem_literals_of_constants {v : Single} {ls : List Lexeme}
    (h : v ∈ constants ls) : v ∈ literals ls := by
  obtain ⟨x, hx, hv⟩ := List.mem_filterMap.mp h
  refine List.mem_filterMap.mpr ⟨x, hx, ?_⟩
  cases x <;> first | exact hv | cases hv

/-- But for ones, the literals are those that are written out. -/
theorem filter_literals (ls : List Lexeme) :
    (literals ls).filter (· ≠ .one) = (constants ls).filter (· ≠ .one) := by
  induction ls with
  | nil => rfl
  | cons x ls ih =>
      cases x with
      | identifier | label | nonterminal => exact ih
      | constant v =>
          show List.filter _ (v :: literals ls) =
            List.filter _ (v :: constants ls)
          rw [List.filter_cons, List.filter_cons, ih]
      | keyword text =>
          show _ = List.filter _ (constants ls)
          by_cases hnext : text = "next"
          · rw [hnext, literals_next, List.filter_cons_of_neg (by simp), ih]
          · rw [literals_keyword hnext, ih]

theorem Binary.text_ne_next (o : Binary) : o.text ≠ "next" := by
  cases o <;> decide

/-- The code of a formula has the literals that are written in it. -/
theorem Formula.numbers_code {t : Tier} (e : Formula t) : ∀ negative,
    Item.numbers (e.code negative) = literals e.lexemes := by
  induction e with
  | name | constant => simp [code, lexemes]
  | group e ih | bracket e ih | not e ih => simp [code, lexemes, ih]
  | only e ih => exact ih
  | negated a ih => simp [code, lexemes, ih]
  | compare a o b iha ihb | join a o b iha ihb =>
      simp [code, lexemes, iha, ihb, Binary.text_ne_next]

/-- A sign more or less makes no literals. -/
theorem Formula.numbers_translation {t : Tier} (e : Formula t) :
    Item.numbers e.translation = constants e.lexemes := by
  induction e with
  | name | constant => rfl
  | group e ih | bracket e ih => simp [translation, lexemes, ih]
  | only e ih => exact ih
  | negated a ih | not a ih => simp [translation, lexemes, ih]
  | compare a o b iha ihb | join a o b iha ihb =>
      simp [translation, lexemes, iha, ihb]

theorem Names.literals_eq (n : Names) : literals n.lexemes = [] := by
  unfold lexemes
  induction n.toList with
  | nil => rfl
  | cons x names ih => simp [ih]

theorem Names.constants_eq (n : Names) : constants n.lexemes = [] := by
  unfold lexemes
  induction n.toList with
  | nil => rfl
  | cons x names ih => simp [ih]

theorem numbers_transferCode (kind : Transfer) (names : List String) :
    Item.numbers (transferCode kind names) = [] := by
  unfold transferCode
  induction names with
  | nil => rfl
  | cons x names ih => simp [ih]

theorem Transfer.keyword_ne_next (kind : Transfer) : kind.keyword ≠ "next" := by
  cases kind <;> decide

/-- The code of a statement has its literals and a one for every loop. -/
theorem Stmt.numbers_items {x : Extent} (s : Stmt x) : ∀ k,
    Item.numbers (s.items k) = literals s.lexemes := by
  induction s with
  | assign x e => simp [items, lexemes, e.numbers_code]
  | transfer kind names =>
      simp [items, lexemes, numbers_transferCode, names.literals_eq,
        kind.keyword_ne_next]
  | branch c target => simp [items, branchCode, lexemes, c.numbers_code]
  | loop parameter first last body ih =>
      simp [items, loopCode, limitCode, nextCode, lexemes, first.numbers_code,
        last.numbers_code, ih, lineBreak]
  | plain s ih => exact ih
  | labelled label s ih => simp [items, lexemes, ih]
  | one s ih => simp [items, lexemes, ih, lineBreak]
  | more before s ihbefore ih => simp [items, lexemes, ihbefore, ih, lineBreak]

theorem Stmt.numbers_translation {x : Extent} (s : Stmt x) :
    Item.numbers s.translation = constants s.lexemes := by
  unfold translation
  induction s with
  | assign x e => simp [formulas, lexemes, e.numbers_translation]
  | transfer kind names => simp [formulas, lexemes, names.constants_eq]
  | branch c target => simp [formulas, lexemes, c.numbers_translation]
  | loop parameter first last body ih =>
      simp [formulas, lexemes, first.numbers_translation,
        last.numbers_translation, ih]
  | plain s ih => exact ih
  | labelled label s ih => simpa [formulas, lexemes] using ih
  | one s ih => simpa [formulas, lexemes] using ih
  | more before s ihbefore ih => simp [formulas, lexemes, ihbefore, ih]

theorem Definitions.literals_eq (d : Definitions) :
    literals d.lexemes = [] := by
  induction d with
  | one names => simp [lexemes, names.literals_eq]
  | more before names ih => simp [lexemes, ih, names.literals_eq]

theorem Source.literals_eq (s : Source) :
    literals s.lexemes = literals s.body.lexemes := by
  simp [lexemes, s.definitions.literals_eq, lineBreak]

/-! ## The literals of a program -/

/-- What stands for a literal in a pool of separated numbers is the first number
that is near it. -/
theorem Program.literal_eq {p : Program} {all numbers : List Single}
    {v : Single} (hp : p.constants = Pool.ofNumbers numbers)
    (hall : Separated all) (hnumbers : numbers ⊆ all) (hv : v ∈ all) :
    p.literal v = (numbers.find? (·.near v)).getD v := by
  unfold literal
  rw [hp, Pool.find?_ofNumbers hall hnumbers hv]

/-- Where one is near a number, it is what stands for it. -/
theorem getD_find?_of_near_one {all numbers : List Single} {v : Single}
    (hall : Separated all) (hone : .one ∈ all) (hnumbers : numbers ⊆ all)
    (hv : v ∈ all) (hnear : Single.one.near v = true) :
    (numbers.find? (·.near v)).getD v = .one := by
  have hequal : v.eq .one = true :=
    Single.eq_symm (hall.eq_of_near hone hv hnear)
  cases hfind : numbers.find? (·.near v) with
  | none => exact Single.eq_one hequal
  | some u =>
      have hu : u.near v = true := by simpa using List.find?_some hfind
      have humem := hnumbers (List.mem_of_find?_eq_some hfind)
      exact Single.eq_one (Single.eq_trans (hall.eq_of_near humem hv hu) hequal)

/-- Ones make no difference to what stands for a separated number. -/
theorem getD_find?_of_filter {all a b : List Single} {v : Single}
    (hall : Separated all) (ha : a ⊆ all) (hb : b ⊆ all) (hv : v ∈ all)
    (hfilter : a.filter (· ≠ .one) = b.filter (· ≠ .one)) :
    (a.find? (·.near v)).getD v = (b.find? (·.near v)).getD v := by
  by_cases hone : .one ∈ all
  · cases hnear : Single.one.near v with
    | true =>
        rw [getD_find?_of_near_one hall hone ha hv hnear,
          getD_find?_of_near_one hall hone hb hv hnear]
    | false =>
        have hpassed : ∀ c : List Single,
            (c.filter (· ≠ .one)).find? (·.near v) = c.find? (·.near v) := by
          intro c
          rw [List.find?_filter]
          refine congrArg (c.find? ·) (funext fun u => ?_)
          by_cases hu : u = .one
          · simp [hu, hnear]
          · simp [hu]
        rw [← hpassed a, ← hpassed b, hfilter]
  · have hkept : ∀ {c : List Single}, c ⊆ all → c.filter (· ≠ .one) = c := by
      intro c hc
      refine List.filter_eq_self.mpr fun u hu => ?_
      have hne : u ≠ .one := fun he => hone (he ▸ hc hu)
      simp [hne]
    rw [← hkept ha, ← hkept hb, hfilter]

/-- Both codes of a program have pools in which its literals denote the same. -/
theorem Stmt.literal_agrees {x : Extent} (s : Stmt x) {k : Stock}
    {p q : Program} (hall : Separated (literals s.lexemes))
    (hp : Emits p s.translation) (hq : Emits q (s.items k)) {v : Single}
    (hv : v ∈ literals s.lexemes) : p.literal v = q.literal v := by
  have hconstants := hp.constants
  have hliterals := hq.constants
  rw [s.numbers_translation] at hconstants
  rw [s.numbers_items] at hliterals
  have hsub : constants s.lexemes ⊆ literals s.lexemes := fun _ =>
    mem_literals_of_constants
  rw [Program.literal_eq hconstants hall hsub hv,
    Program.literal_eq hliterals hall (List.Subset.refl _) hv]
  exact getD_find?_of_filter hall hsub (List.Subset.refl _) hv
    (filter_literals _).symm

end Reckon
