import Reckon.Proofs.Code.Slots
import Reckon.Proofs.Token.Meaning

/-!
# Literals that come more than once

A literal that is put into a pool again gets the slot that it got before, and
adds nothing, as long as its number is finite. What it finds is near it, or is
itself, and a finite number is near itself; and what is found first stays first,
since a pool grows at its end only.

A numeral can be too large for a finite number, and then it stands for infinity.
The difference of infinity and itself is no number, so it is near nothing. Each
time it comes it gets a slot of its own (`internConstant_of_not_isFinite`).
-/

namespace Reckon

namespace Pool

variable {α : Type} {same : α → α → Bool} {pool later : List α} {v : α}

/-- A value that matches itself is found again where it was put. -/
theorem intern_again (hv : same v v = true)
    (h : (intern same pool v).2 <+: later) :
    intern same later v = ((intern same pool v).1, later) := by
  obtain ⟨more, rfl⟩ := h
  have hfind : ((intern same pool v).2 ++ more).findIdx? (same · v) =
      some (intern same pool v).1 := by
    unfold intern
    split
    · next slot hslot =>
        rw [List.findIdx?_append, hslot, Option.some_or]
    · next hnone =>
        rw [List.append_assoc, List.findIdx?_append, hnone, Option.none_or]
        simp [List.findIdx?_cons, hv]
  rw [intern, hfind]

/-- A value that matches nothing gets a slot of its own. -/
theorem intern_of_unmatched (h : ∀ w, same w v = false) :
    intern same pool v = (pool.length, pool ++ [v]) := by
  have hnone : pool.findIdx? (same · v) = none :=
    List.findIdx?_eq_none_iff.mpr fun w _ => h w
  rw [intern, hnone]

end Pool

/-! ## The size of a literal -/

namespace Lexical

/-- The digits of a numeral, read without its point. -/
def numeralDigits (text : List Char) : Nat :=
  Single.digitsValue
    (text.takeWhile Char.isDigit ++ (text.dropWhile Char.isDigit).drop 1)

/-- How many of the digits are behind the point. -/
def numeralPlaces (text : List Char) : Nat :=
  ((text.dropWhile Char.isDigit).drop 1).length

/-- The value of a numeral is 2¹²⁸ - 2¹⁰³ or more. -/
def Overflows (text : List Char) : Prop :=
  (2 ^ 128 - 2 ^ 103) * 10 ^ numeralPlaces text ≤ numeralDigits text

instance (text : List Char) : Decidable (Overflows text) :=
  inferInstanceAs (Decidable (_ ≤ _))

variable {text : List Char}

theorem numeralValue_eq (text : List Char) : Reading.numeralValue text =
    Single.ofDecimal false (numeralDigits text)
      (-(numeralPlaces text : Int)) := by
  rw [Reading.numeralValue, Single.ofDigits, Int.zero_sub]
  rfl

/-- Only these numerals have no finite number. -/
theorem isFinite_numeralValue_iff :
    (Reading.numeralValue text).isFinite = true ↔ ¬ Overflows text := by
  rw [numeralValue_eq, Single.isFinite_ofDecimal_iff, Overflows, Nat.not_le]

theorem numeralValue_of_overflows (h : Overflows text) :
    Reading.numeralValue text = .infinity false := by
  have hinfinite : ¬ (Reading.numeralValue text).isFinite = true :=
    fun hfinite => isFinite_numeralValue_iff.mp hfinite h
  rw [numeralValue_eq] at hinfinite ⊢
  exact Single.ofDecimal_eq_infinity hinfinite

end Lexical

/-! ## Literals in programs -/

namespace Program

variable {p : Program} {v : Single}

/-- A finite number has one slot, whatever is asked for in between. -/
theorem internConstant_again (hv : v.isFinite = true) (later : List Request) :
    ((p.internConstant v).2.serve later).internConstant v =
      ((p.internConstant v).1, (p.internConstant v).2.serve later) := by
  have hkept := (grows_serve (p.internConstant v).2 later).1
  have hagain := Pool.intern_again (Single.near_self hv) hkept
  rw [internConstant, hagain]
  rfl

/-- What is not finite gets a slot of its own. -/
theorem internConstant_of_not_isFinite (hv : ¬ v.isFinite = true)
    (p : Program) : p.internConstant v =
      (p.constants.length, { p with constants := p.constants ++ [v] }) := by
  have hunmatched : ∀ w, Single.near w v = false := fun w =>
    Bool.eq_false_iff.mpr fun hnear => hv (Single.isFinite_of_near hnear).2
  rw [internConstant, Pool.intern_of_unmatched hunmatched]

/-- A literal that is less than 2¹²⁸ - 2¹⁰³ has one slot in a program, however
often it comes, and after the first time it leaves the pool as it is. A literal
that is not less stands for infinity, and gets a slot of its own each time. -/
theorem interns_literal_again {text : List Char}
    (hnumeral : Lexical.IsNumeral text)
    (hvalue : Single.parse? (String.ofList text) = some v) (p : Program) :
    (¬ Lexical.Overflows text → ∀ later,
      ((p.internConstant v).2.serve later).internConstant v =
        ((p.internConstant v).1, (p.internConstant v).2.serve later)) ∧
    (Lexical.Overflows text → v = .infinity false ∧
      ∀ q : Program, q.internConstant v =
        (q.constants.length, { q with constants := q.constants ++ [v] })) := by
  obtain rfl := Option.some.inj (hnumeral.parse?.symm.trans hvalue)
  refine ⟨fun hless => ?_,
    fun hmore => ⟨Lexical.numeralValue_of_overflows hmore, ?_⟩⟩
  · exact internConstant_again (Lexical.isFinite_numeralValue_iff.mpr hless)
  · exact internConstant_of_not_isFinite fun hfinite =>
      Lexical.isFinite_numeralValue_iff.mp hfinite hmore

/-- A literal near one. -/
def nearOne : List Char := "1.000001".toList

/-- In a program that has a one this literal gets its slot, also when a label
has been pushed meanwhile. -/
theorem interns_near_one_again : Lexical.IsNumeral nearOne ∧
    Single.parse? (String.ofList nearOne) =
      some (Reading.numeralValue nearOne) ∧
    let p := serve {} [.pushConstant .one]
    let v := Reading.numeralValue nearOne
    v ≠ .one ∧ (p.internConstant v).1 = 0 ∧
      ((p.internConstant v).2.serve [.pushLabel "m"]).internConstant v =
        ((p.internConstant v).1,
          (p.internConstant v).2.serve [.pushLabel "m"]) := by
  have hsome : ['1'] ≠ [] ∨ "000001".toList ≠ [] := .inl (List.cons_ne_nil _ _)
  have hnumeral : Lexical.IsNumeral nearOne :=
    .pointed hsome (List.all_eq_true.mp rfl) (List.all_eq_true.mp rfl)
  have hvalue := hnumeral.parse?
  have hless : ¬ Lexical.Overflows nearOne := by decide +kernel
  refine ⟨hnumeral, hvalue, by decide +kernel, by decide +kernel, ?_⟩
  exact (interns_literal_again hnumeral hvalue _).1 hless [.pushLabel "m"]

/-- A literal of forty digits. -/
def tooLarge : List Char := '1' :: List.replicate 39 '0'

/-- It gets two slots of an empty program when it is put in twice in a row. -/
theorem tooLarge_has_two_slots : Lexical.IsNumeral tooLarge ∧
    ∃ v, Single.parse? (String.ofList tooLarge) = some v ∧
      let first := internConstant {} v
      let second := first.2.internConstant v
      first.1 = 0 ∧ second.1 = 1 ∧
        first.2.constants = [v] ∧ second.2.constants = [v, v] := by
  have hnumeral : Lexical.IsNumeral tooLarge :=
    .whole (List.cons_ne_nil _ _) (by simp [tooLarge])
  exact ⟨hnumeral, _, hnumeral.parse?, by decide +kernel⟩

end Program

end Reckon
