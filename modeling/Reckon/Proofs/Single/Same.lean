import Reckon.Code.Op
import Reckon.Proofs.Single.Near

/-!
# Numbers up to what is no number

A pattern that denotes no number has a sign like any other, and turning the sign
before a product or behind it can give two such patterns. `Same` leaves this
difference out. An operation cannot tell it either: every operand that is no
number is to it like `nan`, so what two operands that are the same lead to is
equal.
-/

namespace Reckon

namespace Single

/-- Equal, or both no number. -/
def Same (a b : Single) : Prop := a = b ∨ a.isNaN = true ∧ b.isNaN = true

variable {a b c : Single}

theorem Same.refl (a : Single) : Same a a := .inl rfl

theorem Same.symm (h : Same a b) : Same b a := h.imp Eq.symm And.symm

theorem Same.trans (h : Same a b) (h' : Same b c) : Same a c := by
  rcases h with rfl | ⟨ha, hb⟩
  · exact h'
  · rcases h' with rfl | ⟨-, hc⟩
    · exact .inr ⟨ha, hb⟩
    · exact .inr ⟨ha, hc⟩

/-! ## Turning the sign -/

theorem isNaN_neg (a : Single) : (neg a).isNaN = a.isNaN := by
  unfold isNaN
  rw [magnitude_neg]

theorem isInfinite_neg (a : Single) : (neg a).isInfinite = a.isInfinite := by
  unfold isInfinite
  rw [magnitude_neg]

theorem units_neg (a : Single) : (neg a).units = a.units := by
  unfold units
  rw [magnitude_neg]

theorem isNaN_nan : nan.isNaN = true := by decide

theorem neg_ofMagnitude {negative : Bool} {m : Nat} (h : m < signBit) :
    neg (ofMagnitude negative m) = ofMagnitude (!negative) m := by
  unfold neg
  rw [isNegative_ofMagnitude h, magnitude_ofMagnitude h]

theorem neg_infinity (negative : Bool) :
    neg (infinity negative) = infinity (!negative) :=
  neg_ofMagnitude (by decide)

theorem neg_ofUnits (negative : Bool) (num den : Nat) :
    neg (ofUnits negative num den) = ofUnits (!negative) num den := by
  have hbounded : roundUnits num den < signBit :=
    Nat.lt_of_le_of_lt (Nat.min_le_right ..) (by decide)
  exact neg_ofMagnitude hbounded

theorem Same.neg (h : Same a b) : Same (-a) (-b) := by
  rcases h with rfl | ⟨ha, hb⟩
  · exact .refl _
  · exact .inr ⟨(isNaN_neg a).trans ha, (isNaN_neg b).trans hb⟩

theorem same_nan_neg : Same nan (Single.neg nan) :=
  .inr ⟨isNaN_nan, (isNaN_neg nan).trans isNaN_nan⟩

theorem not_bne (p q : Bool) : ((!p) != q) = !(p != q) := by
  cases p <;> cases q <;> rfl

/-- The sign of a factor is that of the product. -/
theorem neg_mul (a b : Single) : Same (-a * b) (-(a * b)) := by
  show Same (mul (Single.neg a) b) (Single.neg (mul a b))
  unfold mul
  rw [isNaN_neg, isInfinite_neg, magnitude_neg, units_neg, isNegative_neg,
    not_bne]
  dsimp only
  split
  · exact same_nan_neg
  · split
    · split
      · exact same_nan_neg
      · exact .inl (neg_infinity _).symm
    · exact .inl (neg_ofUnits ..).symm

/-- The sign of a dividend is that of the quotient. -/
theorem neg_div (a b : Single) : Same (-a / b) (-(a / b)) := by
  show Same (div (Single.neg a) b) (Single.neg (div a b))
  unfold div
  rw [isNaN_neg, isInfinite_neg, magnitude_neg, units_neg, isNegative_neg,
    not_bne]
  dsimp only
  split
  · exact same_nan_neg
  · split
    · split
      · exact same_nan_neg
      · exact .inl (neg_infinity _).symm
    · split
      · exact .inl (neg_ofMagnitude (by decide)).symm
      · split
        · split
          · exact same_nan_neg
          · exact .inl (neg_infinity _).symm
        · exact .inl (neg_ofUnits ..).symm

end Single

/-! ## Operations -/

namespace Binary

variable {a a' b b' : Single}

theorem apply_of_isNaN_left (o : Binary) (ha : a.isNaN = true) (b : Single) :
    o.apply a b = o.apply .nan b := by
  have hnan := Single.isNaN_nan
  cases o with
  | add =>
      show Single.add a b = Single.add .nan b
      simp [Single.add, ha, hnan]
  | sub =>
      show Single.add a (.neg b) = Single.add .nan (.neg b)
      simp [Single.add, ha, hnan]
  | mul =>
      show Single.mul a b = Single.mul .nan b
      simp [Single.mul, ha, hnan]
  | div =>
      show Single.div a b = Single.div .nan b
      simp [Single.div, ha, hnan]
  | _ =>
      simp [apply, Single.eq, Single.lt, Single.le, Single.comparable, ha, hnan]

theorem apply_of_isNaN_right (o : Binary) (a : Single) (hb : b.isNaN = true) :
    o.apply a b = o.apply a .nan := by
  have hnan := Single.isNaN_nan
  cases o with
  | add =>
      show Single.add a b = Single.add a .nan
      simp [Single.add, hb, hnan]
  | sub =>
      show Single.add a (.neg b) = Single.add a (.neg .nan)
      simp [Single.add, Single.isNaN_neg, hb, hnan]
  | mul =>
      show Single.mul a b = Single.mul a .nan
      simp [Single.mul, hb, hnan]
  | div =>
      show Single.div a b = Single.div a .nan
      simp [Single.div, hb, hnan]
  | _ =>
      simp [apply, Single.eq, Single.lt, Single.le, Single.comparable, hb, hnan]

/-- Operators make no difference between operands that are the same. -/
theorem apply_congr (o : Binary) (ha : a.Same a') (hb : b.Same b') :
    o.apply a b = o.apply a' b' := by
  have hleft : o.apply a b = o.apply a' b := by
    rcases ha with rfl | ⟨ha, ha'⟩
    · rfl
    · rw [o.apply_of_isNaN_left ha, o.apply_of_isNaN_left ha']
  have hright : o.apply a' b = o.apply a' b' := by
    rcases hb with rfl | ⟨hb, hb'⟩
    · rfl
    · rw [o.apply_of_isNaN_right a' hb, o.apply_of_isNaN_right a' hb']
  exact hleft.trans hright

end Binary

theorem Single.Same.le_zero {a b : Single} (h : a.Same b) :
    a.le .zero = b.le .zero := by
  rcases h with rfl | ⟨ha, hb⟩
  · rfl
  · simp [le, comparable, ha, hb]

end Reckon
