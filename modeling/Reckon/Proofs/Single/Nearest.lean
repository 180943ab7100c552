import Mathlib.Algebra.Group.Nat.Defs
import Reckon.Proofs.Single.Near
import Reckon.Single.Shortest

/-!
# What is rounded to a number

A positive number is what everything half way to its neighbours on either side
is rounded to, the two ends included if its pattern is even
(`roundUnits_of_within`). Distances are those from which the text of a number is
chosen. At a power of two the way down is half as long as the way up, and what
is rounded from there keeps one bit more.
-/

namespace Reckon

variable {num den n : Nat}

/-! ## Rounding to whole numbers -/

/-- A distance is short of half of something, or half of it if that is
allowed. -/
def Half (even : Prop) (distance whole : Nat) : Prop :=
  2 * distance < whole ∨ 2 * distance = whole ∧ even

theorem roundHalfEven_of_above (hden : 0 < den) (h : n * den ≤ num)
    (hhalf : Half (n % 2 = 0) (num - n * den) den) :
    roundHalfEven num den = n := by
  obtain ⟨rest, rfl⟩ := Nat.exists_eq_add_of_le h
  rw [Nat.add_sub_cancel_left] at hhalf
  have hlt : rest < den := by
    rcases hhalf with hlt | ⟨heq, -⟩ <;> omega
  obtain ⟨hdiv, hmod⟩ := (Nat.div_mod_unique hden).mpr
    ⟨show rest + den * n = n * den +
      rest by rw [Nat.mul_comm den, Nat.add_comm], hlt⟩
  unfold roundHalfEven
  simp only [hdiv, hmod]
  rcases hhalf with hless | ⟨heq, heven⟩
  · rw [if_pos hless]
  · rw [if_neg (by omega), if_neg (by omega), heven, Nat.add_zero]

theorem roundHalfEven_of_below (hden : 0 < den) (h : num ≤ n * den)
    (hhalf : Half (n % 2 = 0) (n * den - num) den) :
    roundHalfEven num den = n := by
  rcases Nat.eq_or_lt_of_le h with rfl | hlt
  · exact roundHalfEven_of_above hden (Nat.le_refl _) (.inl (by omega))
  · obtain ⟨gap, hgap⟩ := Nat.exists_eq_add_of_lt hlt
    cases n with
    | zero => omega
    | succ n =>
        rw [Nat.succ_mul] at hgap hhalf h
        have hshort : n * den + den - num = gap + 1 := by omega
        rw [hshort] at hhalf
        have hle : 2 * (gap + 1) ≤ den := by
          rcases hhalf with hless | ⟨heq, -⟩ <;> omega
        obtain ⟨hdiv, hmod⟩ := (Nat.div_mod_unique hden).mpr
          ⟨show (den - (gap + 1)) + den * n =
            num by rw [Nat.mul_comm den]; omega,
            show den - (gap + 1) < den by omega⟩
        unfold roundHalfEven
        simp only [hdiv, hmod]
        rcases hhalf with hless | ⟨heq, heven⟩
        · rw [if_neg (by omega), if_pos (by omega)]
        · rw [if_neg (by omega), if_neg (by omega)]
          omega

namespace Single

variable {m leading scale : Nat}

/-! ## Leading bits -/

/-- A magnitude has these leading bits, so many places up. -/
structure Scaled (m leading scale : Nat) : Prop where
  pattern : m = leading + scale * fractions
  units : unitsOf m = leading * 2 ^ scale
  less : leading < 2 ^ 24
  normal : scale = 0 ∨ 2 ^ 23 ≤ leading

theorem exists_scaled (m : Nat) : ∃ leading scale, Scaled m leading scale := by
  obtain ⟨leading, scale, hpattern, hunits, hleading, hnormal⟩ := exists_scale m
  exact ⟨leading, scale, hpattern, hunits.trans (Nat.shiftLeft_eq ..),
    hleading, hnormal⟩

/-- How many bits are dropped from a fraction of units. -/
theorem log2_div_sub (hden : 0 < den) (hlt : num < 2 ^ 24 * (2 ^ scale * den))
    (hnormal : scale = 0 ∨ 2 ^ 23 * (2 ^ scale * den) ≤ num) :
    Nat.log2 (num / den) - 23 = scale := by
  have hupper : num / den < 2 ^ (24 + scale) := by
    rw [Nat.div_lt_iff_lt_mul hden, Nat.pow_add, Nat.mul_assoc]
    exact hlt
  rcases Nat.eq_zero_or_pos (num / den) with hzero | hpos
  · rw [hzero, Nat.log2_zero]
    rcases hnormal with rfl | hle
    · rfl
    · rw [← Nat.mul_assoc, ← Nat.le_div_iff_mul_le hden, hzero] at hle
      have := Nat.two_pow_pos scale
      omega
  · have hne := Nat.pos_iff_ne_zero.mp hpos
    have hless := (Nat.log2_lt hne).mpr hupper
    rcases hnormal with rfl | hle
    · omega
    · rw [← Nat.mul_assoc, ← Nat.pow_add, ← Nat.le_div_iff_mul_le hden] at hle
      have := (Nat.le_log2 hne).mpr hle
      omega

/-- A fraction whose leading bits round to those of a magnitude is rounded to
it. -/
theorem roundUnits_eq (hm : m ≤ infinityPattern)
    (hpattern : m = leading + scale * fractions)
    (hlog : Nat.log2 (num / den) - 23 = scale)
    (hround : roundHalfEven num (2 ^ scale * den) = leading) :
    roundUnits num den = m := by
  unfold roundUnits
  simp only [hlog]
  rw [Nat.shiftLeft_eq, Nat.mul_comm den, hround, ← hpattern]
  exact Nat.min_eq_left hm

namespace Scaled

theorem spacing_eq (h : Scaled m leading scale) : spacing m = 2 ^ scale := by
  have hless := h.less
  have hscale : m / fractions - 1 = scale := by
    rw [h.pattern, Nat.add_mul_div_right _ _ (by decide)]
    rcases h.normal with rfl | hnormal
    · have : leading / fractions < 2 :=
        (Nat.div_lt_iff_lt_mul (by decide)).mpr hless
      omega
    · have : leading / fractions = 1 := by
        rw [Nat.div_eq_iff (by decide)]
        unfold fractions
        omega
      omega
  rw [spacing, hscale, Nat.one_shiftLeft]

theorem mod_two (h : Scaled m leading scale) : m % 2 = leading % 2 := by
  rw [h.pattern, fractions]
  omega

/-- The way down is shorter if the last bit of the scale below is one of the
leading bits. -/
theorem reachBelow_eq (h : Scaled m leading scale) : reachBelow m =
    if scale ≠ 0 ∧ leading = 2 ^ 23 then 2 ^ scale else 2 * 2 ^ scale := by
  obtain ⟨hpattern, -, hless, hnormal⟩ := id h
  have hmod : m % fractions = leading % fractions := by
    rw [hpattern, Nat.add_mul_mod_self_right]
  have hlarge : fractions < m ↔ scale ≠ 0 ∨ 2 ^ 23 < leading := by
    rw [hpattern, fractions]
    omega
  rw [reachBelow, h.spacing_eq, hmod]
  refine ite_congr (propext ?_) (fun _ => rfl) fun _ => rfl
  rw [hlarge, fractions]
  constructor
  · rintro ⟨hzero, hmore⟩
    have : scale ≠ 0 := by
      rintro rfl
      omega
    exact ⟨this, by have := hnormal.resolve_left this; omega⟩
  · rintro ⟨hscale, rfl⟩
    exact ⟨rfl, .inl hscale⟩

theorem step_le (h : Scaled m leading scale) (den : Nat) :
    leading * (2 ^ scale * den) + 2 ^ scale * den ≤
      2 ^ 24 * (2 ^ scale * den) := by
  rw [← Nat.succ_mul]
  exact Nat.mul_le_mul_right _ h.less

/-- Fractions less than half a step above. -/
theorem round_above (h : Scaled m leading scale) (hm : m ≤ infinityPattern)
    (hden : 0 < den) (hle : leading * (2 ^ scale * den) ≤ num)
    (hhalf : Half (m % 2 = 0) (num - leading * (2 ^ scale * den))
      (2 ^ scale * den)) : roundUnits num den = m := by
  have hstep : 0 < 2 ^ scale * den := Nat.mul_pos (Nat.two_pow_pos scale) hden
  have hupper := h.step_le den
  have hless : num < leading * (2 ^ scale * den) + 2 ^ scale * den := by
    rcases hhalf with hhalf | ⟨hhalf, -⟩ <;> omega
  refine roundUnits_eq hm h.pattern
    (log2_div_sub hden (Nat.lt_of_lt_of_le hless hupper) ?_)
    (roundHalfEven_of_above hstep hle (h.mod_two ▸ hhalf))
  exact h.normal.imp_right fun hnormal =>
    Nat.le_trans (Nat.mul_le_mul_right _ hnormal) hle

/-- Fractions less than half a step below. -/
theorem round_below (h : Scaled m leading scale) (hm : m ≤ infinityPattern)
    (hden : 0 < den) (hlarge : scale = 0 ∨ 2 ^ 23 < leading)
    (hle : num ≤ leading * (2 ^ scale * den))
    (hhalf : Half (m % 2 = 0) (leading * (2 ^ scale * den) - num)
      (2 ^ scale * den)) : roundUnits num den = m := by
  have hstep : 0 < 2 ^ scale * den := Nat.mul_pos (Nat.two_pow_pos scale) hden
  have hupper := h.step_le den
  refine roundUnits_eq hm h.pattern
    (log2_div_sub hden (by omega) (hlarge.imp_right fun hlarge => ?_))
    (roundHalfEven_of_below hstep hle (h.mod_two ▸ hhalf))
  have hmore := Nat.mul_le_mul_right (2 ^ scale * den) hlarge
  rw [Nat.succ_mul] at hmore
  rcases hhalf with hhalf | ⟨hhalf, -⟩ <;> omega

/-- Fractions less than half a step below a power of two, where steps
are half as long. -/
theorem round_below_power (h : Scaled m (2 ^ 23) (scale + 1))
    (hm : m ≤ infinityPattern) (hden : 0 < den)
    (hlt : num < 2 ^ 24 * (2 ^ scale * den))
    (hhalf : 2 * (2 ^ 24 * (2 ^ scale * den) - num) ≤ 2 ^ scale * den) :
    roundUnits num den = m := by
  have hfiner : m = 2 ^ 24 + scale * fractions := by
    have hpattern := h.pattern
    rw [Nat.succ_mul, fractions] at hpattern
    rw [fractions]
    omega
  have hstep : 0 < 2 ^ scale * den := Nat.mul_pos (Nat.two_pow_pos scale) hden
  refine roundUnits_eq hm hfiner (log2_div_sub hden hlt (.inr (by omega)))
    (roundHalfEven_of_below hstep (Nat.le_of_lt hlt) ?_)
  unfold Half
  omega

end Scaled

/-! ## Half way to the neighbours -/

/-- The fraction `num / den` is at most half way to a neighbour of the
magnitude. -/
inductive Within (m num den : Nat) : Prop where
  | below : num ≤ unitsOf m * den →
      inReach m (4 * (unitsOf m * den - num)) (reachBelow m * den) = true →
      Within m num den
  | above : unitsOf m * den ≤ num →
      inReach m (4 * (num - unitsOf m * den)) (reachAbove m * den) = true →
      Within m num den

theorem inReach_iff {distance reach : Nat} : inReach m distance reach = true ↔
    distance < reach ∨ distance = reach ∧ m % 2 = 0 := by
  unfold inReach
  split
  · next heven => rw [decide_eq_true_eq]; omega
  · next hodd => rw [decide_eq_true_eq]; omega

/-- What is at most half way to a neighbour is rounded to the number. -/
theorem roundUnits_of_within (hm : m ≤ infinityPattern) (hden : 0 < den)
    (h : Within m num den) : roundUnits num den = m := by
  obtain ⟨leading, scale, hscaled⟩ := exists_scaled m
  have hvalue : unitsOf m * den = leading * (2 ^ scale * den) := by
    rw [hscaled.units, Nat.mul_assoc]
  cases h with
  | above hle hreach =>
      rw [hvalue] at hle
      rw [hvalue, inReach_iff, reachAbove, hscaled.spacing_eq, Nat.mul_assoc]
        at hreach
      refine hscaled.round_above hm hden hle ?_
      unfold Half
      omega
  | below hle hreach =>
      rw [hvalue] at hle
      rw [hvalue, inReach_iff, hscaled.reachBelow_eq] at hreach
      split at hreach
      · next hpower =>
          obtain ⟨hscale, rfl⟩ := hpower
          obtain ⟨s, rfl⟩ := Nat.exists_eq_succ_of_ne_zero hscale
          have hhalf : 2 ^ (s + 1) * den = 2 * (2 ^ s * den) := by
            rw [Nat.pow_succ, Nat.mul_comm (2 ^ s), Nat.mul_assoc]
          rcases Nat.eq_or_lt_of_le hle with rfl | hless
          · refine hscaled.round_above hm hden (Nat.le_refl _) (.inl ?_)
            rw [Nat.sub_self]
            exact Nat.mul_pos (Nat.two_pow_pos _) hden
          · rw [Nat.succ_eq_add_one, hhalf] at hless hreach
            exact hscaled.round_below_power hm hden (by omega) (by omega)
      · next hpower =>
          rw [Nat.mul_assoc] at hreach
          refine hscaled.round_below hm hden ?_ hle ?_
          · have := hscaled.normal
            omega
          · unfold Half
            omega

end Single

end Reckon
