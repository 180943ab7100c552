import Reckon.Proofs.Single.Nearest
import Reckon.Single.Decimal

/-!
# From where on numbers are rounded up

A fraction is rounded to more than some pattern exactly if it is more than half
way from this pattern to the next, where the half itself goes up from an odd
pattern only (`lt_roundUnits_iff`). This holds of the greatest finite pattern as
well, and infinity is the next.

Two bounds are computed from it. Two constants are near each other as long as
their exact distance is short of half a step below the tolerance
(`near_iff_distance`), and a numeral is too large for a finite number from
2¹²⁸ - 2¹⁰³ on (`isFinite_ofDecimal_iff`).
-/

namespace Reckon

variable {num den n : Nat}

theorem lt_roundHalfEven_iff (hden : 0 < den) : n < roundHalfEven num den ↔
    (2 * n + 1) * den < 2 * num ∨ (2 * n + 1) * den = 2 * num ∧ n % 2 = 1 := by
  have hsplit := Nat.div_add_mod' num den
  have hrest := Nat.mod_lt num hden
  have hhalf : (2 * n + 1) * den = 2 * (n * den) + den := by
    rw [Nat.add_mul, Nat.one_mul, Nat.mul_assoc]
  rw [hhalf]
  unfold roundHalfEven
  dsimp only
  rcases Nat.lt_trichotomy n (num / den) with hlt | rfl | hgt
  · have hless := Nat.mul_le_mul_right den (Nat.succ_le_of_lt hlt)
    rw [Nat.succ_mul] at hless
    split
    · omega
    · split <;> omega
  · split
    · omega
    · split <;> omega
  · have hmore := Nat.mul_le_mul_right den (Nat.succ_le_of_lt hgt)
    rw [Nat.succ_mul] at hmore
    split
    · omega
    · split <;> omega

namespace Single

variable {m leading scale : Nat}

/-! ## From half way to the next pattern on -/

/-- What a fraction is whose leading bits are so many places up. -/
theorem bounds_of_log2 (hden : 0 < den)
    (h : Nat.log2 (num / den) - 23 = scale) : num < 2 ^ 24 * (2 ^ scale * den) ∧
      (scale = 0 ∨ 2 ^ 23 * (2 ^ scale * den) ≤ num) := by
  rw [← Nat.mul_assoc, ← Nat.mul_assoc, ← Nat.pow_add, ← Nat.pow_add,
    ← Nat.div_lt_iff_lt_mul hden, ← Nat.le_div_iff_mul_le hden]
  rcases Nat.eq_zero_or_pos (num / den) with hzero | hpos
  · rw [hzero, Nat.log2_zero] at h
    exact ⟨hzero ▸ Nat.two_pow_pos _, .inl h.symm⟩
  · have hne := Nat.pos_iff_ne_zero.mp hpos
    rw [← Nat.log2_lt hne, ← Nat.le_log2 hne]
    omega

namespace Scaled

variable (h : Scaled m leading scale)
include h

/-- Leading bits that are farther up make a greater pattern. -/
theorem lt_of_higher {kept rounded : Nat} (hscale : scale < kept)
    (hrounded : 2 ^ 23 ≤ rounded) : m < rounded + kept * fractions := by
  have hless := h.less
  have hmore := Nat.mul_le_mul_right fractions (Nat.succ_le_of_lt hscale)
  rw [Nat.succ_mul] at hmore
  rw [h.pattern]
  unfold fractions at hmore ⊢
  omega

/-- Leading bits that are less far up make no greater pattern. -/
theorem ge_of_lower {kept rounded : Nat} (hscale : kept < scale)
    (hrounded : rounded ≤ 2 ^ 24) : rounded + kept * fractions ≤ m := by
  have hnormal := h.normal
  have hmore := Nat.mul_le_mul_right fractions (Nat.succ_le_of_lt hscale)
  rw [Nat.succ_mul] at hmore
  rw [h.pattern]
  unfold fractions at hmore ⊢
  omega

end Scaled

/-- A fraction is rounded to more than a pattern exactly if it is more than half
a step above, or half a step and the pattern is odd. -/
theorem lt_roundUnits_iff (num : Nat) (hm : m < infinityPattern)
    (hden : 0 < den) :
    m < roundUnits num den ↔ (2 * unitsOf m + spacing m) * den < 2 * num ∨
      (2 * unitsOf m + spacing m) * den = 2 * num ∧ m % 2 = 1 := by
  obtain ⟨leading, scale, hscaled⟩ := exists_scaled m
  rw [hscaled.units, hscaled.spacing_eq, ← Nat.mul_assoc 2, ← Nat.succ_mul,
    Nat.mul_assoc, roundUnits, Nat.lt_min, and_iff_left hm]
  generalize hkept : Nat.log2 (num / den) - 23 = kept
  obtain ⟨hupper, hlower⟩ := bounds_of_log2 hden hkept
  rw [Nat.shiftLeft_eq, Nat.mul_comm den]
  obtain ⟨step, hstep⟩ : ∃ step : Nat → Nat, ∀ k, 2 ^ k * den = step k :=
    ⟨_, fun _ => rfl⟩
  have hpos : ∀ k, 0 < step k :=
    fun k => hstep k ▸ Nat.mul_pos (Nat.two_pow_pos k) hden
  have hdouble : ∀ {j k}, j < k → 2 * step j ≤ step k := fun hlt => by
    rw [← hstep, ← hstep, ← Nat.mul_assoc, ← Nat.pow_succ']
    exact Nat.mul_le_mul_right den (Nat.pow_le_pow_right (by decide) hlt)
  rw [hstep] at hupper hlower
  rw [hstep, hstep]
  rcases Nat.lt_trichotomy kept scale with hlt | rfl | hgt
  · -- The fraction is below the leading bits of the pattern, and so is what it
    -- is rounded to.
    have hleading := Nat.mul_le_mul_right (step scale)
      (hscaled.normal.resolve_left (Nat.ne_zero_of_lt hlt))
    have hbelow := hdouble hlt
    have hrounded : roundHalfEven num (step kept) ≤ 2 ^ 24 := by
      refine Nat.not_lt.mp fun hmore => ?_
      have hle : (2 * 2 ^ 24 + 1) * step kept ≤ 2 * num :=
        ((lt_roundHalfEven_iff (hpos kept)).mp hmore).elim Nat.le_of_lt
          (Nat.le_of_eq ·.1)
      omega
    have hpattern := hscaled.ge_of_lower hlt hrounded
    rw [Nat.succ_mul, Nat.mul_assoc]
    generalize kept * fractions = places at hpattern ⊢
    generalize leading * step scale = least at hleading ⊢
    omega
  · rw [hscaled.mod_two, ← lt_roundHalfEven_iff (hpos kept)]
    have := hscaled.pattern
    omega
  · have hlarge := hlower.resolve_left (Nat.ne_zero_of_lt hgt)
    have hrounded : 2 ^ 23 ≤ roundHalfEven num (step kept) :=
      Nat.le_trans ((Nat.le_div_iff_mul_le (hpos kept)).mpr hlarge)
        (div_le_roundHalfEven ..)
    have hpattern := hscaled.lt_of_higher hgt hrounded
    have hleading := Nat.mul_le_mul_right (step scale) hscaled.less
    have hbelow := hdouble hgt
    have := hpos scale
    rw [Nat.succ_mul] at hleading
    rw [Nat.succ_mul, Nat.mul_assoc]
    generalize kept * fractions = places at hpattern ⊢
    generalize leading * step scale = least at hleading ⊢
    omega

/-! ## The tolerance of pools -/

/-- How far two finite numbers are from each other, in units. -/
def distance (a b : Single) : Nat := (a.signedUnits - b.signedUnits).natAbs

variable {a b : Single}

/-- Numbers that are near each other are so exactly: they are finite, and closer
than the tolerance by more than half of its last place. -/
theorem near_iff_distance : near a b = true ↔
    a.isFinite = true ∧ b.isFinite = true ∧
    2 * distance a b + spacing tolerance.magnitude < 2 * tolerance.units := by
  have hround : ∀ n, roundUnits n 1 < tolerance.magnitude ↔
      2 * n + spacing tolerance.magnitude < 2 * tolerance.units := by
    intro n
    have hbefore : tolerance.magnitude - 1 < infinityPattern := by
      decide +kernel
    have hodd : (tolerance.magnitude - 1) % 2 = 1 := by decide +kernel
    have hhalf : 2 * unitsOf (tolerance.magnitude - 1) + spacing
        (tolerance.magnitude - 1) +
        spacing tolerance.magnitude = 2 * tolerance.units := by decide +kernel
    have hmore := lt_roundUnits_iff n hbefore Nat.one_pos
    rw [Nat.mul_one, and_iff_left hodd] at hmore
    have hpos : 0 < tolerance.magnitude := by decide +kernel
    omega
  constructor
  · intro h
    obtain ⟨ha, hb⟩ := isFinite_of_near h
    have hless := (near_iff.mp h).2
    rw [magnitude_sub ha hb, hround] at hless
    exact ⟨ha, hb, hless⟩
  · rintro ⟨ha, hb, hless⟩
    have hsmall : (a - b).magnitude < tolerance.magnitude := by
      rw [magnitude_sub ha hb, hround]
      exact hless
    have htolerance : tolerance.magnitude ≤ infinityPattern := by decide +kernel
    refine near_iff.mpr ⟨?_, hsmall⟩
    rw [isNaN, magnitude_abs, decide_eq_false_iff_not]
    omega

/-- The tolerance is less than 10⁻⁵. -/
theorem distance_lt_of_near (h : near a b = true) :
    100000 * distance a b < unitsOfOne := by
  obtain ⟨ha, hb⟩ := isFinite_of_near h
  refine Nat.not_le.mp fun hfar => ?_
  rw [near_of_apart fun _ _ => hfar] at h
  cases h

/-! ## Numerals that are too large -/

theorem isFinite_ofUnits_iff {negative : Bool} (hden : 0 < den) :
    (ofUnits negative num den).isFinite = true ↔
      num < (2 ^ 128 - 2 ^ 103) * unitsOfOne * den := by
  have hbefore : infinityPattern - 1 < infinityPattern := by decide
  have hodd : (infinityPattern - 1) % 2 = 1 := by decide
  have hhalf :
      2 * unitsOf (infinityPattern - 1) + spacing (infinityPattern - 1) =
        2 * ((2 ^ 128 - 2 ^ 103) * unitsOfOne) := by decide +kernel
  have hmore := lt_roundUnits_iff num hbefore hden
  rw [hhalf, and_iff_left hodd, Nat.mul_assoc] at hmore
  rw [isFinite, magnitude_ofUnits, decide_eq_true_iff]
  omega

theorem isFinite_ofMagnitude_zero (negative : Bool) :
    (ofMagnitude negative 0).isFinite = true := by
  rw [isFinite, magnitude_ofMagnitude (by decide)]
  rfl

theorem not_isFinite_infinity (negative : Bool) :
    ¬ (infinity negative).isFinite = true := by
  rw [isFinite, infinity, magnitude_ofMagnitude (by decide), decide_eq_true_iff]
  exact Nat.lt_irrefl _

/-- A numeral has the sign that it is read with, and is no greater than
infinity. -/
theorem exists_ofDecimal_eq (negative : Bool) (digits : Nat) (exponent : Int) :
    ∃ m ≤ infinityPattern,
      ofDecimal negative digits exponent = ofMagnitude negative m := by
  unfold ofDecimal
  dsimp only
  split
  · exact ⟨0, Nat.zero_le _, rfl⟩
  · split
    · exact ⟨infinityPattern, Nat.le_refl _, rfl⟩
    · split <;> exact ⟨_, Nat.min_le_right .., rfl⟩

/-- A numeral that has no finite number is infinite. -/
theorem ofDecimal_eq_infinity {negative : Bool} {digits : Nat} {exponent : Int}
    (h : ¬ (ofDecimal negative digits exponent).isFinite = true) :
    ofDecimal negative digits exponent = infinity negative := by
  obtain ⟨m, hm, heq⟩ := exists_ofDecimal_eq negative digits exponent
  have hbits : m < signBit := Nat.lt_of_le_of_lt hm (by decide)
  rw [heq, isFinite, magnitude_ofMagnitude hbits, decide_eq_true_iff] at h
  rw [heq, infinity, Nat.le_antisymm hm (Nat.not_lt.mp h)]

/-- A numeral with so many places behind its point overflows from half a step
behind the greatest finite number on. -/
theorem isFinite_ofDecimal_iff {negative : Bool} {digits places : Nat} :
    (ofDecimal negative digits (-(places : Int))).isFinite = true ↔
      digits < (2 ^ 128 - 2 ^ 103) * 10 ^ places := by
  have hplaces : 0 < 10 ^ places := Nat.pow_pos (by decide)
  have hsize :
      ∀ k, 0 < k → ((Nat.toDigits 10 digits).length ≤ k ↔ digits < 10 ^ k) :=
    fun k hk => Nat.length_toDigits_le_iff (by decide) hk
  have hlength := Nat.length_toDigits_pos (b := 10) (n := digits)
  have hvalue : ∀ {den}, 0 < den →
      ((ofUnits negative (digits * unitsOfOne) den).isFinite = true ↔
        digits < (2 ^ 128 - 2 ^ 103) * den) := fun hden => by
    rw [isFinite_ofUnits_iff hden, Nat.mul_right_comm]
    exact Nat.mul_lt_mul_right (by decide)
  unfold ofDecimal
  dsimp only
  split
  · next hsmall =>
      have hless : digits < 10 ^ places := by
        rcases hsmall with rfl | hplace
        · exact hplaces
        · exact (hsize places (by omega)).mp (by omega)
      refine iff_of_true (isFinite_ofMagnitude_zero negative) ?_
      exact Nat.lt_of_lt_of_le hless (Nat.le_mul_of_pos_left _ (by decide))
  · split
    · next hplace =>
        have hlarge : 10 ^ (40 + places) ≤ digits :=
          Nat.not_lt.mp fun hless => by
            have := (hsize (40 + places) (by omega)).mpr hless
            omega
        refine iff_of_false (not_isFinite_infinity negative)
          (Nat.not_lt.mpr (Nat.le_trans ?_ hlarge))
        rw [Nat.pow_add]
        exact Nat.mul_le_mul_right _ (by decide)
    · split
      · next hwhole =>
          obtain rfl : places = 0 := by omega
          have hone : powerOfTen (-((0 : Nat) : Int)).toNat = 1 := rfl
          rw [hone, Nat.mul_one, hvalue Nat.one_pos]
          rfl
      · have hden : powerOfTen (-(-(places : Int))).toNat = 10 ^ places := by
          rw [Int.neg_neg, Int.toNat_natCast]
          rfl
        rw [hden, hvalue hplaces]

end Single

end Reckon
