import Reckon.Proofs.Single.Nearest
import Reckon.Single.Decimal

/-!
# Numbers are read as they are written

The text of a finite number is looked for among the multiples of powers of ten,
and one that is found there is as near to the number as rounding needs it
(`onGrid?_within`). The search does not fail: where the multiples of a power
are closer together than what is rounded to one number, one of the two around
it will do (`exists_onGrid?`). So reading gives the number back that was
written (`ofDecimal_of_shortest`), since neither of the powers at which reading
gives up is reached.
-/

namespace Reckon.Single

variable {m factor : Nat} {power : Int}

/-! ## The sizes of numbers -/

/-- No positive number is smaller than a step to its neighbours. -/
theorem spacing_le_unitsOf (hpos : 0 < m) : spacing m ≤ unitsOf m := by
  obtain ⟨leading, scale, hscaled⟩ := exists_scaled m
  have hleading : 0 < leading := by
    refine Nat.pos_of_ne_zero fun hzero => ?_
    obtain ⟨hpattern, -, -, hnormal⟩ := hscaled
    obtain rfl : scale = 0 := by omega
    omega
  rw [hscaled.spacing_eq, hscaled.units]
  exact Nat.le_mul_of_pos_left _ hleading

/-- A step beyond the greatest number is 2¹²⁸. -/
theorem unitsOf_add_spacing_le (hm : m < infinityPattern) :
    unitsOf m + spacing m ≤ 2 ^ 128 * unitsOfOne := by
  obtain ⟨leading, scale, hscaled⟩ := exists_scaled m
  have hscale : scale ≤ 253 := by
    obtain ⟨hpattern, -, -, hnormal⟩ := hscaled
    unfold infinityPattern at hm
    unfold fractions at hpattern hm
    omega
  rw [hscaled.spacing_eq, hscaled.units, ← Nat.succ_mul]
  calc (leading + 1) * 2 ^ scale
      ≤ 2 ^ 24 * 2 ^ (104 + 149) :=
        Nat.mul_le_mul hscaled.less (Nat.pow_le_pow_right (by decide) hscale)
    _ = 2 ^ 128 * unitsOfOne := by
        rw [Nat.pow_add 2 104, ← Nat.mul_assoc, ← Nat.pow_add, unitsOfOne,
          Nat.one_shiftLeft]

theorem spacing_pos (m : Nat) : 0 < spacing m := by
  rw [spacing, Nat.one_shiftLeft]
  exact Nat.two_pow_pos _

theorem spacing_le_reachBelow (m : Nat) : spacing m ≤ reachBelow m := by
  unfold reachBelow
  split <;> omega

theorem reachBelow_le (m : Nat) : reachBelow m ≤ 2 * spacing m := by
  unfold reachBelow
  split <;> omega

/-! ## The search -/

/-- The multiples of a power of ten, in quarters of a unit. -/
theorem mul_step (power : Int) (k : Nat) :
    k * (powerOfTen power.toNat * (4 * unitsOfOne)) =
      4 * (k * powerOfTen power.toNat * unitsOfOne) := by
  rw [Nat.mul_left_comm (powerOfTen _), Nat.mul_left_comm k, Nat.mul_assoc k]

/-- A multiple that is found is as near as it has to be. -/
theorem onGrid?_within (h : onGrid? m power = some factor) :
    Within m (factor * powerOfTen power.toNat * unitsOfOne)
      (powerOfTen (-power).toNat) := by
  unfold onGrid? at h
  dsimp only at h
  rw [Nat.mul_assoc 4] at h
  have hstep : 0 < powerOfTen power.toNat * (4 * unitsOfOne) :=
    Nat.mul_pos (Nat.pow_pos (by decide)) (by decide)
  have hlow := Nat.div_mul_le_self (4 * (unitsOf m * powerOfTen (-power).toNat))
    (powerOfTen power.toNat * (4 * unitsOfOne))
  have hhigh := (Nat.div_lt_iff_lt_mul hstep).mp (Nat.lt_succ_self
    (4 * (unitsOf m * powerOfTen (-power).toNat) /
      (powerOfTen power.toNat * (4 * unitsOfOne))))
  generalize 4 * (unitsOf m * powerOfTen (-power).toNat) /
    (powerOfTen power.toNat * (4 * unitsOfOne)) = low at h hlow hhigh
  simp only [Nat.succ_eq_add_one, mul_step, ← Nat.mul_sub] at h hlow hhigh
  split at h
  · next hfits =>
      cases h
      exact .below (by omega) (Bool.and_eq_true_iff.mp hfits).1
  · split at h
    · next hfits =>
        cases h
        exact .above (by omega) hfits
    · cases h

/-- Where multiples are close enough together, one is found. -/
theorem exists_onGrid? (m : Nat)
    (hfine : powerOfTen power.toNat * (4 * unitsOfOne) < 3 * powerOfTen
      (-power).toNat) : ∃ factor, onGrid? m power = some factor := by
  have hstep : 0 < powerOfTen power.toNat * (4 * unitsOfOne) :=
    Nat.mul_pos (Nat.pow_pos (by decide)) (by decide)
  unfold onGrid?
  dsimp only
  generalize powerOfTen (-power).toNat = scale at hfine ⊢
  generalize powerOfTen power.toNat * (4 * unitsOfOne) = step at hfine hstep ⊢
  generalize 4 * unitsOf m * scale = value
  have hlow := Nat.div_mul_le_self value step
  have hhigh :=
    (Nat.div_lt_iff_lt_mul hstep).mp (Nat.lt_succ_self (value / step))
  generalize value / step = low at hlow hhigh ⊢
  -- Were both of them too far away, they would be more than a step apart.
  have hbelow : scale ≤ reachBelow m * scale :=
    Nat.le_mul_of_pos_left _
      (Nat.lt_of_lt_of_le (spacing_pos m) (spacing_le_reachBelow m))
  have habove : 2 * scale ≤ reachAbove m * scale :=
    Nat.mul_le_mul_right _ (Nat.le_mul_of_pos_right 2 (spacing_pos m))
  rw [Nat.succ_mul] at hhigh
  rw [Nat.succ_mul]
  split
  · exact ⟨_, rfl⟩
  · next hnear =>
      split
      · exact ⟨_, rfl⟩
      · next hfar =>
          rw [Bool.eq_false_iff.mpr hfar, Bool.not_false, Bool.true_or,
            Bool.and_true, inReach_iff] at hnear
          rw [inReach_iff] at hfar
          omega

theorem shortest_spec (m : Nat) : ∃ factor power, shortest m = (factor, power) ∧
    -45 ≤ power ∧ onGrid? m power = some factor := by
  have hsome :
      (places.findSome? fun power =>
        (onGrid? m power).map (·, power)).isSome := by
    obtain ⟨factor, hfactor⟩ := exists_onGrid? m
      (show powerOfTen (Int.toNat (-45)) * (4 * unitsOfOne) <
        _ by decide +kernel)
    rw [List.findSome?_isSome_iff]
    refine ⟨-45, by decide, ?_⟩
    rw [hfactor]
    rfl
  obtain ⟨⟨factor, power⟩, hfound⟩ := Option.isSome_iff_exists.mp hsome
  refine ⟨factor, power, by rw [shortest, hfound]; rfl, ?_⟩
  obtain ⟨power', hplace, hgrid⟩ := List.exists_of_findSome?_eq_some hfound
  obtain ⟨factor', hfactor, heq⟩ := Option.map_eq_some_iff.mp hgrid
  obtain ⟨rfl, rfl⟩ := Prod.mk.inj heq
  obtain ⟨i, hi, rfl⟩ := List.mem_map.mp hplace
  rw [List.mem_range] at hi
  exact ⟨by omega, hfactor⟩

/-! ## Reading a multiple of a power of ten -/

namespace Within

variable {num den : Nat}

theorem num_le (h : Within m num den) :
    num ≤ (unitsOf m + spacing m) * den := by
  rw [Nat.add_mul]
  cases h with
  | below hle _ => omega
  | above hle hreach =>
      rw [inReach_iff, reachAbove, Nat.mul_assoc] at hreach
      omega

/-- Zero is too far away from any positive number. -/
theorem num_pos (h : Within m num den) (hpos : 0 < m) (hden : 0 < den) :
    0 < num := by
  have hunits : spacing m * den ≤ unitsOf m * den :=
    Nat.mul_le_mul_right den (spacing_le_unitsOf hpos)
  have hstep : 0 < spacing m * den := Nat.mul_pos (spacing_pos m) hden
  cases h with
  | below hle hreach =>
      have hshort := Nat.mul_le_mul_right den (reachBelow_le m)
      rw [Nat.mul_assoc] at hshort
      rw [inReach_iff] at hreach
      omega
  | above hle _ => omega

end Within

theorem powerOfTen_zero : powerOfTen 0 = 1 := rfl

theorem toNat_min_zero (power : Int) : (min power 0).toNat = 0 := by omega

/-- A multiple that is found is read as the number. -/
theorem ofDecimal_of_onGrid? (hpos : 0 < m) (hm : m < infinityPattern)
    (hpower : -45 ≤ power) (h : onGrid? m power = some factor) :
    ofDecimal false (factor * powerOfTen power.toNat) (min power 0) =
      ofMagnitude false m := by
  have hwithin := onGrid?_within h
  generalize factor * powerOfTen power.toNat = digits at hwithin ⊢
  have hscale : 0 < powerOfTen (-power).toNat := Nat.pow_pos (by decide)
  have hdigits : digits ≠ 0 := by
    rintro rfl
    have := hwithin.num_pos hpos hscale
    omega
  -- Ten to the power of 39 is beyond all numbers.
  have hplace : (Nat.toDigits 10 digits).length ≤ 39 + (-power).toNat := by
    rw [Nat.length_toDigits_le_iff (by decide) (by omega), Nat.pow_add]
    have hle :
        digits * unitsOfOne ≤ 2 ^ 128 * powerOfTen
          (-power).toNat * unitsOfOne := by
      refine Nat.le_trans hwithin.num_le ?_
      rw [Nat.mul_right_comm]
      exact Nat.mul_le_mul_right _ (unitsOf_add_spacing_le hm)
    refine Nat.lt_of_le_of_lt (Nat.le_of_mul_le_mul_right hle (by decide)) ?_
    exact Nat.mul_lt_mul_of_pos_right (by decide) hscale
  have hlength := Nat.length_toDigits_pos (b := 10) (n := digits)
  unfold ofDecimal
  dsimp only
  rw [if_neg (by omega), if_neg (by omega)]
  split
  · next hwhole =>
      have hnone : (-power).toNat = 0 := by omega
      rw [hnone, powerOfTen_zero] at hwithin
      rw [toNat_min_zero, powerOfTen_zero, Nat.mul_one, ofUnits,
        roundUnits_of_within (Nat.le_of_lt hm) (by decide) hwithin]
  · next hpart =>
      have hall : min power 0 = power := by omega
      rw [hall, ofUnits, roundUnits_of_within (Nat.le_of_lt hm) hscale hwithin]

/-! ## Reading the digits -/

theorem digitsValue_eq (digits : List Char) :
    digitsValue digits = Nat.ofDigitChars 10 digits 0 :=
  Nat.ofDigitChars_eq_foldl.symm

/-- A text of digits has this value at this power of ten, with or without a
point. -/
inductive Decimal (digits : Nat) (exponent : Int) : List Char → Prop where
  | whole {ds : List Char} : ds ≠ [] → (∀ c ∈ ds, c.isDigit = true) →
      digitsValue ds = digits → exponent = 0 → Decimal digits exponent ds
  | pointed {ds fs : List Char} : ds ≠ [] → (∀ c ∈ ds, c.isDigit = true) →
      (∀ c ∈ fs, c.isDigit = true) → digitsValue (ds ++ fs) = digits →
      exponent = -(fs.length : Int) → Decimal digits exponent (ds ++ '.' :: fs)

/-- A multiple of a power of ten is written with its value. -/
theorem decimal_positional (factor : Nat) (power : Int) :
    Decimal (factor * powerOfTen power.toNat) (min power 0)
      (positional factor power) := by
  have hdigits : ∀ c ∈ Nat.toDigits 10 factor, c.isDigit = true :=
    fun c hc => Nat.isDigit_of_mem_toDigits (by decide) (by decide) hc
  have hzeros : ∀ k, ∀ c ∈ List.replicate k '0', c.isDigit = true :=
    fun k c hc => by
    rw [List.eq_of_mem_replicate hc]
    rfl
  unfold positional
  dsimp only
  split
  · next hwhole =>
      refine .whole ?_ ?_ ?_ (by omega)
      · exact fun hnil => Nat.toDigits_ne_nil (List.append_eq_nil_iff.mp hnil).1
      · exact fun c hc => (List.mem_append.mp hc).elim (hdigits c) (hzeros _ c)
      · rw [digitsValue_eq, Nat.ofDigitChars_append,
          Nat.ofDigitChars_ten_toDigits, Nat.ofDigitChars_replicate_zero,
          Nat.mul_comm]
        rfl
  · next hpart =>
      generalize hafter : (-power).toNat = after
      generalize hall :
        List.replicate (after + 1 - (Nat.toDigits 10 factor).length) '0' ++
          Nat.toDigits 10 factor = all
      have hlength : after + 1 ≤ all.length := by
        rw [← hall, List.length_append, List.length_replicate]
        omega
      have hmem : ∀ c ∈ all, c.isDigit = true := by
        rw [← hall]
        exact fun c hc => (List.mem_append.mp hc).elim (hzeros _ c) (hdigits c)
      refine .pointed ?_ ?_ ?_ ?_ ?_
      · intro hnil
        have := congrArg List.length hnil
        rw [List.length_take, List.length_nil] at this
        omega
      · exact fun c hc => hmem c (List.mem_of_mem_take hc)
      · exact fun c hc => hmem c (List.mem_of_mem_drop hc)
      · have hnone : power.toNat = 0 := by omega
        rw [List.take_append_drop, ← hall, digitsValue_eq,
          Nat.ofDigitChars_append, Nat.ofDigitChars_replicate_zero,
          Nat.mul_zero, Nat.ofDigitChars_ten_toDigits, hnone, powerOfTen_zero,
          Nat.mul_one]
      · rw [List.length_drop]
        omega

/-- A positive finite number is written as digits that are read as it. -/
theorem exists_decimal (hpos : 0 < m) (hm : m < infinityPattern) :
    ∃ digits exponent, Decimal digits exponent (magnitudeText m) ∧
      ofDecimal false digits exponent = ofMagnitude false m := by
  obtain ⟨factor, power, hshortest, hpower, hgrid⟩ := shortest_spec m
  refine ⟨_, _, ?_, ofDecimal_of_onGrid? hpos hm hpower hgrid⟩
  rw [magnitudeText, if_neg (Nat.ne_of_lt hm),
    if_neg (Nat.pos_iff_ne_zero.mp hpos), hshortest]
  exact decimal_positional factor power

end Reckon.Single
