import Reckon.Single.Basic

/-!
# Constants that share a slot

`near` is neither reflexive nor transitive, but it fails to be reflexive for one
reason only: what is not finite is near nothing. So a pool that is asked for a
value a second time either finds what it gave out the first time, or the value
is not finite and gets a slot of its own every time.

The difference that `near` looks at is rounded. Numbers that are exactly 10⁻⁵
apart or farther are not near each other all the same, since rounding does not
pass the tolerance.
-/

namespace Reckon.Single

variable {a b c : Single}

theorem toNat_ofMagnitude {negative : Bool} {m : Nat} (h : m < signBit) :
    (ofMagnitude negative m).bits.toNat =
      if negative then m + signBit else m := by
  unfold signBit at h
  unfold ofMagnitude signBit
  cases negative <;> simp <;> omega

theorem magnitude_ofMagnitude {negative : Bool} {m : Nat} (h : m < signBit) :
    (ofMagnitude negative m).magnitude = m := by
  unfold magnitude
  rw [toNat_ofMagnitude h]
  cases negative
  · simp [Nat.mod_eq_of_lt h]
  · simp [Nat.mod_eq_of_lt h]

theorem isNegative_ofMagnitude {negative : Bool} {m : Nat} (h : m < signBit) :
    (ofMagnitude negative m).isNegative = negative := by
  unfold isNegative
  rw [toNat_ofMagnitude h]
  cases negative with
  | false => simpa using h
  | true => simp

theorem magnitude_lt (a : Single) : a.magnitude < signBit :=
  Nat.mod_lt _ (by decide)

theorem magnitude_neg (a : Single) : (neg a).magnitude = a.magnitude :=
  magnitude_ofMagnitude a.magnitude_lt

theorem isNegative_neg (a : Single) : (neg a).isNegative = !a.isNegative :=
  isNegative_ofMagnitude a.magnitude_lt

theorem magnitude_abs (a : Single) : (abs a).magnitude = a.magnitude :=
  magnitude_ofMagnitude a.magnitude_lt

theorem rank_abs (a : Single) : (abs a).rank = a.magnitude := by
  have hpositive : (abs a).isNegative = false :=
    isNegative_ofMagnitude a.magnitude_lt
  unfold rank
  rw [hpositive, magnitude_abs]
  rfl

theorem near_iff : near a b = true ↔
    (abs (a - b)).isNaN = false ∧ (a - b).magnitude < tolerance.magnitude := by
  have hnumber : tolerance.isNaN = false := by decide +kernel
  have hrank : tolerance.rank = tolerance.magnitude := by decide +kernel
  unfold near lt comparable
  rw [hnumber, rank_abs, hrank]
  simp

theorem isFinite_iff : a.isFinite = true ↔
    a.isNaN = false ∧ a.isInfinite = false := by
  unfold isFinite isNaN isInfinite
  simp only [decide_eq_true_eq, decide_eq_false_iff_not]
  omega

/-- Only finite numbers are near each other. -/
theorem isFinite_of_near (h : near a b = true) :
    a.isFinite = true ∧ b.isFinite = true := by
  obtain ⟨-, hsmall⟩ := near_iff.mp h
  have htolerance : tolerance.magnitude < infinityPattern := by decide +kernel
  have hnan : infinityPattern < nan.magnitude := by decide +kernel
  have hsum : (a - b).magnitude = (add a (neg b)).magnitude := rfl
  rw [hsum] at hsmall
  unfold add at hsmall
  simp only [isFinite_iff]
  -- The difference is too great wherever one of the two is not finite.
  split at hsmall
  · omega
  · next hnumbers =>
      simp only [Bool.or_eq_true, not_or, Bool.not_eq_true] at hnumbers
      split at hsmall
      · next hinfinite =>
          have := of_decide_eq_true hinfinite
          split at hsmall <;> omega
      · next hbounded =>
          split at hsmall
          · next hinfinite =>
              have := of_decide_eq_true hinfinite
              omega
          · next hinfinite =>
              refine ⟨⟨hnumbers.1, Bool.eq_false_iff.mpr hbounded⟩, ?_⟩
              have hneg := Bool.eq_false_iff.mpr hinfinite
              have hnumber := hnumbers.2
              unfold isNaN isInfinite at *
              rw [magnitude_neg] at hneg hnumber
              exact ⟨hnumber, hneg⟩

theorem signedUnits_neg (a : Single) :
    (neg a).signedUnits = -a.signedUnits := by
  unfold signedUnits units
  rw [isNegative_neg, magnitude_neg]
  cases a.isNegative <;> simp

/-- The difference of finite numbers is rounded from that of their units. -/
theorem sub_of_isFinite (ha : a.isFinite = true) (hb : b.isFinite = true) :
    a - b =
      if a.signedUnits - b.signedUnits = 0 then
        ofMagnitude (a.isNegative && !b.isNegative) 0
      else ofUnits (decide (a.signedUnits - b.signedUnits < 0))
        (a.signedUnits - b.signedUnits).natAbs 1 := by
  obtain ⟨hnumber, hbounded⟩ := isFinite_iff.mp ha
  have hneg : (neg b).isNaN = false ∧ (neg b).isInfinite = false := by
    obtain ⟨hnumber, hbounded⟩ := isFinite_iff.mp hb
    unfold isNaN isInfinite at *
    rw [magnitude_neg]
    exact ⟨hnumber, hbounded⟩
  show add a (neg b) = _
  unfold add
  rw [hnumber, hbounded, hneg.1, hneg.2, signedUnits_neg, isNegative_neg]
  rfl

/-- Finite numbers of the same amount are near each other. -/
theorem near_of_signedUnits (ha : a.isFinite = true) (hb : b.isFinite = true)
    (h : a.signedUnits = b.signedUnits) : near a b = true := by
  rw [near_iff, sub_of_isFinite ha hb, if_pos (by rw [h, Int.sub_self])]
  have hzero : ∀ negative, (ofMagnitude negative 0).magnitude = 0 :=
    fun _ => magnitude_ofMagnitude (by decide)
  refine ⟨?_, ?_⟩
  · unfold isNaN
    rw [magnitude_abs, hzero]
    decide
  · rw [hzero]
    decide +kernel

/-- What is finite is near itself. -/
theorem near_self (h : a.isFinite = true) : near a a = true :=
  near_of_signedUnits h h rfl

theorem magnitude_ofUnits (negative : Bool) (num den : Nat) :
    (ofUnits negative num den).magnitude = roundUnits num den :=
  magnitude_ofMagnitude (Nat.lt_of_le_of_lt (Nat.min_le_right ..) (by decide))

theorem magnitude_sub (ha : a.isFinite = true) (hb : b.isFinite = true) :
    (a - b).magnitude =
      roundUnits (a.signedUnits - b.signedUnits).natAbs 1 := by
  rw [sub_of_isFinite ha hb]
  split
  · next hzero =>
      rw [magnitude_ofMagnitude (by decide), hzero]
      decide
  · exact magnitude_ofUnits ..

/-- A number is as far from another as that one is from it. -/
theorem near_symm (h : near a b = true) : near b a = true := by
  obtain ⟨ha, hb⟩ := isFinite_of_near h
  have hmagnitude : (b - a).magnitude = (a - b).magnitude := by
    rw [magnitude_sub hb ha, magnitude_sub ha hb, ← Int.natAbs_neg, Int.neg_sub]
  rw [near_iff, isNaN, magnitude_abs] at h ⊢
  rw [hmagnitude]
  exact h

/-! ## Equal constants -/

theorem eq_iff : eq a b = true ↔
    a.isNaN = false ∧ b.isNaN = false ∧ a.rank = b.rank := by
  unfold eq comparable
  simp only [Bool.and_eq_true, Bool.not_eq_true', decide_eq_true_eq, and_assoc]

theorem eq_trans (hab : eq a b = true) (hbc : eq b c = true) :
    eq a c = true := by
  obtain ⟨ha, -, hleft⟩ := eq_iff.mp hab
  obtain ⟨-, hc, hright⟩ := eq_iff.mp hbc
  exact eq_iff.mpr ⟨ha, hc, hleft.trans hright⟩

theorem eq_symm (h : eq a b = true) : eq b a = true := by
  obtain ⟨ha, hb, hrank⟩ := eq_iff.mp h
  exact eq_iff.mpr ⟨hb, ha, hrank.symm⟩

/-- Equal numbers differ in the sign of a zero at most. -/
theorem rank_eq_iff : a.rank = b.rank ↔ a.magnitude = b.magnitude ∧
    (a.isNegative = b.isNegative ∨ a.magnitude = 0) := by
  unfold rank
  cases a.isNegative <;> cases b.isNegative <;> simp <;> omega

theorem near_of_eq (h : eq a b = true) (hb : b.isFinite = true) :
    near a b = true := by
  obtain ⟨hmagnitude, hsign⟩ := rank_eq_iff.mp (eq_iff.mp h).2.2
  have ha : a.isFinite = true := by
    unfold isFinite at hb ⊢
    rwa [hmagnitude]
  refine near_of_signedUnits ha hb ?_
  unfold signedUnits units
  rcases hsign with hsign | hzero
  · rw [hsign, hmagnitude]
  · rw [← hmagnitude, hzero]
    cases a.isNegative <;> cases b.isNegative <;> rfl

theorem ext_iff : a = b ↔
    a.magnitude = b.magnitude ∧ a.isNegative = b.isNegative := by
  refine ⟨fun h => h ▸ ⟨rfl, rfl⟩, fun ⟨hmagnitude, hsign⟩ => ?_⟩
  have ha := a.bits.toNat_lt
  have hb := b.bits.toNat_lt
  unfold magnitude signBit at hmagnitude
  unfold isNegative signBit at hsign
  have hbits : a.bits.toNat = b.bits.toNat := by
    rw [decide_eq_decide] at hsign
    omega
  cases a
  cases b
  exact congrArg _ (UInt32.toNat_inj.mp hbits)

/-- Nothing but one is equal to one. -/
theorem eq_one (h : eq a one = true) : a = one := by
  obtain ⟨hmagnitude, hsign⟩ := rank_eq_iff.mp (eq_iff.mp h).2.2
  have hone : one.magnitude ≠ 0 := by decide
  refine ext_iff.mpr ⟨hmagnitude, hsign.resolve_right fun hzero => ?_⟩
  exact hone (hmagnitude.symm.trans hzero)

/-! ## Constants that do not share a slot -/

/-- The numbers are at least 10⁻⁵ apart. What is not finite is far from
everything. -/
def Apart (a b : Single) : Prop :=
  a.isFinite = true → b.isFinite = true →
    unitsOfOne ≤ 100000 * (a.signedUnits - b.signedUnits).natAbs

instance (a b : Single) : Decidable (Apart a b) :=
  inferInstanceAs (Decidable (_ → _ → _ ≤ _))

theorem div_le_roundHalfEven (num den : Nat) :
    num / den ≤ roundHalfEven num den := by
  unfold roundHalfEven
  simp only []
  split
  · exact Nat.le_refl _
  · split <;> omega

/-- A finite pattern is made of its leading bits and their scale. -/
theorem exists_scale (m : Nat) : ∃ leading scale,
    m = leading + scale * fractions ∧ unitsOf m = leading <<< scale ∧
      leading < 2 * fractions ∧ (scale = 0 ∨ fractions ≤ leading) := by
  have hsplit := Nat.div_add_mod m fractions
  have hmod : m % fractions < fractions := Nat.mod_lt _ (by decide)
  unfold unitsOf
  simp only []
  rw [Nat.mul_comm] at hsplit
  split
  · next hzero =>
      rw [hzero, Nat.zero_mul, Nat.zero_add] at hsplit
      exact ⟨m % fractions, 0, by omega, by simp, by omega, .inl rfl⟩
  · next hscale =>
      obtain ⟨scale, hsucc⟩ := Nat.exists_eq_succ_of_ne_zero hscale
      rw [hsucc, Nat.succ_mul] at hsplit
      refine ⟨fractions + m % fractions,
        scale, by omega, ?_, by omega, .inr (by omega)⟩
      rw [hsucc]
      rfl

/-- Rounding does not pass a pattern. -/
theorem le_roundUnits {m n : Nat} (hm : m ≤ infinityPattern)
    (h : unitsOf m ≤ n) : m ≤ roundUnits n 1 := by
  obtain ⟨leading, scale, hpattern, hunits, hleading, hnormal⟩ := exists_scale m
  rw [hunits, Nat.shiftLeft_eq] at h
  refine Nat.le_min.mpr ⟨?_, hm⟩
  rw [Nat.div_one, Nat.one_shiftLeft, hpattern]
  generalize hkept : Nat.log2 n - 23 = kept
  have hfloor := div_le_roundHalfEven n (2 ^ kept)
  have hscale : scale ≤ kept := by
    rcases hnormal with rfl | hnormal
    · exact Nat.zero_le _
    · have hle : 2 ^ (23 + scale) ≤ n := by
        rw [Nat.pow_add]
        exact Nat.le_trans (Nat.mul_le_mul_right _ hnormal) h
      have hne : n ≠ 0 := fun hzero => by
        have := Nat.two_pow_pos (23 + scale)
        omega
      have := (Nat.le_log2 hne).mpr hle
      omega
  rcases Nat.eq_or_lt_of_le hscale with rfl | hlt
  · have hle := (Nat.le_div_iff_mul_le (Nat.two_pow_pos scale)).mpr h
    omega
  · -- What is kept at a greater scale outweighs all leading bits.
    have hlog : Nat.log2 n = 23 + kept := by omega
    have hne : n ≠ 0 := by
      rintro rfl
      rw [Nat.log2_zero] at hlog
      omega
    have hself := Nat.log2_self_le hne
    rw [hlog, Nat.pow_add] at hself
    have hle := (Nat.le_div_iff_mul_le (Nat.two_pow_pos kept)).mpr hself
    have hmore := Nat.mul_le_mul_right fractions (Nat.succ_le_of_lt hlt)
    rw [Nat.succ_mul] at hmore
    have hfractions : fractions = 2 ^ 23 := rfl
    omega

/-- Numbers that are far from each other do not share a slot. -/
theorem near_of_apart (h : Apart a b) : near a b = false := by
  refine Bool.eq_false_iff.mpr fun hnear => ?_
  obtain ⟨ha, hb⟩ := isFinite_of_near hnear
  have hfar := h ha hb
  have htolerance : 100000 * unitsOf tolerance.magnitude ≤ unitsOfOne := by
    decide +kernel
  have hunits :=
    Nat.le_of_mul_le_mul_left (Nat.le_trans htolerance hfar) (by decide)
  have hrounded := le_roundUnits (by decide +kernel) hunits
  obtain ⟨-, hsmall⟩ := near_iff.mp hnear
  rw [magnitude_sub ha hb] at hsmall
  omega

end Reckon.Single
