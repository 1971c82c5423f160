import Mathlib.Tactic.Ring
import TypedLisp.Number.Shortest

namespace TypedLisp

namespace Binary64

theorem exponentWeight_eq : exponentWeight = 2 ^ 52 := by
  decide

theorem roundDiv_mul_right (n d : Nat) {k : Nat} (hk : 0 < k) :
    roundDiv (n * k) (d * k) = roundDiv n d := by
  have hless : 2 * (n % d * k) < d * k ↔ 2 * (n % d) < d := by
    rw [← Nat.mul_assoc]
    exact Nat.mul_lt_mul_right hk
  have hmore : d * k < 2 * (n % d * k) ↔ d < 2 * (n % d) := by
    rw [← Nat.mul_assoc]
    exact Nat.mul_lt_mul_right hk
  simp only [roundDiv, Nat.mul_div_mul_right _ _ hk, Nat.mul_mod_mul_right, hless, hmore]

theorem roundDiv_mul_self (q : Nat) {d : Nat} (hd : 0 < d) : roundDiv (q * d) d = q := by
  simp [roundDiv, Nat.mul_div_cancel _ hd, hd]

theorem div_le_roundDiv (n d : Nat) : n / d ≤ roundDiv n d := by
  simp only [roundDiv]
  split
  · exact Nat.le_refl _
  · split
    · exact Nat.le_succ _
    · split
      · exact Nat.le_refl _
      · exact Nat.le_succ _

theorem roundDiv_eq_zero {n d : Nat} (h : 2 * n < d) : roundDiv n d = 0 := by
  have hlt : n < d := by omega
  simp [roundDiv, Nat.mod_eq_of_lt hlt, Nat.div_eq_of_lt hlt, h]

theorem nearest_le_infiniteMagnitude (n d : Nat) : nearest n d ≤ infiniteMagnitude :=
  Nat.min_le_right _ _

theorem nearest_mul_right (n d : Nat) {k : Nat} (hk : 0 < k) :
    nearest (n * k) (d * k) = nearest n d := by
  have hshift (a s : Nat) : (a * k) <<< s = a <<< s * k := by
    simp only [Nat.shiftLeft_eq, Nat.mul_right_comm]
  simp only [nearest, hshift, Nat.mul_div_mul_right _ _ hk, roundDiv_mul_right _ _ hk]

theorem nearest_congr {n d n' d' : Nat} (hd : 0 < d) (hd' : 0 < d') (h : n * d' = n' * d) :
    nearest n d = nearest n' d' := by
  calc nearest n d
      = nearest (n * d') (d * d') := (nearest_mul_right n d hd').symm
    _ = nearest (n' * d) (d' * d) := by rw [h, Nat.mul_comm d d']
    _ = nearest n' d' := nearest_mul_right n' d' hd

theorem log2_eq_of_bounds {n k : Nat} (hlow : 2 ^ k ≤ n) (hhigh : n < 2 ^ (k + 1)) : n.log2 = k := by
  have hne : n ≠ 0 := by
    have := Nat.two_pow_pos k
    omega
  exact (Nat.log2_eq_iff hne).mpr ⟨hlow, hhigh⟩

theorem significand_bounds {m : Nat} (h : 2 * exponentWeight ≤ m) :
    exponentWeight ≤ significand m ∧ significand m < 2 * exponentWeight := by
  simp only [significand, scale, exponentWeight] at *
  omega

theorem scale_mul_add_significand (m : Nat) : scale m * exponentWeight + significand m = m := by
  simp only [significand, scale, exponentWeight]
  omega

theorem log2_units (m : Nat) : (units m).log2 - 52 = scale m := by
  by_cases hm : 2 * exponentWeight ≤ m
  · obtain ⟨hlow, hhigh⟩ := significand_bounds hm
    rw [exponentWeight_eq] at hlow hhigh
    have hlog : (units m).log2 = 52 + scale m := by
      apply log2_eq_of_bounds
      · rw [units, Nat.shiftLeft_eq, Nat.pow_add]
        exact Nat.mul_le_mul_right _ hlow
      · have hpow : 2 ^ (52 + scale m + 1) = 2 * 2 ^ 52 * 2 ^ scale m := by ring
        rw [units, Nat.shiftLeft_eq, hpow]
        exact Nat.mul_lt_mul_of_pos_right hhigh (Nat.two_pow_pos _)
    omega
  · have hscale : scale m = 0 := by
      simp only [scale, exponentWeight] at *
      omega
    have hunits : units m = m := by
      simp [units, significand, hscale]
    have hlog : m.log2 < 53 := by
      by_cases hzero : m = 0
      · simp [hzero]
      · rw [Nat.log2_lt hzero]
        simp only [exponentWeight] at hm
        omega
    rw [hunits, hscale]
    omega

/-- The magnitude nearest to the value of a finite magnitude is that magnitude. -/
theorem nearest_units {m : Nat} (h : m < infiniteMagnitude) : nearest (units m) (2 ^ 1074) = m := by
  rw [nearest]
  -- Nothing depends on where the unit lies, and its power is better not computed.
  generalize 1074 = k
  have hpos : 0 < 2 ^ k := Nat.two_pow_pos k
  have hquotient : units m <<< k / 2 ^ k = units m := by
    rw [Nat.shiftLeft_eq, Nat.mul_div_cancel _ hpos]
  have hexact : units m <<< k = significand m * (2 ^ k <<< scale m) := by
    simp only [units, Nat.shiftLeft_eq]
    ring
  have hstep : 0 < 2 ^ k <<< scale m := by
    rw [Nat.shiftLeft_eq]
    exact Nat.mul_pos hpos (Nat.two_pow_pos _)
  simp only [hquotient, log2_units]
  rw [hexact, roundDiv_mul_self _ hstep, scale_mul_add_significand]
  exact Nat.min_eq_left (Nat.le_of_lt h)

theorem nearest_zero_left (d : Nat) (hd : 0 < d) : nearest 0 d = 0 := by
  simp [nearest, roundDiv, hd]

theorem nearest_of_le {n d k : Nat} (hd : 0 < d) (hk : 1024 ≤ k) (h : 2 ^ k * d ≤ n) :
    nearest n d = infiniteMagnitude := by
  rw [nearest]
  generalize hunit : 1074 = unit
  have hlarge : 2 ^ (k + unit) ≤ n <<< unit / d := by
    rw [Nat.le_div_iff_mul_le hd, Nat.shiftLeft_eq, Nat.pow_add, Nat.mul_right_comm]
    exact Nat.mul_le_mul_right _ h
  generalize n <<< unit = scaled at *
  have hne : scaled / d ≠ 0 := Nat.ne_of_gt (Nat.lt_of_lt_of_le (Nat.two_pow_pos _) hlarge)
  have hlog : k + unit ≤ (scaled / d).log2 := (Nat.le_log2 hne).mpr hlarge
  have hself : 2 ^ (scaled / d).log2 ≤ scaled / d := Nat.log2_self_le hne
  generalize hs : (scaled / d).log2 - 52 = s
  have hsplit : (scaled / d).log2 = 52 + s := by omega
  have hround : 2 ^ 52 ≤ roundDiv scaled (d <<< s) := by
    refine Nat.le_trans ?_ (div_le_roundDiv _ _)
    rw [Nat.shiftLeft_eq, ← Nat.div_div_eq_div_mul, Nat.le_div_iff_mul_le (Nat.two_pow_pos s),
      ← Nat.pow_add, ← hsplit]
    exact hself
  apply Nat.min_eq_right
  simp only [infiniteMagnitude, exponentWeight] at *
  omega

theorem nearest_of_lt {n d : Nat} (h : 2 * (n <<< 1074) < d) : nearest n d = 0 := by
  have hzero : n <<< 1074 / d = 0 := Nat.div_eq_of_lt (by omega)
  simp [nearest, hzero, roundDiv_eq_zero h]

end Binary64

namespace Decimal

theorem denominator_pos (d : Decimal) : 0 < d.denominator :=
  Nat.pow_pos (by decide)

theorem nearest_of_overflow {d : Decimal} (hpos : d.coefficient ≠ 0) (h : 310 < d.exponent) :
    Binary64.nearest d.numerator d.denominator = Binary64.infiniteMagnitude := by
  have hden : d.denominator = 1 := by
    have : (-d.exponent).toNat = 0 := by omega
    simp [denominator, this]
  obtain ⟨k, hk, hexponent⟩ : ∃ k : Nat, 31 ≤ k ∧ 10 * k + 1 ≤ d.exponent.toNat :=
    ⟨31, by decide, by omega⟩
  apply Binary64.nearest_of_le (k := 33 * k + 1) d.denominator_pos (by omega)
  rw [hden, Nat.mul_one]
  calc 2 ^ (33 * k + 1)
      = (2 ^ 33) ^ k * 2 := by rw [Nat.pow_succ, Nat.pow_mul]
    _ ≤ (10 ^ 10) ^ k * 10 := Nat.mul_le_mul (Nat.pow_le_pow_left (by decide) k) (by decide)
    _ = 10 ^ (10 * k + 1) := by rw [← Nat.pow_mul, ← Nat.pow_succ]
    _ ≤ 10 ^ d.exponent.toNat := Nat.pow_le_pow_right (by decide) hexponent
    _ ≤ d.coefficient * 10 ^ d.exponent.toNat := Nat.le_mul_of_pos_left _ (Nat.pos_of_ne_zero hpos)

theorem nearest_of_underflow {d : Decimal} (h : (d.coefficient.log2 : Int) + 400 < -d.exponent) :
    Binary64.nearest d.numerator d.denominator = 0 := by
  have hnum : d.numerator = d.coefficient := by
    have : d.exponent.toNat = 0 := by omega
    simp [numerator, this]
  obtain ⟨k, hk⟩ : ∃ k : Nat, k = (-d.exponent).toNat := ⟨_, rfl⟩
  have hexponent : d.coefficient.log2 + 1 + (1074 + 1) ≤ 3 * k := by omega
  apply Binary64.nearest_of_lt
  rw [hnum, Nat.shiftLeft_eq]
  generalize 1074 = unit at hexponent ⊢
  calc 2 * (d.coefficient * 2 ^ unit)
      = d.coefficient * 2 ^ (unit + 1) := by ring
    _ < 2 ^ (d.coefficient.log2 + 1) * 2 ^ (unit + 1) :=
        Nat.mul_lt_mul_of_pos_right Nat.lt_log2_self (Nat.two_pow_pos _)
    _ = 2 ^ (d.coefficient.log2 + 1 + (unit + 1)) := (Nat.pow_add _ _ _).symm
    _ ≤ 2 ^ (3 * k) := Nat.pow_le_pow_right (by decide) hexponent
    _ = 8 ^ k := by rw [Nat.pow_mul]
    _ ≤ 10 ^ k := Nat.pow_le_pow_left (by decide) k
    _ = d.denominator := by rw [hk]; rfl

/-- The two shortcuts decide as the quotient would. -/
theorem magnitude_eq_nearest (d : Decimal) :
    d.magnitude = Binary64.nearest d.numerator d.denominator := by
  rw [magnitude]
  split
  next hzero => simp [numerator, hzero, Binary64.nearest_zero_left _ d.denominator_pos]
  next hpos =>
    split
    next hover => exact (nearest_of_overflow hpos hover).symm
    next =>
      split
      next hunder => exact (nearest_of_underflow hunder).symm
      next => rfl

theorem magnitude_le_infiniteMagnitude (d : Decimal) :
    d.magnitude ≤ Binary64.infiniteMagnitude := by
  rw [magnitude_eq_nearest]
  exact Binary64.nearest_le_infiniteMagnitude _ _

theorem magnitude_congr {d d' : Decimal}
    (h : d.numerator * d'.denominator = d'.numerator * d.denominator) :
    d.magnitude = d'.magnitude := by
  rw [magnitude_eq_nearest, magnitude_eq_nearest]
  exact Binary64.nearest_congr d.denominator_pos d'.denominator_pos h

theorem magnitude_mul_pow (c k : Nat) (e : Int) :
    (Decimal.mk (c * 10 ^ k) e).magnitude = (Decimal.mk c (e + k)).magnitude := by
  have hexponent : k + e.toNat + (-(e + k)).toNat = (e + k).toNat + (-e).toNat := by omega
  apply magnitude_congr
  show c * 10 ^ k * 10 ^ e.toNat * 10 ^ (-(e + k)).toNat = c * 10 ^ (e + k).toNat * 10 ^ (-e).toNat
  calc c * 10 ^ k * 10 ^ e.toNat * 10 ^ (-(e + k)).toNat
      = c * 10 ^ (k + e.toNat + (-(e + k)).toNat) := by ring
    _ = c * 10 ^ ((e + k).toNat + (-e).toNat) := by rw [hexponent]
    _ = c * 10 ^ (e + k).toNat * 10 ^ (-e).toNat := by ring

theorem magnitude_trimZeros (c : Nat) (e : Int) :
    (trimZeros c e).magnitude = (Decimal.mk c e).magnitude := by
  fun_induction trimZeros c e with
  | case1 c e h ih =>
      have hsplit : c / 10 * 10 ^ 1 = c := by omega
      rw [ih]
      conv_rhs => rw [← hsplit]
      exact (magnitude_mul_pow (c / 10) 1 e).symm
  | case2 => rfl

end Decimal

namespace Shortest

theorem magnitude_of_withDigits? {m count : Nat} {e : Int} {d : Decimal}
    (h : withDigits? m e count = some d) : d.magnitude = m := by
  rw [withDigits?] at h
  split at h
  next hlower =>
    split at h
    next hupper => exact Option.some.inj h ▸ hupper.1
    next => exact Option.some.inj h ▸ hlower
  next =>
    split at h
    next hupper => exact Option.some.inj h ▸ hupper
    next => exact nomatch h

theorem magnitude_mul_five_pow (u k : Nat) :
    (Decimal.mk (u * Nat.pow 5 k) (-(k : Int))).magnitude = Binary64.nearest u (2 ^ k) := by
  have hnumerator : (Decimal.mk (u * Nat.pow 5 k) (-(k : Int))).numerator = u * 5 ^ k := by
    simp [Decimal.numerator]
  have hdenominator : (Decimal.mk (u * Nat.pow 5 k) (-(k : Int))).denominator = 2 ^ k * 5 ^ k := by
    simp [Decimal.denominator, ← Nat.mul_pow]
  rw [Decimal.magnitude_eq_nearest, hnumerator, hdenominator]
  exact Binary64.nearest_mul_right _ _ (Nat.pow_pos (by decide))

theorem magnitude_allDigits {m : Nat} (h : m < Binary64.infiniteMagnitude) :
    (allDigits m).magnitude = m := by
  have hexponent : (-1074 : Int) = -((1074 : Nat) : Int) := rfl
  rw [allDigits, hexponent, magnitude_mul_five_pow (Binary64.units m) 1074]
  exact Binary64.nearest_units h

theorem magnitude_digits {m : Nat} (h : m < Binary64.infiniteMagnitude) :
    (digits m).magnitude = m := by
  rw [digits]
  cases hfound : (List.range' 1 17).findSome? (withDigits? m (decade m)) with
  | none => exact magnitude_allDigits h
  | some d =>
      obtain ⟨count, -, hcount⟩ := List.exists_of_findSome?_eq_some hfound
      exact magnitude_of_withDigits? hcount

end Shortest

end TypedLisp
