import Mathlib.Data.List.TakeWhile
import TypedLisp.Number.Literal
import TypedLisp.Proofs.Number.Rounding

namespace TypedLisp

namespace Binary64

theorem ofMagnitude_magnitude (x : Binary64) : ofMagnitude x.isNegative x.magnitude = x := by
  obtain ⟨bits⟩ := x
  have hbits : bits.toNat < 2 ^ 64 := bits.toNat_lt
  simp only [ofMagnitude, isNegative, magnitude, decide_eq_true_eq, mk.injEq]
  have hsum : bits.toNat % signWeight + (if signWeight ≤ bits.toNat then signWeight else 0) =
      bits.toNat := by
    by_cases hnegative : signWeight ≤ bits.toNat
    · rw [if_pos hnegative]
      simp only [signWeight] at *
      omega
    · rw [if_neg hnegative, Nat.add_zero]
      exact Nat.mod_eq_of_lt (Nat.lt_of_not_le hnegative)
  rw [hsum, UInt64.ofNat_toNat]

theorem magnitude_ofMagnitude (negative : Bool) {m : Nat} (h : m < signWeight) :
    (ofMagnitude negative m).magnitude = m := by
  have hbits : m + (if negative then signWeight else 0) < 2 ^ 64 := by
    simp only [signWeight] at h ⊢
    split <;> omega
  rw [magnitude, ofMagnitude, UInt64.toNat_ofNat_of_lt' hbits]
  split
  · rw [Nat.add_mod_right, Nat.mod_eq_of_lt h]
  · exact Nat.mod_eq_of_lt h

theorem isNaN_of_ofLiteral? {cs : List Char} {x : Binary64} (h : ofLiteral? cs = some x) :
    x.isNaN = false := by
  simp only [ofLiteral?] at h
  split at h
  · exact nomatch h
  · obtain ⟨e, -, rfl⟩ := Option.map_eq_some_iff.mp h
    have hle := Decimal.magnitude_le_infiniteMagnitude
      ⟨Nat.ofDigitChars 10 ((Literal.sign cs).2.takeWhile Char.isDigit ++
        (Literal.fraction ((Literal.sign cs).2.dropWhile Char.isDigit)).1) 0,
       e - (Literal.fraction ((Literal.sign cs).2.dropWhile Char.isDigit)).1.length⟩
    have hlt : infiniteMagnitude < signWeight := by decide
    rw [isNaN, magnitude_ofMagnitude _ (Nat.lt_of_le_of_lt hle hlt)]
    simpa using hle

end Binary64

namespace Literal

theorem isDigit_ne {c : Char} (h : c.isDigit = true) : c ≠ '-' ∧ c ≠ '+' ∧ c ≠ '.' := by
  refine ⟨?_, ?_, ?_⟩ <;> rintro rfl <;> exact absurd h (by decide)

theorem sign_of_isDigit {c : Char} (h : c.isDigit = true) (cs : List Char) :
    sign (c :: cs) = (false, c :: cs) := by
  obtain ⟨hminus, hplus, -⟩ := isDigit_ne h
  rw [sign]
  · exact fun _ heq => hminus (List.cons.inj heq).1
  · exact fun _ heq => hplus (List.cons.inj heq).1

/-- Texts in positional notation whose value has the magnitude `m`. -/
inductive Positional (m : Nat) : List Char → Prop where
  | whole {ds : List Char} (hne : ds ≠ []) (hdigits : ∀ c ∈ ds, c.isDigit = true)
      (hm : (Decimal.mk (Nat.ofDigitChars 10 ds 0) 0).magnitude = m) : Positional m ds
  | point {ds places : List Char} (hne : ds ≠ []) (hdigits : ∀ c ∈ ds, c.isDigit = true)
      (hplaces : ∀ c ∈ places, c.isDigit = true)
      (hm : (Decimal.mk (Nat.ofDigitChars 10 (ds ++ places) 0) (-places.length)).magnitude = m) :
      Positional m (ds ++ '.' :: places)

namespace Positional

variable {m : Nat} {cs : List Char}

theorem exists_cons (h : Positional m cs) : ∃ c rest, cs = c :: rest ∧ c.isDigit = true := by
  cases h with
  | whole hne hdigits =>
      obtain ⟨c, rest, rfl⟩ := List.exists_cons_of_ne_nil hne
      exact ⟨c, rest, rfl, hdigits c (by simp)⟩
  | point hne hdigits =>
      obtain ⟨c, rest, rfl⟩ := List.exists_cons_of_ne_nil hne
      exact ⟨c, _, rfl, hdigits c (by simp)⟩

theorem isDigit_or_point (h : Positional m cs) {c : Char} (hc : c ∈ cs) :
    c.isDigit = true ∨ c = '.' := by
  cases h with
  | whole _ hdigits => exact .inl (hdigits c hc)
  | point _ hdigits hplaces =>
      rcases List.mem_append.mp hc with hc | hc
      · exact .inl (hdigits c hc)
      · rcases List.mem_cons.mp hc with rfl | hc
        · exact .inr rfl
        · exact .inl (hplaces c hc)

theorem ofLiteral? (h : Positional m cs) {text : List Char} {negative : Bool}
    (hsign : sign text = (negative, cs)) :
    Binary64.ofLiteral? text = some (Binary64.ofMagnitude negative m) := by
  simp only [Binary64.ofLiteral?, hsign]
  cases h with
  | whole hne hdigits hm =>
      rw [List.takeWhile_eq_self_iff.mpr hdigits, List.dropWhile_eq_nil_iff.mpr hdigits]
      simpa [fraction, exponent?, hne] using congrArg (Binary64.ofMagnitude negative) hm
  | @point ds places hne hdigits hplaces hm =>
      have htake : (ds ++ '.' :: places).takeWhile Char.isDigit = ds := by
        rw [List.takeWhile_append_of_pos hdigits, List.takeWhile_cons_of_neg (by decide),
          List.append_nil]
      have hdrop : (ds ++ '.' :: places).dropWhile Char.isDigit = '.' :: places := by
        rw [List.dropWhile_append_of_pos hdigits, List.dropWhile_cons_of_neg (by decide)]
      have hfraction : fraction ('.' :: places) = (places, []) := by
        rw [fraction, List.takeWhile_eq_self_iff.mpr hplaces, List.dropWhile_eq_nil_iff.mpr hplaces]
      simpa [htake, hdrop, hfraction, exponent?, hne] using
        congrArg (Binary64.ofMagnitude negative) hm

end Positional

theorem isDigit_of_mem_replicate {n : Nat} {c : Char} (h : c ∈ List.replicate n '0') :
    c.isDigit = true := by
  rw [List.eq_of_mem_replicate h]
  decide

theorem positional_zero : Positional 0 ['0'] := by
  have hvalue : Nat.ofDigitChars 10 ['0'] 0 = 0 := by decide
  refine .whole (by simp) (by simp) ?_
  rw [hvalue, Decimal.magnitude, if_pos rfl]

theorem positional_positional (d : Decimal) : Positional d.magnitude d.positional := by
  have hdigits : ∀ c ∈ Nat.toDigits 10 d.coefficient, c.isDigit = true := fun c hc =>
    Nat.isDigit_of_mem_toDigits (by decide) (by decide) hc
  have hlength : 0 < (Nat.toDigits 10 d.coefficient).length :=
    List.length_pos_iff.mpr Nat.toDigits_ne_nil
  have hvalue := Nat.ofDigitChars_ten_toDigits (n := d.coefficient)
  simp only [Decimal.positional]
  generalize Nat.toDigits 10 d.coefficient = ds at *
  split
  next hplaces =>
    refine .whole (by simp; grind) ?_ ?_
    · intro c hc
      rcases List.mem_append.mp hc with hc | hc
      · exact hdigits c hc
      · exact isDigit_of_mem_replicate hc
    · have hexponent : (0 : Int) + d.exponent.toNat = d.exponent := by omega
      rw [Nat.ofDigitChars_append, hvalue, Nat.ofDigitChars_replicate_zero, Nat.mul_comm,
        Decimal.magnitude_mul_pow, hexponent]
  next hplaces =>
    split
    next hshort =>
      refine .point ?_ (fun c hc => hdigits c (List.mem_of_mem_take hc))
        (fun c hc => hdigits c (List.mem_of_mem_drop hc)) ?_
      · apply List.ne_nil_of_length_pos
        rw [List.length_take]
        omega
      · have hexponent :
            -((ds.drop (ds.length - (-d.exponent).toNat)).length : Int) = d.exponent := by
          rw [List.length_drop]
          omega
        rw [List.take_append_drop, hvalue, hexponent]
    next hlong =>
      refine .point (List.cons_ne_nil '0' []) (by simp) ?_ ?_
      · intro c hc
        rcases List.mem_append.mp hc with hc | hc
        · exact isDigit_of_mem_replicate hc
        · exact hdigits c hc
      · have hexponent :
            -((List.replicate ((-d.exponent).toNat - ds.length) '0' ++ ds).length : Int) =
              d.exponent := by
          rw [List.length_append, List.length_replicate]
          omega
        have hzero : Nat.ofDigitChars 10 ['0'] 0 = 0 := by decide
        rw [Nat.ofDigitChars_append, Nat.ofDigitChars_append, hzero,
          Nat.ofDigitChars_replicate_zero, Nat.mul_zero, hvalue, hexponent]

end Literal

namespace Binary64

theorem positional_magnitudeText {m : Nat} (h : m < infiniteMagnitude) :
    Literal.Positional m (magnitudeText m) := by
  rw [magnitudeText, if_neg (Nat.ne_of_lt h)]
  split
  next hzero =>
    rw [hzero]
    exact Literal.positional_zero
  next =>
    have htext (d : Decimal) (hd : d.magnitude = m) :
        Literal.Positional m (Decimal.trimZeros d.coefficient d.exponent).positional := by
      have htrimmed := Decimal.magnitude_trimZeros d.coefficient d.exponent
      rw [hd] at htrimmed
      exact htrimmed ▸ Literal.positional_positional _
    exact htext _ (Shortest.magnitude_digits h)

theorem isFinite_iff {x : Binary64} : x.isFinite = true ↔ x.magnitude < infiniteMagnitude := by
  rw [isFinite, decide_eq_true_eq]

theorem toChars_of_isFinite {x : Binary64} (h : x.isFinite = true) :
    x.toChars = if x.isNegative then '-' :: magnitudeText x.magnitude
      else magnitudeText x.magnitude := by
  have hle : ¬infiniteMagnitude < x.magnitude := Nat.not_lt_of_lt (isFinite_iff.mp h)
  rw [toChars, isNaN, decide_eq_false hle, if_neg Bool.false_ne_true]

/-- The text of a finite number reads back as this number. -/
theorem ofLiteral?_toChars {x : Binary64} (h : x.isFinite = true) :
    ofLiteral? x.toChars = some x := by
  have htext := positional_magnitudeText (isFinite_iff.mp h)
  obtain ⟨c, rest, hcons, hdigit⟩ := htext.exists_cons
  have hsign : Literal.sign x.toChars = (x.isNegative, magnitudeText x.magnitude) := by
    rw [toChars_of_isFinite h]
    cases x.isNegative with
    | true => rfl
    | false => simp only [Bool.false_eq_true, if_false, hcons, Literal.sign_of_isDigit hdigit]
  rw [htext.ofLiteral? hsign, ofMagnitude_magnitude]

theorem toChars_of_isFinite_false {x : Binary64} (h : x.isFinite = false) :
    x.toChars = "NaN".toList ∨ x.toChars = "-inf".toList ∨ x.toChars = "inf".toList := by
  rw [toChars]
  split
  · exact .inl rfl
  · next hnan =>
    have hinfinite : x.magnitude = infiniteMagnitude := by
      simp only [isFinite, isNaN, decide_eq_false_iff_not, decide_eq_true_eq] at h hnan
      omega
    rw [hinfinite, magnitudeText, if_pos rfl]
    split
    · exact .inr (.inl rfl)
    · exact .inr (.inr rfl)

end Binary64

end TypedLisp
