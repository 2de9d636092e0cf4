import VerbScript.Number.Shortest
import VerbScript.Proofs.Number.Rounding

/-!
# VerbScript.Proofs.Number.Decimals

Decimals and their positional form.

The number nearest to a decimal depends on its value only (`Decimal.nearestBits_congr`): the cases
that keep the powers of ten small agree with the general one (`Decimal.nearestBits_eq`). A decimal
in positional form is read as a decimal of the same value (`Decimal.ofText?_positional`), and the
shortest decimal of some units is nearest to what the units are rounded to
(`Decimal.nearestBits_shortest`).
-/

namespace VerbScript

namespace Decimal

/-! ## The value of a decimal -/

theorem two_pow_le_ten_pow {a b : Nat} (n : Nat) (ha : a ≤ 205 * n) (hb : 62 * n ≤ b) :
    2 ^ a ≤ 10 ^ b :=
  calc 2 ^ a
    _ ≤ 2 ^ (205 * n) := Nat.pow_le_pow_right (by decide) ha
    _ = (2 ^ 205) ^ n := Nat.pow_mul ..
    _ ≤ (10 ^ 62) ^ n := Nat.pow_le_pow_left (by decide) n
    _ = 10 ^ (62 * n) := (Nat.pow_mul ..).symm
    _ ≤ 10 ^ b := Nat.pow_le_pow_right (by decide) hb

/-- How many units make one. The exponent has a name here, so that nothing computes the power. -/
theorem exists_one_eq : ∃ k, k = 1074 ∧ Exact.one = 2 ^ k := ⟨1074, rfl, by decide +kernel⟩

theorem ofUnits_eq {k : Nat} (hk : k = 1074) (units : Nat) :
    ofUnits units = ⟨units * Nat.pow 5 k, -k⟩ := by
  unfold ofUnits
  rw [← hk]
  exact congrArg (mk _) (by omega)

theorem nearestBits_large {coefficient exponent : Nat} (hcoefficient : coefficient ≠ 0)
    (hexponent : 310 ≤ exponent) :
    Exact.nearestBits (coefficient * 10 ^ exponent * Exact.one) 1 = Exact.infinityBits := by
  obtain ⟨k, hk, hone⟩ := exists_one_eq
  have hlarge : ∀ m ≤ 1025, 2 ^ (m + k) ≤ coefficient * 10 ^ exponent * Exact.one := by
    intro m hm
    rw [hone, Nat.pow_add]
    refine Nat.mul_le_mul_right _ (Nat.le_trans (two_pow_le_ten_pow 5 hm hexponent) ?_)
    exact Nat.le_mul_of_pos_left _ (Nat.pos_of_ne_zero hcoefficient)
  have hne : coefficient * 10 ^ exponent * Exact.one ≠ 0 :=
    Nat.ne_of_gt (Nat.lt_of_lt_of_le (Nat.two_pow_pos _) (hlarge 0 (by decide)))
  have hlog := (Nat.le_log2 hne).2 (hlarge 1024 (by decide))
  refine Exact.nearestBits_eq_infinityBits ?_
  rw [Nat.div_one]
  omega

theorem nearestBits_small {coefficient places : Nat} (hplaces : 401 + coefficient.log2 ≤ places) :
    Exact.nearestBits (coefficient * Exact.one) (10 ^ places) = 0 := by
  obtain ⟨k, hk, hone⟩ := exists_one_eq
  refine Exact.nearestBits_eq_zero ?_
  calc 2 * (coefficient * Exact.one)
    _ < 2 * (2 ^ (coefficient.log2 + 1) * Exact.one) :=
        Nat.mul_lt_mul_of_pos_left
          (Nat.mul_lt_mul_of_pos_right Nat.lt_log2_self (hone ▸ Nat.two_pow_pos k)) (by decide)
    _ = 2 ^ (k + 2) * 2 ^ coefficient.log2 := by
        rw [hone, ← Nat.pow_add, ← Nat.pow_succ', ← Nat.pow_add]
        exact congrArg (2 ^ ·) (by omega)
    _ ≤ 10 ^ 401 * 10 ^ coefficient.log2 :=
        Nat.mul_le_mul (two_pow_le_ten_pow 6 (by omega) (by omega))
          (Nat.pow_le_pow_left (by decide) _)
    _ ≤ 10 ^ places := by
        rw [← Nat.pow_add]
        exact Nat.pow_le_pow_right (by decide) hplaces

/-- The number nearest to a decimal is that nearest to its value as a fraction. -/
theorem nearestBits_eq (d : Decimal) :
    d.nearestBits =
      Exact.nearestBits (d.coefficient * 10 ^ d.exponent.toNat * Exact.one)
        (10 ^ (-d.exponent).toNat) := by
  obtain ⟨coefficient, exponent⟩ := d
  simp only [nearestBits, Nat.pow_eq]
  split
  · rename_i hzero
    rw [hzero, Nat.zero_mul, Nat.zero_mul, Exact.nearestBits_eq_zero]
    exact Nat.pow_pos (by decide)
  rename_i hcoefficient
  split
  · rename_i hlarge
    have hden : (-exponent).toNat = 0 := by omega
    rw [hden, Nat.pow_zero, nearestBits_large hcoefficient (by omega)]
  split
  · rename_i hsmall
    have hnum : exponent.toNat = 0 := by omega
    rw [hnum, Nat.pow_zero, Nat.mul_one, nearestBits_small (by omega)]
  split
  · have hden : (-exponent).toNat = 0 := by omega
    rw [hden, Nat.pow_zero]
  · have hnum : exponent.toNat = 0 := by omega
    rw [hnum, Nat.pow_zero, Nat.mul_one]

theorem nearestBits_le (d : Decimal) : d.nearestBits ≤ Exact.infinityBits := by
  rw [nearestBits_eq]
  exact Exact.nearestBits_le ..

/-- Two decimals have the same value. -/
def SameValue (d d' : Decimal) : Prop :=
  d.coefficient * 10 ^ d.exponent.toNat * 10 ^ (-d'.exponent).toNat =
    d'.coefficient * 10 ^ d'.exponent.toNat * 10 ^ (-d.exponent).toNat

theorem nearestBits_congr {d d' : Decimal} (h : SameValue d d') :
    d.nearestBits = d'.nearestBits := by
  rw [nearestBits_eq, nearestBits_eq]
  refine Exact.nearestBits_congr (Nat.pow_pos (by decide)) (Nat.pow_pos (by decide)) ?_
  rw [Nat.mul_right_comm, h, Nat.mul_right_comm]

/-- A natural number as a decimal. -/
theorem nearestBits_natural (n : Nat) :
    nearestBits ⟨n, 0⟩ = Exact.nearestBits (n * Exact.one) 1 := by
  rw [nearestBits_eq]
  simp

/-! ## Digits -/

theorem ofDigits_append (front back : List Char) :
    ofDigits (front ++ back) = ofDigits front * 10 ^ back.length + ofDigits back := by
  have happend := @Nat.ofDigitChars_append 10 front back 0
  rw [@Nat.ofDigitChars_eq_ofDigitChars_zero back, Nat.mul_comm] at happend
  exact happend

theorem ofDigits_toDigits (n : Nat) : ofDigits (Nat.toDigits 10 n) = n :=
  Nat.ofDigitChars_ten_toDigits

theorem isDigit_of_mem_toDigits {n : Nat} : ∀ c ∈ Nat.toDigits 10 n, c.isDigit = true :=
  fun _ => Nat.isDigit_of_mem_toDigits (by decide) (by decide)

theorem ofDigits_zeros (count : Nat) : ofDigits (List.replicate count '0') = 0 :=
  (@Nat.ofDigitChars_replicate_zero 10 0 count).trans (Nat.mul_zero _)

theorem length_lastDigits (width n : Nat) : (lastDigits width n).length = width := by
  induction width generalizing n with
  | zero => rfl
  | succ width ih => rw [lastDigits, List.length_append, ih, List.length_singleton]

theorem isDigit_of_mem_lastDigits {width n : Nat} :
    ∀ c ∈ lastDigits width n, c.isDigit = true := by
  induction width generalizing n with
  | zero =>
    intro c hc
    cases hc
  | succ width ih =>
    intro c hc
    rcases List.mem_append.1 hc with hc | hc
    · exact ih c hc
    · rw [List.mem_singleton.1 hc, Nat.isDigit_digitChar]
      exact decide_eq_true (Nat.mod_lt n (by decide))

theorem ofDigits_lastDigits (width n : Nat) : ofDigits (lastDigits width n) = n % 10 ^ width := by
  induction width generalizing n with
  | zero => rw [Nat.pow_zero, Nat.mod_one]; rfl
  | succ width ih =>
    have hlast : ofDigits [Nat.digitChar (n % 10)] = n % 10 := by
      have hchar := @Nat.ofDigitChars_cons_digitChar_of_lt_ten 10 (n % 10)
        (Nat.mod_lt n (by decide)) [] 0
      rw [Nat.ofDigitChars_nil, Nat.mul_zero, Nat.zero_add] at hchar
      exact hchar
    rw [lastDigits, ofDigits_append, ih, hlast, List.length_singleton, Nat.pow_one, Nat.pow_succ',
      Nat.mod_mul, Nat.mul_comm, Nat.add_comm]

/-! ## Reading the positional form -/

/-- Digits alone are read as a natural number. -/
theorem ofText?_digits {text : List Char} (hne : text ≠ []) (h : ∀ c ∈ text, c.isDigit = true) :
    ofText? text = some ⟨ofDigits text, 0⟩ := by
  have htake : text.takeWhile Char.isDigit = text := List.takeWhile_eq_self_iff.2 h
  have hdrop : text.dropWhile Char.isDigit = [] := List.dropWhile_eq_nil_iff.2 h
  simp [ofText?, htake, hdrop, splitFraction, exponent?, hne]

theorem ofText?_point {whole fraction : List Char} (hne : whole ≠ [])
    (hwhole : ∀ c ∈ whole, c.isDigit = true) (hfraction : ∀ c ∈ fraction, c.isDigit = true) :
    ofText? (whole ++ '.' :: fraction) =
      some ⟨ofDigits (whole ++ fraction), -fraction.length⟩ := by
  have hpoint : ('.' : Char).isDigit = false := by decide
  have htake : (whole ++ '.' :: fraction).takeWhile Char.isDigit = whole := by
    rw [List.takeWhile_append_of_pos hwhole, List.takeWhile_cons_of_neg (by simp [hpoint]),
      List.append_nil]
  have hdrop : (whole ++ '.' :: fraction).dropWhile Char.isDigit = '.' :: fraction := by
    rw [List.dropWhile_append_of_pos hwhole, List.dropWhile_cons_of_neg (by simp [hpoint])]
  have hsplit : splitFraction ('.' :: fraction) = (fraction, []) := by
    rw [splitFraction, List.takeWhile_eq_self_iff.2 hfraction,
      List.dropWhile_eq_nil_iff.2 hfraction]
  simp [ofText?, htake, hdrop, hsplit, exponent?, hne]

/-- Zeros at the end of a text are the characters that are dropped there. -/
theorem exists_zeros (text : List Char) :
    ∃ count, text = Text.dropFinal (· = '0') text ++ List.replicate count '0' := by
  have hsplit : text.rdropWhile (· = '0') ++ text.rtakeWhile (· = '0') = text :=
    List.rdropWhile_append_rtakeWhile
  refine ⟨(text.rtakeWhile (· = '0')).length, ?_⟩
  have hzeros : text.rtakeWhile (· = '0') =
      List.replicate (text.rtakeWhile (· = '0')).length '0' := by
    refine List.eq_replicate_iff.2 ⟨rfl, fun c hc => ?_⟩
    simpa using List.mem_rtakeWhile_imp hc
  rw [← hzeros]
  exact hsplit.symm

/-- The digits of a decimal with places behind the point, but for zeros at the end. -/
theorem ofDigits_fraction (coefficient places : Nat) :
    let fraction := Text.dropFinal (· = '0') (lastDigits places coefficient)
    (∀ c ∈ fraction, c.isDigit = true) ∧ ∃ count, fraction.length + count = places ∧
      ofDigits (Nat.toDigits 10 (coefficient / 10 ^ places) ++ fraction) * 10 ^ count =
        coefficient := by
  intro fraction
  obtain ⟨count, hcount⟩ := exists_zeros (lastDigits places coefficient)
  have hlength := length_lastDigits places coefficient
  rw [hcount, List.length_append, List.length_replicate] at hlength
  refine ⟨fun c hc => ?_, count, hlength, ?_⟩
  · have hmem : c ∈ lastDigits places coefficient := by
      rw [hcount]
      exact List.mem_append_left _ hc
    exact isDigit_of_mem_lastDigits c hmem
  · have hlast := ofDigits_lastDigits places coefficient
    rw [hcount, ofDigits_append, List.length_replicate, ofDigits_zeros, Nat.add_zero] at hlast
    rw [ofDigits_append, ofDigits_toDigits, Nat.add_mul, hlast, Nat.mul_assoc, ← Nat.pow_add,
      hlength]
    exact Nat.div_add_mod' coefficient (10 ^ places)

/-- The positional form has digits and at most one point, which is not at its end. -/
theorem ofText?_positional (d : Decimal) :
    ∃ d', ofText? d.positional = some d' ∧ SameValue d' d := by
  obtain ⟨coefficient, exponent⟩ := d
  simp only [positional, Nat.pow_eq]
  split
  · rename_i hexponent
    refine ⟨_, ofText?_digits Nat.toDigits_ne_nil isDigit_of_mem_toDigits, ?_⟩
    have hplaces : (-exponent).toNat = 0 := by omega
    simp [SameValue, ofDigits_toDigits, hplaces]
  · rename_i hexponent
    have hnum : exponent.toNat = 0 := by omega
    generalize hplaces : (-exponent).toNat = places
    obtain ⟨hdigits, count, hlength, hvalue⟩ := ofDigits_fraction coefficient places
    split
    · rename_i hnil
      rw [hnil, List.append_nil, ofDigits_toDigits] at hvalue
      rw [hnil, List.length_nil, Nat.zero_add] at hlength
      subst hlength
      refine ⟨_, ofText?_digits Nat.toDigits_ne_nil isDigit_of_mem_toDigits, ?_⟩
      simp [SameValue, ofDigits_toDigits, hplaces, hnum, hvalue]
    · refine ⟨_, ofText?_point Nat.toDigits_ne_nil isDigit_of_mem_toDigits hdigits, ?_⟩
      generalize Text.dropFinal (· = '0') (lastDigits places coefficient) = fraction at *
      have hshift : (-(-(fraction.length : Int))).toNat = fraction.length := by omega
      have hnone : (-(fraction.length : Int)).toNat = 0 := by omega
      generalize ofDigits (Nat.toDigits 10 (coefficient / 10 ^ places) ++ fraction) = value at *
      rw [SameValue, hplaces, hnum, hshift, hnone, Nat.pow_zero, Nat.mul_one, Nat.mul_one,
        ← hvalue, ← hlength, Nat.add_comm, Nat.pow_add, Nat.mul_assoc]

/-- The positional form is made of digits and points. -/
theorem positional_chars (d : Decimal) : ∀ c ∈ d.positional, c.isDigit = true ∨ c = '.' := by
  obtain ⟨coefficient, exponent⟩ := d
  simp only [positional]
  split
  · exact fun c hc => .inl (isDigit_of_mem_toDigits c hc)
  split
  · exact fun c hc => .inl (isDigit_of_mem_toDigits c hc)
  · intro c hc
    obtain ⟨hdigits, -⟩ := ofDigits_fraction coefficient (-exponent).toNat
    rcases List.mem_append.1 hc with hc | hc
    · exact .inl (isDigit_of_mem_toDigits c hc)
    · rcases List.mem_cons.1 hc with rfl | hc
      · exact .inr rfl
      · exact .inl (hdigits c hc)

/-! ## The shortest decimal -/

/-- A grid point is taken only if it is read back. -/
theorem nearestBits_gridPoint {units : Nat} {exponent : Int} {d : Decimal}
    (h : gridPoint? units exponent = some d) : d.nearestBits = Exact.nearestBits units 1 := by
  simp only [gridPoint?] at h
  split at h
  · rename_i hbelow habove
    cases h
    split
    · exact of_decide_eq_true hbelow
    · exact of_decide_eq_true habove
  · rename_i hbelow _
    cases h
    exact of_decide_eq_true hbelow
  · rename_i _ habove
    cases h
    exact of_decide_eq_true habove
  · cases h

theorem nearestBits_ofUnits (units : Nat) :
    (ofUnits units).nearestBits = Exact.nearestBits units 1 := by
  obtain ⟨k, hk, hone⟩ := exists_one_eq
  rw [ofUnits_eq hk, nearestBits_eq]
  refine Exact.nearestBits_congr (Nat.pow_pos (by decide)) Nat.one_pos ?_
  rw [hone, Int.toNat_neg_natCast, Int.neg_neg, Int.toNat_natCast, Nat.pow_zero, Nat.mul_one,
    Nat.mul_one, Nat.pow_eq, Nat.mul_assoc, ← Nat.mul_pow]

/-- Whatever decimal is the shortest, it is read back as the number that the units are rounded to. -/
theorem nearestBits_shortest (units : Nat) :
    (shortest units).nearestBits = Exact.nearestBits units 1 := by
  unfold shortest
  split
  · rename_i hzero
    rw [hzero, nearestBits_natural, Nat.zero_mul]
  · cases hfound : (List.range 17).findSome? fun i =>
      gridPoint? units (leadingExponent units - Int.ofNat i) with
    | none =>
      simp only [hfound, Option.getD_none]
      exact nearestBits_ofUnits units
    | some d =>
      simp only [hfound, Option.getD_some]
      obtain ⟨i, -, hpoint⟩ := List.exists_of_findSome?_eq_some hfound
      exact nearestBits_gridPoint hpoint

end Decimal
end VerbScript
