import Mathlib
import VerbScript.Number.Exact

/-!
# VerbScript.Proofs.Number.Rounding

Rounding to the nearest number.

* `Exact.nearestBits_congr`: the result depends on the fraction only, not on how it is written.
* `Exact.nearestBits_eq_infinityBits`, `Exact.nearestBits_eq_zero`: what is too large and too small.
* `Exact.nearestBits_units`: what a finite number denotes is rounded to that number.
* `Number.eq_ofMagnitude`: a number that is not NaN is known by what it denotes.
-/

namespace VerbScript

namespace Exact

/-! ## Fractions -/

theorem roundQuotient_mul (num den : Nat) {k : Nat} (hk : 0 < k) :
    roundQuotient (num * k) (den * k) = roundQuotient num den := by
  have hlow : num * k / (den * k) = num / den := Nat.mul_div_mul_right num den hk
  have hrest : num * k % (den * k) = num % den * k := Nat.mul_mod_mul_right k num den
  have hbelow : 2 * (num % den * k) < den * k ↔ 2 * (num % den) < den := by
    rw [← Nat.mul_assoc]
    exact Nat.mul_lt_mul_right hk
  have habove : den * k < 2 * (num % den * k) ↔ den < 2 * (num % den) := by
    rw [← Nat.mul_assoc]
    exact Nat.mul_lt_mul_right hk
  simp only [roundQuotient, hlow, hrest, hbelow, habove]

theorem nearestBits_mul (num den : Nat) {k : Nat} (hk : 0 < k) :
    nearestBits (num * k) (den * k) = nearestBits num den := by
  have hquotient : num * k / (den * k) = num / den := Nat.mul_div_mul_right num den hk
  simp only [nearestBits, hquotient, Nat.mul_right_comm den k, roundQuotient_mul _ _ hk]

theorem nearestBits_congr {num den num' den' : Nat} (hden : 0 < den) (hden' : 0 < den')
    (h : num * den' = num' * den) : nearestBits num den = nearestBits num' den' := by
  rw [← nearestBits_mul num den hden', h, Nat.mul_comm den, nearestBits_mul num' den' hden]

theorem nearestBits_le (num den : Nat) : nearestBits num den ≤ infinityBits := Nat.min_le_left ..

theorem le_roundQuotient (num den : Nat) : num / den ≤ roundQuotient num den := by
  simp only [roundQuotient]
  split
  · exact Nat.le_refl _
  · split <;> omega

/-- A fraction of at least `2^2098` units is infinite. -/
theorem nearestBits_eq_infinityBits {num den : Nat} (h : 2098 ≤ (num / den).log2) :
    nearestBits num den = infinityBits := by
  refine Nat.min_eq_left ?_
  have hne : num / den ≠ 0 := by
    intro hzero
    rw [hzero, Nat.log2_zero] at h
    cases h
  generalize hshift : (num / den).log2 - 52 = shift
  have hround : hidden ≤ roundQuotient num (den * 2 ^ shift) := by
    refine Nat.le_trans ?_ (le_roundQuotient ..)
    rw [← Nat.div_div_eq_div_mul, Nat.le_div_iff_mul_le (Nat.two_pow_pos shift)]
    have hpow : hidden * 2 ^ shift = 2 ^ (num / den).log2 := by
      have hlog : (num / den).log2 = 52 + shift := by omega
      rw [hlog, Nat.pow_add]
      rfl
    rw [hpow]
    exact Nat.log2_self_le hne
  have hfield : 2046 * hidden ≤ shift * hidden := Nat.mul_le_mul_right _ (by omega)
  have hbits : infinityBits = 2046 * hidden + hidden := by rw [infinityBits, ← Nat.succ_mul]
  rw [hbits]
  exact Nat.add_le_add hfield hround

/-- Less than half a unit is zero. -/
theorem nearestBits_eq_zero {num den : Nat} (h : 2 * num < den) : nearestBits num den = 0 := by
  have hquotient : num / den = 0 := Nat.div_eq_of_lt (by omega)
  have hrest : num % den = num := Nat.mod_eq_of_lt (by omega)
  simp [nearestBits, roundQuotient, hquotient, hrest, h]

/-! ## Values that are numbers -/

theorem roundQuotient_one (n : Nat) : roundQuotient n 1 = n := by
  simp [roundQuotient, Nat.mod_one]

/-- Below the hidden bit a number of units is its own bit pattern. -/
theorem nearestBits_subnormal {fraction : Nat} (h : fraction < hidden) :
    nearestBits fraction 1 = fraction := by
  have hlog : fraction.log2 - 52 = 0 := by
    by_cases hzero : fraction = 0
    · rw [hzero]
      rfl
    · have hlt : fraction.log2 < 52 := (Nat.log2_lt hzero).2 h
      omega
  have hinfinity : hidden ≤ infinityBits := by decide
  simp only [nearestBits, Nat.div_one, hlog, Nat.pow_eq, Nat.pow_zero, Nat.mul_one,
    roundQuotient_one, Nat.zero_mul, Nat.zero_add]
  omega

/-- A significand with the hidden bit keeps it as the lowest bit of the exponent field. -/
theorem nearestBits_normal {fraction shift : Nat} (h : fraction < hidden) (hshift : shift < 2046) :
    nearestBits ((hidden + fraction) * 2 ^ shift) 1 = (shift + 1) * hidden + fraction := by
  have hpos : 0 < 2 ^ shift := Nat.two_pow_pos shift
  have hhidden : hidden = 2 ^ 52 := rfl
  have hlog : ((hidden + fraction) * 2 ^ shift).log2 = 52 + shift := by
    have hne : (hidden + fraction) * 2 ^ shift ≠ 0 := by
      have hsum : 0 < hidden + fraction := by rw [hhidden]; omega
      exact Nat.ne_of_gt (Nat.mul_pos hsum hpos)
    rw [Nat.log2_eq_iff hne, Nat.pow_add, ← hhidden, Nat.add_right_comm, Nat.pow_add]
    have hdouble : 2 ^ (52 + 1) = 2 * hidden := rfl
    rw [hdouble]
    exact ⟨Nat.mul_le_mul_right _ (by omega), Nat.mul_lt_mul_of_pos_right (by omega) hpos⟩
  have hround : roundQuotient ((hidden + fraction) * 2 ^ shift) (1 * 2 ^ shift) =
      hidden + fraction := by
    rw [roundQuotient_mul _ _ hpos, roundQuotient_one]
  have hlarge : shift * hidden ≤ 2045 * hidden := Nat.mul_le_mul_right _ (by omega)
  have hinfinity : infinityBits = 2045 * hidden + 2 * hidden := by
    rw [infinityBits, ← Nat.add_mul]
  rw [Nat.succ_mul]
  simp only [nearestBits, Nat.div_one, hlog, Nat.pow_eq, Nat.add_sub_cancel_left, hround]
  omega

/-- A natural number that is small enough is a significand once its leading bit is shifted to the place
of the hidden one. -/
theorem exists_significand {n : Nat} (hne : n ≠ 0) (h : n < 2 * hidden) :
    ∃ log ≤ 52, ∃ fraction < hidden, n * 2 ^ (52 - log) = hidden + fraction := by
  have hlog : n.log2 < 53 := (Nat.log2_lt hne).2 h
  obtain ⟨hlow, hhigh⟩ := (Nat.log2_eq_iff hne).1 rfl
  generalize n.log2 = log at hlog hlow hhigh
  have hhidden : 2 ^ log * 2 ^ (52 - log) = hidden := by
    rw [← Nat.pow_add, Nat.add_sub_cancel' (by omega)]
    rfl
  have hleast : hidden ≤ n * 2 ^ (52 - log) := by
    rw [← hhidden]
    exact Nat.mul_le_mul_right _ hlow
  have hmost : n * 2 ^ (52 - log) < 2 * hidden := by
    rw [← hhidden, ← Nat.mul_assoc, ← Nat.pow_succ']
    exact Nat.mul_lt_mul_of_pos_right hhigh (Nat.two_pow_pos _)
  obtain ⟨fraction, hfraction⟩ := Nat.exists_eq_add_of_le hleast
  exact ⟨log, by omega, fraction, by omega, hfraction⟩

/-- A whole number of units is rounded to zero only if it is zero. -/
theorem nearestBits_eq_zero_iff {units : Nat} : nearestBits units 1 = 0 ↔ units = 0 := by
  constructor
  · intro h
    by_contra hne
    have hpow : 2 ^ (units.log2 - 52) ≤ units :=
      (Nat.pow_le_pow_right (by decide) (Nat.sub_le ..)).trans (Nat.log2_self_le hne)
    have hround := le_roundQuotient units (2 ^ (units.log2 - 52))
    have hquotient : 0 < units / 2 ^ (units.log2 - 52) := Nat.div_pos hpow (Nat.two_pow_pos _)
    have hinfinity : 0 < infinityBits := by decide
    rw [nearestBits, Nat.div_one, Nat.one_mul, Nat.pow_eq] at h
    omega
  · rintro rfl
    rfl

/-! ## Bit patterns -/

/-- A bit pattern with the hidden bit. -/
theorem ofBits_normal {fraction shift : Nat} (h : fraction < hidden) (hshift : shift < 2046) :
    ofBits ((shift + 1) * hidden + fraction) = .finite false ((hidden + fraction) * 2 ^ shift) := by
  have hpos : 0 < hidden := by decide
  have hquotient : ((shift + 1) * hidden + fraction) / hidden = shift + 1 := by
    rw [Nat.add_comm, Nat.add_mul_div_right _ _ hpos, Nat.div_eq_of_lt h, Nat.zero_add]
  have hfraction : ((shift + 1) * hidden + fraction) % hidden = fraction := by
    rw [Nat.add_comm, Nat.add_mul_mod_self_right, Nat.mod_eq_of_lt h]
  have hexponent : (shift + 1) % 2048 = shift + 1 := Nat.mod_eq_of_lt (by omega)
  have hsign : ((shift + 1) * hidden + fraction) / signWeight % 2 = 0 := by
    have hweight : signWeight = hidden * 2048 := rfl
    rw [hweight, ← Nat.div_div_eq_div_mul, hquotient, Nat.div_eq_of_lt (by omega)]
  rw [ofBits, hquotient, hfraction, hexponent, hsign]
  rw [if_neg (by omega), if_neg (by omega), Nat.add_sub_cancel]
  rfl

/-- A bit pattern is its sign and the rest. -/
theorem signed_bits {bits : Nat} (h : bits < 2 * signWeight) :
    (if bits / signWeight % 2 = 1 then signWeight + bits % signWeight else bits % signWeight) =
      bits := by
  have hweight : signWeight = 9223372036854775808 := rfl
  rw [hweight] at h ⊢
  split <;> omega

/-- The bit pattern without its sign is the exponent field and the fraction. -/
theorem mod_signWeight (bits : Nat) :
    bits % signWeight = bits / hidden % 2048 * hidden + bits % hidden := by
  have hweight : signWeight = 2048 * hidden := rfl
  have hhidden : hidden = 4503599627370496 := rfl
  rw [hweight, hhidden]
  omega

/-- What a finite bit pattern denotes is rounded to it. -/
theorem nearestBits_units {bits units : Nat} {negative : Bool}
    (h : ofBits bits = .finite negative units) :
    negative = decide (bits / signWeight % 2 = 1) ∧ nearestBits units 1 = bits % signWeight := by
  have hfraction : bits % hidden < hidden := Nat.mod_lt _ (by decide)
  have hexponent : bits / hidden % 2048 < 2048 := Nat.mod_lt _ (by decide)
  rw [mod_signWeight]
  simp only [ofBits] at h
  generalize bits / hidden % 2048 = exponent at *
  split at h
  · split at h <;> cases h
  split at h
  · rename_i hzero
    cases h
    rw [hzero, Nat.zero_mul, Nat.zero_add]
    exact ⟨rfl, nearestBits_subnormal hfraction⟩
  · cases h
    refine ⟨rfl, ?_⟩
    rw [Nat.pow_eq, nearestBits_normal hfraction (by omega), Nat.sub_add_cancel (by omega)]

theorem infinityBits_of_ofBits {bits : Nat} {negative : Bool} (h : ofBits bits = .infinite negative) :
    negative = decide (bits / signWeight % 2 = 1) ∧ infinityBits = bits % signWeight := by
  rw [mod_signWeight]
  simp only [ofBits] at h
  split at h
  · rename_i hexponent
    split at h
    · rename_i hfraction
      cases h
      exact ⟨rfl, by rw [hexponent, hfraction]; rfl⟩
    · cases h
  · split at h <;> cases h

/-- Up to that of infinity, bit patterns are those of numbers without a sign. -/
theorem ofBits_of_le {bits : Nat} (h : bits ≤ infinityBits) :
    ofBits bits = .infinite false ∨ ∃ units, ofBits bits = .finite false units := by
  have hinfinity : infinityBits = 2047 * hidden := rfl
  have hhidden : hidden = 4503599627370496 := rfl
  have hweight : signWeight = 9223372036854775808 := rfl
  rw [hinfinity, hhidden] at h
  have hsign : decide (bits / signWeight % 2 = 1) = false := by
    rw [hweight]
    exact decide_eq_false (by omega)
  simp only [ofBits, hsign, hhidden]
  split
  · rw [if_pos (by omega)]
    exact .inl rfl
  · split
    · exact .inr ⟨_, rfl⟩
    · exact .inr ⟨_, rfl⟩

/-- Up to that of infinity, bit patterns are those of numbers, with either sign. -/
theorem ofBits_ne_nan {bits : Nat} (h : bits ≤ infinityBits) (negative : Bool) :
    ofBits (if negative then signWeight + bits else bits) ≠ .nan := by
  generalize hsigned : (if negative then signWeight + bits else bits) = signed
  have hinfinity : infinityBits = 2047 * hidden := rfl
  have hhidden : hidden = 4503599627370496 := rfl
  have hweight : signWeight = 9223372036854775808 := rfl
  have hfraction : signed / hidden % 2048 = 2047 → signed % hidden = 0 := by
    rw [hinfinity, hhidden] at h
    rw [hweight] at hsigned
    rw [hhidden]
    split at hsigned <;> omega
  intro hnan
  simp only [ofBits] at hnan
  split at hnan
  · rename_i hexponent
    rw [if_pos (hfraction hexponent)] at hnan
    cases hnan
  · split at hnan <;> cases hnan

open Float.Model Float.Model.UnpackedFloat in
theorem toNat_unpackExponent (b : BitVec 64) :
    (@unpackExponent Format.binary64 b).toNat = b.toNat / hidden % 2048 := by
  rw [unpackExponent_def, BitVec.extractLsb'_toNat, Nat.shiftRight_eq_div_pow]
  rfl

open Float.Model Float.Model.UnpackedFloat in
theorem toNat_unpackMantissa (b : BitVec 64) :
    (@unpackMantissa Format.binary64 b).toNat = b.toNat % hidden := by
  simp [unpackMantissa, BitVec.extractLsb_toNat]
  rfl

open Float.Model Float.Model.UnpackedFloat in
theorem isNaNBits_iff (b : BitVec 64) :
    @isNaNBits Format.binary64 b = true ↔ ofBits b.toNat = .nan := by
  have hones : (-BitVec.ofNat Format.binary64.exponentBits 1).toNat = 2047 := by decide
  have hzero : (BitVec.ofNat Format.binary64.mantissaBitsWithoutImplicit 0).toNat = 0 := by decide
  rw [isNaNBits, decide_eq_true_iff, ← BitVec.toNat_inj, ne_eq, ← BitVec.toNat_inj,
    toNat_unpackExponent, toNat_unpackMantissa, hones, hzero, ofBits]
  by_cases h : b.toNat / hidden % 2048 = 2047
  · by_cases h0 : b.toNat % hidden = 0 <;> simp [h, h0]
  · simp only [h, false_and, if_false, false_iff]
    split <;> exact fun h => Exact.noConfusion h

end Exact

/-! ## Numbers -/

namespace Number

theorem exact_ne_nan {x : Number} (h : x.isNaN = false) : x.exact ≠ .nan := by
  intro hnan
  have hbits := (Exact.isNaNBits_iff x.toBits.toBitVec).2 hnan
  rw [Float.Model.UnpackedFloat.isNaNBits, decide_eq_true_iff] at hbits
  have hunpack : Float.Model.UnpackedFloat.unpack .binary64 x.toBits.toBitVec = .notANumber := by
    simp only [Float.Model.UnpackedFloat.unpack, hbits.1, hbits.2, if_true, if_false]
  have hisNaN : x.isNaN = true := Float.Model.UnpackedFloat.isNaN_iff.2 hunpack
  rw [h] at hisNaN
  cases hisNaN

theorem toBits_ofBits {n : UInt64} (h : Exact.ofBits n.toNat ≠ .nan) :
    (Float.ofBits n).toBits = n := by
  have hpack := @Float.Model.UnpackedFloat.pack_unpack .binary64 n.toBitVec
  rw [if_neg fun hnan => h ((Exact.isNaNBits_iff n.toBitVec).1 hnan)] at hpack
  exact UInt64.eq_of_toBitVec_eq (hpack (by decide))

theorem toBits_lt (x : Number) : x.toBits.toNat < 2 * Exact.signWeight := x.toBits.toNat_lt

theorem ofMagnitude_toBits {x : Number} {negative : Bool} {bits : Nat}
    (hsign : negative = decide (x.toBits.toNat / Exact.signWeight % 2 = 1))
    (hbits : bits = x.toBits.toNat % Exact.signWeight) : ofMagnitude negative bits = x := by
  have hwhole := Exact.signed_bits x.toBits_lt
  simp only [ofMagnitude, hsign, hbits, decide_eq_true_eq, hwhole, UInt64.ofNat_toNat]
  exact Float.ofBits_toBits x

/-- A finite number is the one nearest to what it denotes. -/
theorem eq_ofMagnitude {x : Number} {negative : Bool} {units : Nat}
    (h : x.exact = .finite negative units) :
    x = ofMagnitude negative (Exact.nearestBits units 1) := by
  obtain ⟨hsign, hbits⟩ := Exact.nearestBits_units h
  exact (ofMagnitude_toBits hsign hbits).symm

theorem eq_infinity {x : Number} {negative : Bool} (h : x.exact = .infinite negative) :
    x = infinity negative := by
  obtain ⟨hsign, hbits⟩ := Exact.infinityBits_of_ofBits h
  exact (ofMagnitude_toBits hsign hbits).symm

theorem exact_ofMagnitude_eq {bits : Nat} (h : bits ≤ Exact.infinityBits) (negative : Bool) :
    (ofMagnitude negative bits).exact =
      .ofBits (if negative then Exact.signWeight + bits else bits) := by
  have hnan := Exact.ofBits_ne_nan h negative
  rw [ofMagnitude]
  generalize hsigned : (if negative then Exact.signWeight + bits else bits) = signed at hnan ⊢
  have hlt : signed < 2 ^ 64 := by
    have hweight : Exact.signWeight + Exact.infinityBits < 2 ^ 64 := by decide
    rw [← hsigned]
    split <;> omega
  have htoNat : (UInt64.ofNat signed).toNat = signed := UInt64.toNat_ofNat_of_lt' hlt
  rw [exact, toBits_ofBits (by rw [htoNat]; exact hnan), htoNat]

/-- What is rounded without a sign is not negative, and not NaN. -/
theorem exact_ofMagnitude {bits : Nat} (h : bits ≤ Exact.infinityBits) :
    (ofMagnitude false bits).exact = .infinite false ∨
      ∃ units, (ofMagnitude false bits).exact = .finite false units := by
  rw [exact_ofMagnitude_eq h false]
  exact Exact.ofBits_of_le h

end Number
end VerbScript
