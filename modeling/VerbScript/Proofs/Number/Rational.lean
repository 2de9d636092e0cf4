import Mathlib
import VerbScript.Proofs.Number.Decimals

/-!
# VerbScript.Proofs.Number.Rational

Finite numbers as rational numbers. A bit pattern is unpacked into a sign, a significand and an
exponent as the format prescribes; what `Number.exact` reads off the same bits is the same number of
units.

* `Exact.ofBits_eq_ofUnpacked`: both readings of a bit pattern agree.
* `Exact.compare_eq`, `Exact.toInt_eq`: comparing and rounding toward zero, said through units.
* `Number.rational?_eq_some_iff`: the rational number that a number is, said through units.
* `Number.lt_iff_of_rational?`: finite numbers are ordered as rational numbers.
-/

namespace VerbScript

open Float.Model (UnpackedFloat Format)
open Float.Model.UnpackedFloat

namespace Exact

/-! ## The fields of a bit pattern -/

/-- What sign, significand and exponent denote. -/
def ofUnpacked : UnpackedFloat → Exact
  | .notANumber => .nan
  | .infinity sign => .infinite (sign == .negative)
  | .zero sign => .finite (sign == .negative) 0
  | .finite sign significand exponent _ =>
    .finite (sign == .negative) (significand * 2 ^ (exponent + 1074).toNat)

/-- The significand and the exponent of a finite number that is not zero. Only numbers with the
least exponent have a significand without the hidden bit. -/
structure Canonical (significand : Nat) (exponent : Int) : Prop where
  lt : significand < 2 * hidden
  least_le : -1074 ≤ exponent
  normal : exponent = -1074 ∨ hidden ≤ significand

/-- The sign of a bit pattern. -/
def signOf (b : BitVec 64) : Sign := Sign.ofBitVec (@unpackSign Format.binary64 b)

theorem signOf_beq (b : BitVec 64) :
    (signOf b == .negative) = decide (b.toNat / signWeight % 2 = 1) := by
  have hbit : (@unpackSign Format.binary64 b).toNat = b.toNat / signWeight % 2 := by
    rw [unpackSign_def, BitVec.extractLsb'_toNat, Nat.shiftRight_eq_div_pow]
    rfl
  rw [signOf, ← hbit]
  generalize @unpackSign Format.binary64 b = v
  revert v
  decide

theorem toNat_hiddenBit (fraction : BitVec 52) :
    (1#1 ++ fraction).toNat = hidden + fraction.toNat := by
  rw [BitVec.toNat_append, ← Nat.shiftLeft_add_eq_or_of_lt fraction.isLt]
  rfl

theorem hidden_add_pos (fraction : Nat) : 0 < hidden + fraction :=
  Nat.add_pos_left (by decide) fraction

/-- The unpacked form of a bit pattern, by its exponent field and its fraction. -/
theorem unpack_eq (b : BitVec 64) :
    UnpackedFloat.unpack Format.binary64 b =
      if b.toNat / hidden % 2048 = 2047 then
        if b.toNat % hidden = 0 then .infinity (signOf b) else .notANumber
      else if b.toNat / hidden % 2048 = 0 then
        if h : b.toNat % hidden = 0 then .zero (signOf b)
        else .finite (signOf b) (b.toNat % hidden) (-1074)
          (Nat.pos_of_ne_zero h)
      else
        .finite (signOf b) (hidden + b.toNat % hidden)
          ((b.toNat / hidden % 2048 : Nat) - 1075) (hidden_add_pos _) := by
  have hones : (-BitVec.ofNat Format.binary64.exponentBits 1).toNat = 2047 := by decide
  have hzero : (BitVec.ofNat Format.binary64.exponentBits 0).toNat = 0 := by decide
  have hempty : (BitVec.ofNat Format.binary64.mantissaBitsWithoutImplicit 0).toNat = 0 := by decide
  have hbias : Format.binary64.exponentBias = 1023 := rfl
  rw [UnpackedFloat.unpack]
  simp only [← BitVec.toNat_inj, hones, hzero, hempty, toNat_unpackExponent, toNat_unpackMantissa,
    toNat_hiddenBit, hbias]
  by_cases hfirst : b.toNat / hidden % 2048 = 0
  · simp only [hfirst]
    rfl
  · rw [if_neg hfirst, if_neg hfirst]
    rfl

/-- The bit pattern of a number is read here as the format prescribes. -/
theorem ofBits_eq_ofUnpacked (b : BitVec 64) :
    ofBits b.toNat = ofUnpacked (UnpackedFloat.unpack Format.binary64 b) := by
  have hsign := signOf_beq b
  rw [unpack_eq, ofBits]
  by_cases hlast : b.toNat / hidden % 2048 = 2047
  · rw [if_pos hlast, if_pos hlast]
    by_cases h0 : b.toNat % hidden = 0
    · rw [if_pos h0, if_pos h0, ofUnpacked, hsign]
    · rw [if_neg h0, if_neg h0, ofUnpacked]
  rw [if_neg hlast, if_neg hlast]
  by_cases hfirst : b.toNat / hidden % 2048 = 0
  · rw [if_pos hfirst, if_pos hfirst]
    by_cases h0 : b.toNat % hidden = 0
    · rw [dif_pos h0, ofUnpacked, hsign, h0]
    · rw [dif_neg h0, ofUnpacked, hsign]
      simp
  · have hshift : ((b.toNat / hidden % 2048 : Nat) - 1075 + 1074 : Int).toNat =
        b.toNat / hidden % 2048 - 1 := by omega
    rw [if_neg hfirst, if_neg hfirst, ofUnpacked, hsign, hshift]
    rfl

/-- The unpacked form of a finite number. -/
inductive FiniteForm : UnpackedFloat → Prop where
  | zero (sign : Sign) : FiniteForm (.zero sign)
  | finite (sign : Sign) {significand : Nat} {exponent : Int} (hpos : 0 < significand)
    (h : Canonical significand exponent) : FiniteForm (.finite sign significand exponent hpos)

theorem finiteForm_unpack {b : BitVec 64}
    (h : (UnpackedFloat.unpack Format.binary64 b).isFinite = true) :
    FiniteForm (UnpackedFloat.unpack Format.binary64 b) := by
  have hlt : b.toNat % hidden < hidden := Nat.mod_lt _ (by decide)
  rw [unpack_eq] at h ⊢
  split at h
  · split at h <;> cases h
  rename_i hlast
  rw [if_neg hlast]
  split
  · split
    · exact .zero _
    · exact .finite _ _ ⟨by omega, by omega, .inl rfl⟩
  · exact .finite _ _ ⟨by omega, by omega, .inr (Nat.le_add_right _ _)⟩

/-! ## The order of significands -/

theorem Canonical.units_lt {significand significand' : Nat} {exponent exponent' : Int}
    (h : Canonical significand exponent) (h' : Canonical significand' exponent')
    (hlt : exponent < exponent') :
    significand * 2 ^ (exponent + 1074).toNat < significand' * 2 ^ (exponent' + 1074).toNat := by
  have hleast := h.least_le
  have hnormal : hidden ≤ significand' := by
    rcases h'.normal with hleast' | hnormal
    · omega
    · exact hnormal
  obtain ⟨shift, hshift⟩ :
      ∃ shift, (exponent' + 1074).toNat = (exponent + 1074).toNat + 1 + shift :=
    ⟨(exponent' - exponent).toNat - 1, by omega⟩
  generalize (exponent + 1074).toNat = k at *
  calc significand * 2 ^ k
    _ < 2 * hidden * 2 ^ k := Nat.mul_lt_mul_of_pos_right h.lt (Nat.two_pow_pos k)
    _ = hidden * 2 ^ (k + 1) := by rw [Nat.pow_succ']; ring
    _ ≤ significand' * 2 ^ (k + 1) := Nat.mul_le_mul_right _ hnormal
    _ ≤ significand' * 2 ^ (exponent' + 1074).toNat := by
        rw [hshift]
        exact Nat.mul_le_mul_left _ (Nat.pow_le_pow_right (by decide) (Nat.le_add_right _ _))

/-- The order by exponents first and then by significands is that of the values. -/
theorem Canonical.compare_eq {significand significand' : Nat} {exponent exponent' : Int}
    (h : Canonical significand exponent) (h' : Canonical significand' exponent') :
    (compare exponent exponent').then (compare significand significand') =
      compare (significand * 2 ^ (exponent + 1074).toNat)
        (significand' * 2 ^ (exponent' + 1074).toNat) := by
  rcases lt_trichotomy exponent exponent' with hlt | rfl | hgt
  · rw [compare_lt_iff_lt.2 hlt, compare_lt_iff_lt.2 (h.units_lt h' hlt)]
    rfl
  · rw [compare_eq_iff_eq.2 rfl, ← cmp_eq_compare, ← cmp_eq_compare]
    exact (cmp_mul_pos_right (Nat.two_pow_pos _) _ _).symm
  · rw [compare_gt_iff_gt.2 hgt, compare_gt_iff_gt.2 (h'.units_lt h hgt)]
    rfl

/-- How many units a finite number in unpacked form is, with its sign. -/
def signedUnits : UnpackedFloat → ℤ
  | .finite sign significand exponent _ =>
    sign.apply (significand * 2 ^ (exponent + 1074).toNat : Nat)
  | .zero _ | .infinity _ | .notANumber => 0

theorem signedUnits_pos {significand : Nat} (exponent : Int) (hpos : 0 < significand) :
    0 < signedUnits (.finite .positive significand exponent hpos) :=
  Int.natCast_pos.2 (Nat.mul_pos hpos (Nat.two_pow_pos _))

theorem signedUnits_neg {significand : Nat} (exponent : Int) (hpos : 0 < significand) :
    signedUnits (.finite .negative significand exponent hpos) < 0 :=
  Int.neg_neg_of_pos (signedUnits_pos exponent hpos)

theorem compare_natCast (m n : Nat) : compare (m : ℤ) n = compare m n := by
  rw [← cmp_eq_compare, ← cmp_eq_compare]
  exact Nat.strictMono_cast.cmp_map_eq m n

theorem compare_neg (m n : ℤ) : compare (-m) (-n) = (compare m n).swap := by
  have hanti : StrictAnti fun k : ℤ => -k := fun _ _ => neg_lt_neg
  rw [← cmp_eq_compare, ← cmp_eq_compare, cmp_swap]
  exact hanti.cmp_map_eq m n

/-- Finite numbers are compared by their units. -/
theorem compare_eq {a b : UnpackedFloat} (ha : FiniteForm a) (hb : FiniteForm b) :
    a.compare b = some (compare (signedUnits a) (signedUnits b)) := by
  cases ha with
  | zero sign =>
    cases hb with
    | zero sign' => rfl
    | @finite sign' _ exponent' hpos' _ =>
      cases sign' with
      | positive => exact congrArg some (compare_lt_iff_lt.2 (signedUnits_pos exponent' hpos')).symm
      | negative => exact congrArg some (compare_gt_iff_gt.2 (signedUnits_neg exponent' hpos')).symm
  | @finite sign _ exponent hpos h =>
    cases hb with
    | zero sign' =>
      cases sign with
      | positive => exact congrArg some (compare_gt_iff_gt.2 (signedUnits_pos exponent hpos)).symm
      | negative => exact congrArg some (compare_lt_iff_lt.2 (signedUnits_neg exponent hpos)).symm
    | @finite sign' _ exponent' hpos' h' =>
      have hneg := signedUnits_neg exponent hpos
      have hneg' := signedUnits_neg exponent' hpos'
      have hpositive := signedUnits_pos exponent hpos
      have hpositive' := signedUnits_pos exponent' hpos'
      cases sign with
      | positive =>
        cases sign' with
        | positive => simp only [UnpackedFloat.compare, signedUnits, Sign.apply, h.compare_eq h',
            compare_natCast]
        | negative => exact congrArg some (compare_gt_iff_gt.2 (hneg'.trans hpositive)).symm
      | negative =>
        cases sign' with
        | positive => exact congrArg some (compare_lt_iff_lt.2 (hneg.trans hpositive')).symm
        | negative => simp only [UnpackedFloat.compare, signedUnits, Sign.apply, h.compare_eq h',
            compare_neg, compare_natCast]

/-! ## The conversion to an integer -/

theorem mantissa_shiftRight (m : ExtendedMantissa) (shift : Nat) :
    (m >>> shift).mantissa = m.mantissa / 2 ^ shift := by
  induction shift with
  | zero => rw [Nat.pow_zero, Nat.div_one]; rfl
  | succ shift ih =>
    have hstep : (m >>> (shift + 1)).mantissa = (m >>> shift).mantissa / 2 := rfl
    rw [hstep, ih, Nat.div_div_eq_div_mul, Nat.pow_succ]

/-- An integer is read off a finite number without the bits behind the point. -/
theorem toInt_eq {a : UnpackedFloat} (ha : FiniteForm a) (low high : ℤ) :
    a.toInt low high = (signedUnits a).tdiv one := by
  cases ha with
  | zero sign => exact (Int.zero_tdiv _).symm
  | @finite sign significand exponent hpos h =>
    obtain ⟨k, hk, hone⟩ := Decimal.exists_one_eq
    have hleast := h.least_le
    have hquotient : significand * 2 ^ exponent.toNat / 2 ^ (-exponent).toNat =
        significand * 2 ^ (exponent + 1074).toNat / one := by
      rw [hone]
      by_cases hexponent : 0 ≤ exponent
      · have hshift : (exponent + 1074).toNat = exponent.toNat + k := by omega
        have hnone : (-exponent).toNat = 0 := by omega
        rw [hshift, hnone, Nat.pow_zero, Nat.div_one, Nat.pow_add, ← Nat.mul_assoc,
          Nat.mul_div_cancel _ (Nat.two_pow_pos k)]
      · have hshift : k = (-exponent).toNat + (exponent + 1074).toNat := by omega
        have hnone : exponent.toNat = 0 := by omega
        rw [hshift, hnone, Nat.pow_zero, Nat.mul_one, Nat.pow_add,
          Nat.mul_div_mul_right _ _ (Nat.two_pow_pos _)]
    have hround : roundToInt sign significand exponent =
        sign.apply (significand * 2 ^ exponent.toNat / 2 ^ (-exponent).toNat : Nat) := by
      have hright : (0 - (exponent - exponent.toNat)).toNat = (-exponent).toNat := by omega
      simp only [roundToInt, decreaseExponent, shiftToExponent, mantissa_shiftRight, Int.sub_zero,
        Nat.shiftLeft_eq, hright]
      rfl
    rw [UnpackedFloat.toInt, hround, hquotient, signedUnits]
    cases sign with
    | positive => rfl
    | negative =>
      rw [Sign.apply, Sign.apply, Int.neg_tdiv]
      rfl

end Exact

namespace Number

/-- The rational number that a finite number is: its significand with the sign, times a power of
two. -/
def rational? (x : Number) : Option ℚ :=
  match x.toModel.unpack with
  | .zero _ => some 0
  | .finite sign significand exponent _ => some (sign.apply significand * 2 ^ exponent)
  | .infinity _ | .notANumber => none

/-- How many units a finite number is, with its sign. -/
def units (x : Number) : ℤ :=
  match x.exact with
  | .finite negative units => if negative then -units else units
  | _ => 0

theorem exact_eq (x : Number) : x.exact = .ofUnpacked x.toModel.unpack :=
  Exact.ofBits_eq_ofUnpacked x.toModel.toBits.toBitVec

theorem units_eq (x : Number) : x.units = Exact.signedUnits x.toModel.unpack := by
  rw [units, exact_eq]
  cases x.toModel.unpack with
  | finite sign significand exponent hpos => cases sign <;> rfl
  | zero sign => cases sign <;> rfl
  | infinity sign => rfl
  | notANumber => rfl

theorem finiteForm {x : Number} (h : x.isFinite = true) : Exact.FiniteForm x.toModel.unpack :=
  Exact.finiteForm_unpack h

theorem one_pos : 0 < Exact.one := by
  obtain ⟨k, -, hone⟩ := Decimal.exists_one_eq
  rw [hone]
  exact Nat.two_pow_pos k

theorem rational?_of_finite {x : Number} (h : x.isFinite = true) :
    x.rational? = some ((x.units : ℚ) / Exact.one) := by
  have hform := finiteForm h
  rw [units_eq, rational?]
  generalize x.toModel.unpack = unpacked at hform
  cases hform with
  | zero sign => rw [Exact.signedUnits, Int.cast_zero, zero_div]
  | @finite sign significand exponent hpos hcanonical =>
    obtain ⟨one, hone, hunit⟩ := Decimal.exists_one_eq
    have hleast := hcanonical.least_le
    obtain ⟨k, rfl⟩ : ∃ k : Nat, exponent = k - one := ⟨(exponent + one).toNat, by omega⟩
    have hshift : (k - one + 1074 : Int).toNat = k := by omega
    have hvalue : (2 : ℚ) ^ (k - one : ℤ) = 2 ^ k / 2 ^ one := by
      rw [zpow_sub₀ (by norm_num), zpow_natCast, zpow_natCast]
    have hsign : ((sign.apply (significand * 2 ^ k : Nat) : ℤ) : ℚ) =
        sign.apply significand * 2 ^ k := by
      cases sign <;> simp [Sign.apply]
    rw [Exact.signedUnits, hshift, hunit, hsign, Nat.cast_pow, Nat.cast_ofNat, mul_div_assoc,
      ← hvalue]

theorem isFinite_iff {x : Number} :
    x.isFinite = true ↔ ∃ negative units, x.exact = .finite negative units := by
  have hfinite : x.isFinite = x.toModel.unpack.isFinite := rfl
  rw [exact_eq, hfinite]
  cases x.toModel.unpack with
  | zero sign => exact ⟨fun _ => ⟨_, _, rfl⟩, fun _ => rfl⟩
  | finite sign significand exponent hpos => exact ⟨fun _ => ⟨_, _, rfl⟩, fun _ => rfl⟩
  | infinity sign => exact ⟨fun h => Bool.noConfusion h, fun ⟨_, _, h⟩ => Exact.noConfusion h⟩
  | notANumber => exact ⟨fun h => Bool.noConfusion h, fun ⟨_, _, h⟩ => Exact.noConfusion h⟩

theorem rational?_of_not_finite {x : Number} (h : x.isFinite = false) : x.rational? = none := by
  have hfinite : x.toModel.unpack.isFinite = false := h
  rw [rational?]
  generalize x.toModel.unpack = unpacked at hfinite
  cases unpacked with
  | zero sign => cases hfinite
  | finite sign significand exponent hpos => cases hfinite
  | infinity sign => rfl
  | notANumber => rfl

theorem rational?_eq_some_iff {x : Number} {q : ℚ} :
    x.rational? = some q ↔ x.isFinite = true ∧ (x.units : ℚ) = q * Exact.one := by
  cases h : x.isFinite with
  | false =>
    rw [rational?_of_not_finite h]
    constructor
    · rintro ⟨⟩
    · rintro ⟨⟨⟩, -⟩
  | true =>
    have hunit : (Exact.one : ℚ) ≠ 0 := Nat.cast_ne_zero.2 one_pos.ne'
    rw [rational?_of_finite h, Option.some_inj, div_eq_iff hunit]
    exact ⟨fun hunits => ⟨rfl, hunits⟩, fun hunits => hunits.2⟩

/-- Finite numbers are ordered as rational numbers. -/
theorem lt_iff_of_rational? {x y : Number} {q r : ℚ} (hx : x.rational? = some q)
    (hy : y.rational? = some r) : x < y ↔ q < r := by
  obtain ⟨hfinite, hunits⟩ := rational?_eq_some_iff.1 hx
  obtain ⟨hfinite', hunits'⟩ := rational?_eq_some_iff.1 hy
  have hcompare : x < y ↔ UnpackedFloat.compare x.toModel.unpack y.toModel.unpack = some .lt :=
    decide_eq_true_iff.trans beq_iff_eq
  have hunit : (0 : ℚ) < Exact.one := Nat.cast_pos.2 one_pos
  rw [hcompare, Exact.compare_eq (finiteForm hfinite) (finiteForm hfinite'), Option.some_inj,
    compare_lt_iff_lt, ← units_eq, ← units_eq, ← @Int.cast_lt ℚ, hunits, hunits']
  exact mul_lt_mul_iff_left₀ hunit

end Number
end VerbScript
