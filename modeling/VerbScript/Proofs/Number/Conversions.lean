import Mathlib
import VerbScript.Proofs.Labels
import VerbScript.Proofs.Number.Rational
import VerbScript.Proofs.Number.ReadBack

/-!
# VerbScript.Proofs.Number.Conversions

Numbers as indices and as characters.

* `Number.index?_eq_some_iff`, `Number.character?_eq_some_iff`: which numbers are converted, and to
  what.
* `Number.isWholeUpTo_iff`: tests of a number's range and of what stands behind its point find the
  natural numbers up to a bound.
* `Number.index?_eq_castIndex?`, `Number.character?_eq_castCharacter?`: after these tests a cast
  computes the conversions.
* `Machine.find_invalidIndex_iff` and its likes: a number without a conversion is the one that the
  fault names.
* `Machine.press_echoes`: what is written when the character that `press` read is printed.
* `Number.conversions_exact`: all of this, of every number and every line.
-/

namespace VerbScript

variable {W I : Type}

namespace Number

/-! ## Natural numbers -/

theorem rational?_eq_natCast_iff {x : Number} {n : Nat} :
    x.rational? = some (n : ℚ) ↔ x.isFinite = true ∧ x.units = (n * Exact.one : Nat) := by
  rw [rational?_eq_some_iff, ← Nat.cast_mul, ← Int.cast_natCast, Int.cast_inj]

theorem natural?_eq_some_iff {x : Number} {n : Nat} :
    x.exact.natural? = some n ↔ x.rational? = some (n : ℚ) := by
  have hone := one_pos
  rw [rational?_eq_natCast_iff, isFinite_iff, units]
  cases x.exact with
  | nan =>
    constructor
    · rintro ⟨⟩
    · rintro ⟨⟨_, _, ⟨⟩⟩, -⟩
  | infinite negative =>
    constructor
    · rintro ⟨⟩
    · rintro ⟨⟨_, _, ⟨⟩⟩, -⟩
  | finite negative units =>
    have hform : ∃ negative' units', Exact.finite negative units = .finite negative' units' :=
      ⟨negative, units, rfl⟩
    simp only [iff_true_intro hform, true_and, Exact.natural?,
      Option.ite_none_right_eq_some, Option.some_inj]
    generalize Exact.one = one at *
    constructor
    · rintro ⟨⟨hwhole, hsign⟩, rfl⟩
      rw [Nat.div_mul_cancel (Nat.dvd_of_mod_eq_zero hwhole)]
      rcases hsign with rfl | rfl
      · rfl
      · simp
    · intro hunits
      cases negative with
      | false =>
        have heq : units = n * one := Int.ofNat_inj.1 hunits
        rw [heq, Nat.mul_mod_left, Nat.mul_div_cancel _ hone]
        exact ⟨⟨rfl, .inl rfl⟩, rfl⟩
      | true =>
        have hzero : units = 0 ∧ n * one = 0 := by
          rw [if_pos rfl] at hunits
          omega
        have hn : n = 0 := (Nat.mul_eq_zero.1 hzero.2).resolve_right hone.ne'
        rw [hzero.1, hn, Nat.zero_mod, Nat.zero_div]
        exact ⟨⟨rfl, .inr rfl⟩, rfl⟩

/-- The number equals a natural number that is small enough for an index. -/
def IsIndex (x : Number) (n : Nat) : Prop := x.rational? = some (n : ℚ) ∧ n ≤ 2 ^ 53 - 1

/-- The number equals the code of a character. -/
def IsCode (x : Number) (c : Char) : Prop := x.rational? = some (c.toNat : ℚ)

theorem index?_eq_some_iff {x : Number} {n : Nat} : x.index? = some n ↔ x.IsIndex n := by
  have hmax : maxExactInteger = 2 ^ 53 - 1 := rfl
  rw [IsIndex, ← natural?_eq_some_iff, index?, hmax]
  cases x.exact.natural? with
  | none =>
    constructor
    · rintro ⟨⟩
    · rintro ⟨⟨⟩, -⟩
  | some k =>
    simp only [Option.ite_none_right_eq_some, Option.some_inj]
    constructor
    · rintro ⟨hle, rfl⟩
      exact ⟨rfl, hle⟩
    · rintro ⟨rfl, hle⟩
      exact ⟨hle, rfl⟩

theorem character?_eq_some_iff {x : Number} {c : Char} : x.character? = some c ↔ x.IsCode c := by
  rw [IsCode, ← natural?_eq_some_iff, character?]
  cases x.exact.natural? with
  | none =>
    constructor
    · rintro ⟨⟩
    · rintro ⟨⟩
  | some k =>
    simp only [Option.ite_none_right_eq_some, Option.some_inj]
    constructor
    · rintro ⟨hvalid, rfl⟩
      rw [Char.toNat_ofNat, if_pos hvalid]
    · rintro rfl
      exact ⟨c.valid, Char.ofNat_toNat c⟩

theorem index?_eq_none_iff {x : Number} : x.index? = none ↔ ∀ n, ¬ x.IsIndex n := by
  simp only [Option.eq_none_iff_forall_ne_some, ne_eq, index?_eq_some_iff]

theorem character?_eq_none_iff {x : Number} : x.character? = none ↔ ∀ c, ¬ x.IsCode c := by
  simp only [Option.eq_none_iff_forall_ne_some, ne_eq, character?_eq_some_iff]

theorem toInt_eq {x : Number} {n : Nat} (h : x.rational? = some (n : ℚ)) (low high : ℤ) :
    x.toModel.unpack.toInt low high = n := by
  obtain ⟨hfinite, hunits⟩ := rational?_eq_natCast_iff.1 h
  rw [Exact.toInt_eq (finiteForm hfinite), ← units_eq, hunits]
  rw [← Int.ofNat_tdiv, Nat.mul_div_cancel _ one_pos]

theorem toNat_toUInt64 {x : Number} {n : Nat} (h : x.rational? = some (n : ℚ))
    (hn : n < UInt64.size) : x.toUInt64.toNat = n := by
  have hcast : x.toUInt64 =
      UInt64.ofNatClamp (x.toModel.unpack.toInt 0 (UInt64.size - 1)).toNat := rfl
  rw [hcast, toInt_eq h, Int.toNat_natCast, UInt64.toNat_ofNatClamp_of_lt hn]

theorem toNat_toUInt32 {x : Number} {n : Nat} (h : x.rational? = some (n : ℚ))
    (hn : n < UInt32.size) : x.toUInt32.toNat = n := by
  have hcast : x.toUInt32 =
      UInt32.ofNatClamp (x.toModel.unpack.toInt 0 (UInt32.size - 1)).toNat := rfl
  rw [hcast, toInt_eq h, Int.toNat_natCast, UInt32.toNat_ofNatClamp_of_lt hn]

/-- A significand with the hidden bit is not rounded. -/
theorem exact_ofRatio_normal {fraction shift : Nat} (h : fraction < Exact.hidden)
    (hshift : shift < 2046) :
    (ofRatio false ((Exact.hidden + fraction) * 2 ^ shift) 1).exact =
      .finite false ((Exact.hidden + fraction) * 2 ^ shift) := by
  have hle := Exact.nearestBits_le ((Exact.hidden + fraction) * 2 ^ shift) 1
  rw [ofRatio, exact_ofMagnitude_eq hle, if_neg Bool.false_ne_true,
    Exact.nearestBits_normal h hshift, Exact.ofBits_normal h hshift]

/-- Below `2^53` natural numbers are not rounded: the leading bit is shifted to the place of the
hidden one. -/
theorem rational?_ofNat {n : Nat} (h : n < 2 * Exact.hidden) :
    (ofNat n).rational? = some (n : ℚ) := by
  rw [← natural?_eq_some_iff]
  by_cases hzero : n = 0
  · subst hzero
    decide +kernel
  obtain ⟨k, hk, hone⟩ := Decimal.exists_one_eq
  obtain ⟨log, hlog, fraction, hfraction, hsignificand⟩ := Exact.exists_significand hzero h
  have hunits : n * Exact.one = (Exact.hidden + fraction) * 2 ^ (1022 + log) := by
    have hsum : k = 52 - log + (1022 + log) := by omega
    rw [hone, ← hsignificand, Nat.mul_assoc, ← Nat.pow_add, hsum]
  have hexact : (ofNat n).exact = .finite false (n * Exact.one) := by
    rw [ofNat, hunits, exact_ofRatio_normal hfraction (by omega)]
  have hwhole : n * Exact.one % Exact.one = 0 := Nat.mul_mod_left ..
  rw [hexact, Exact.natural?, if_pos ⟨hwhole, .inl rfl⟩, Nat.mul_div_cancel _ one_pos]

theorem rational?_zero : (0 : Number).rational? = some 0 := rfl

/-- Only the two zeros equal zero. -/
theorem beq_zero_iff {x : Number} : (x == 0) = true ↔ ∃ negative, x.exact = .finite negative 0 := by
  have hbeq : (x == 0) = (x.toModel.unpack.compare (.zero .positive) == some .eq) := rfl
  rw [hbeq, exact_eq]
  cases x.toModel.unpack with
  | zero sign => exact ⟨fun _ => ⟨_, rfl⟩, fun _ => rfl⟩
  | finite sign significand exponent hpos =>
    have hne : significand * 2 ^ (exponent + 1074).toNat ≠ 0 :=
      (Nat.mul_pos hpos (Nat.two_pow_pos _)).ne'
    constructor
    · intro h
      cases sign <;> cases h
    · rintro ⟨negative, h⟩
      rw [Exact.ofUnpacked, Exact.finite.injEq] at h
      exact absurd h.2 hne
  | infinity sign =>
    constructor
    · intro h
      cases sign <;> cases h
    · rintro ⟨_, ⟨⟩⟩
  | notANumber =>
    constructor
    · rintro ⟨⟩
    · rintro ⟨_, ⟨⟩⟩

/-- A rounded number is zero only if no unit is left. -/
theorem ofRatio_beq_zero (negative : Bool) (units : Nat) :
    (ofRatio negative units 1 == 0) = true ↔ units = 0 := by
  have hle := Exact.nearestBits_le units 1
  rw [beq_zero_iff, ofRatio, exact_ofMagnitude_eq hle, ← Exact.nearestBits_eq_zero_iff]
  generalize Exact.nearestBits units 1 = bits at hle ⊢
  constructor
  · rintro ⟨negative', hzero⟩
    have hbits := (Exact.nearestBits_units hzero).2
    have hlt : Exact.infinityBits < Exact.signWeight := by decide
    rw [Exact.nearestBits_eq_zero_iff.2 rfl] at hbits
    cases negative with
    | false => rwa [if_neg Bool.false_ne_true, Nat.mod_eq_of_lt (by omega), eq_comm] at hbits
    | true => rwa [if_pos rfl, Nat.add_mod_left, Nat.mod_eq_of_lt (by omega), eq_comm] at hbits
  · rintro rfl
    refine ⟨negative, ?_⟩
    cases negative <;> decide

/-- Nothing is left of a number by one exactly if it is an integer. -/
theorem remainder_one_beq_zero {x : Number} {q : ℚ} (h : x.rational? = some q) :
    (x.remainder 1 == 0) = true ↔ ∃ k : ℤ, q = k := by
  obtain ⟨hfinite, hunits⟩ := rational?_eq_some_iff.1 h
  obtain ⟨negative, magnitude, hexact⟩ := isFinite_iff.1 hfinite
  have hexact_one : (1 : Number).exact = .finite false Exact.one := by decide +kernel
  have hunit : (Exact.one : ℚ) ≠ 0 := Nat.cast_ne_zero.2 one_pos.ne'
  have hdvd : Exact.one ∣ magnitude ↔ (Exact.one : ℤ) ∣ x.units := by
    rw [units, hexact, ← Int.natCast_dvd_natCast]
    cases negative with
    | false => rfl
    | true => exact (Int.dvd_neg).symm
  simp only [remainder, hexact, hexact_one]
  rw [if_neg one_pos.ne', ofRatio_beq_zero, ← Nat.dvd_iff_mod_eq_zero, hdvd]
  refine exists_congr fun k => ?_
  rw [← @Int.cast_inj ℚ, hunits, Int.cast_mul, Int.cast_natCast, mul_comm, mul_right_inj' hunit]

/-! ## The tests and the casts -/

/-- Whether the number is finite, not below zero and not above a bound, with nothing behind the
point. -/
def isWholeUpTo (bound : Nat) (x : Number) : Bool :=
  x.isFinite && !decide (x < 0) && !decide (ofNat bound < x) && x.remainder 1 == 0

theorem isWholeUpTo_iff {bound : Nat} (hbound : bound < 2 * Exact.hidden) {x : Number} :
    x.isWholeUpTo bound = true ↔ ∃ n ≤ bound, x.rational? = some (n : ℚ) := by
  simp only [isWholeUpTo, Bool.and_eq_true, Bool.not_eq_true', decide_eq_false_iff_not]
  cases hfinite : x.isFinite with
  | false =>
    rw [rational?_of_not_finite hfinite]
    constructor
    · rintro ⟨⟨⟨⟨⟩, -⟩, -⟩, -⟩
    · rintro ⟨n, -, ⟨⟩⟩
  | true =>
    have hvalue := rational?_of_finite hfinite
    generalize (x.units : ℚ) / Exact.one = q at hvalue
    rw [lt_iff_of_rational? hvalue rational?_zero,
      lt_iff_of_rational? (rational?_ofNat hbound) hvalue, remainder_one_beq_zero hvalue]
    constructor
    · rintro ⟨⟨⟨-, hlow⟩, hhigh⟩, k, rfl⟩
      have hnonneg : 0 ≤ k := Int.cast_nonneg_iff.1 (not_lt.1 hlow)
      lift k to ℕ using hnonneg
      rw [Int.cast_natCast] at hhigh hvalue
      exact ⟨k, Nat.cast_le.1 (not_lt.1 hhigh), hvalue⟩
    · rintro ⟨n, hn, hnat⟩
      cases hvalue.symm.trans hnat
      exact ⟨⟨⟨rfl, not_lt.2 (Nat.cast_nonneg n)⟩, not_lt.2 (Nat.cast_le.2 hn)⟩, n, rfl⟩

/-- The index that tests of range and integrality and a cast compute. -/
def castIndex? (x : Number) : Option Nat :=
  if x.isWholeUpTo maxExactInteger then some x.toUInt64.toNat else none

/-- The character that tests of range and integrality and a cast compute. -/
def castCharacter? (x : Number) : Option Char :=
  if x.isWholeUpTo (UInt32.size - 1) then
    if x.toUInt32.toNat.isValidChar then some (Char.ofNat x.toUInt32.toNat) else none
  else none

theorem index?_eq_castIndex? (x : Number) : x.index? = x.castIndex? := by
  have hwhole : x.isWholeUpTo maxExactInteger = true ↔ _ := isWholeUpTo_iff (by decide)
  rw [castIndex?]
  by_cases h : x.isWholeUpTo maxExactInteger = true
  · obtain ⟨n, hn, hvalue⟩ := hwhole.1 h
    have hsize : maxExactInteger < UInt64.size := by decide
    rw [if_pos h, toNat_toUInt64 hvalue (by omega)]
    exact index?_eq_some_iff.2 ⟨hvalue, hn⟩
  · rw [if_neg h, index?_eq_none_iff]
    rintro n ⟨hvalue, hn⟩
    exact h (hwhole.2 ⟨n, hn, hvalue⟩)

theorem character?_eq_castCharacter? (x : Number) : x.character? = x.castCharacter? := by
  have hwhole : x.isWholeUpTo (UInt32.size - 1) = true ↔ _ := isWholeUpTo_iff (by decide)
  rw [castCharacter?]
  by_cases h : x.isWholeUpTo (UInt32.size - 1) = true
  · obtain ⟨n, hn, hvalue⟩ := hwhole.1 h
    have hsize : 0 < UInt32.size := by decide
    rw [if_pos h, toNat_toUInt32 hvalue (by omega), character?, natural?_eq_some_iff.2 hvalue]
  · rw [if_neg h, character?_eq_none_iff]
    intro c hcode
    have hsize : c.toNat < UInt32.size := c.val.toNat_lt
    exact h (hwhole.2 ⟨c.toNat, by omega, hcode⟩)

/-- The code of a character is read as that character. -/
theorem character?_ofChar (c : Char) : (ofChar c).character? = some c := by
  have hsize : c.toNat < UInt32.size := c.val.toNat_lt
  have hhidden : UInt32.size ≤ 2 * Exact.hidden := by decide
  exact character?_eq_some_iff.2 (rational?_ofNat (by omega))

end Number

/-! ## Faults -/

namespace Machine

variable {m : Machine W I} {x : Number}

theorem overwrite_invalidIndex_iff {value : Number} {place : Position} :
    m.overwrite x value place = .fault ⟨.invalidIndex x, place⟩ m ↔ ∀ n, ¬ x.IsIndex n := by
  rw [← Number.index?_eq_none_iff, overwrite]
  cases x.index? with
  | none => simp only
  | some i =>
    constructor
    · intro h
      simp only at h
      split at h <;> cases h
    · rintro ⟨⟩

theorem find_invalidIndex_iff (hx : m.state.lastValue = some x) {p : Program} {place : Position} :
    m.find p place = .fault ⟨.invalidIndex x, place⟩ m ↔ ∀ n, ¬ x.IsIndex n := by
  rw [← Number.index?_eq_none_iff]
  cases hindex : x.index? with
  | none => simp only [find, withLastValue, hx, hindex]
  | some n =>
    constructor
    · intro h
      rcases find_cases hx hindex (p := p) place with ⟨-, hfind⟩ | ⟨i, -, hfind⟩ | ⟨-, hfind⟩
      all_goals cases hfind.symm.trans h
    · rintro ⟨⟩

variable [Writer W]

theorem print_of_character? (hx : m.state.lastValue = some x) {c : Char}
    (hc : x.character? = some c) (place : Position) :
    m.print place = m.write (String.singleton c) place := by
  simp only [print, withLastValue, hx, hc]

theorem print_invalidCharacter_iff (hx : m.state.lastValue = some x) {place : Position} :
    m.print place = .fault ⟨.invalidCharacter x, place⟩ m ↔ ∀ c, ¬ x.IsCode c := by
  rw [← Number.character?_eq_none_iff]
  cases hcharacter : x.character? with
  | none => simp only [print, withLastValue, hx, hcharacter]
  | some c =>
    rw [print_of_character? hx hcharacter, write, onSink]
    constructor
    · intro h
      split at h <;> cases h
    · rintro ⟨⟩

end Machine

namespace Number

/-- The conversions of the number are exact: it is an index, or a character, exactly if it equals
one. Tests and a cast compute both, and a number that is not converted is the one that the fault
names, with channels of any kind. -/
structure Converts (W I : Type) [Writer W] (x : Number) : Prop where
  index : ∀ n, x.index? = some n ↔ x.IsIndex n
  character : ∀ c, x.character? = some c ↔ x.IsCode c
  index_cast : x.index? = x.castIndex?
  character_cast : x.character? = x.castCharacter?
  overwrite_fault : ∀ (m : Machine W I) (value : Number) (place : Position),
    m.overwrite x value place = .fault ⟨.invalidIndex x, place⟩ m ↔ ∀ n, ¬ x.IsIndex n
  find_fault : ∀ m : Machine W I, m.state.lastValue = some x → ∀ (p : Program) (place : Position),
    m.find p place = .fault ⟨.invalidIndex x, place⟩ m ↔ ∀ n, ¬ x.IsIndex n
  print_fault : ∀ m : Machine W I, m.state.lastValue = some x → ∀ place : Position,
    m.print place = .fault ⟨.invalidCharacter x, place⟩ m ↔ ∀ c, ¬ x.IsCode c

theorem converts [Writer W] (x : Number) : x.Converts W I where
  index _ := index?_eq_some_iff
  character _ := character?_eq_some_iff
  index_cast := index?_eq_castIndex? x
  character_cast := character?_eq_castCharacter? x
  overwrite_fault _ _ _ := Machine.overwrite_invalidIndex_iff
  find_fault _ hx _ _ := Machine.find_invalidIndex_iff hx
  print_fault _ hx _ := Machine.print_invalidCharacter_iff hx

end Number

/-! ## The character that is read -/

theorem State.lookup_assign (s : State) (name : String) (value : Number) :
    (s.assign name value).lookup name = some value := by
  unfold assign
  split
  · rename_i hframes
    simp only [lookup, hframes, Table.get?_insert, if_true]
  · rename_i frame rest hframes
    by_cases hlocal : (frame.scope.contains name || !s.globals.contains name) = true
    · rw [if_pos hlocal]
      simp only [lookup, Table.get?_insert, if_true]
    · have hscope : frame.scope.get? name = none := by
        rw [Bool.not_eq_true, Bool.or_eq_false_iff] at hlocal
        exact Option.isNone_iff_eq_none.1 (Option.isSome_eq_false_iff.1 hlocal.1)
      rw [if_neg hlocal]
      simp only [lookup, hframes, hscope, Table.get?_insert, if_true]

namespace Sink

/-- There is room for a text, or no bound. -/
def HasRoom (s : Sink) (text : String) : Prop := ∀ room ∈ s.room, text.utf8ByteSize ≤ room

theorem write_of_hasRoom {s : Sink} {text : String} (h : s.HasRoom text) :
    ∃ s', Writer.write s text = (none, s') ∧ s'.written = s.written ++ text := by
  obtain ⟨written, room, flushFails⟩ := s
  cases room with
  | none => exact ⟨_, rfl, rfl⟩
  | some room => exact ⟨_, if_pos (h room rfl), rfl⟩

end Sink

namespace Machine

/-- A last value that is a character is written as this character. -/
theorem print_writes {m : Machine Sink I} {x : Number} (hx : m.state.lastValue = some x) {c : Char}
    (hc : x.character? = some c) (hroom : m.sink.HasRoom (String.singleton c)) (place : Position) :
    ∃ sink, m.print place = .done () { m with sink := sink } ∧
      sink.written = m.sink.written ++ String.singleton c := by
  obtain ⟨sink, hwrite, hwritten⟩ := Sink.write_of_hasRoom hroom
  refine ⟨sink, ?_, hwritten⟩
  rw [print_of_character? hx hc, write, hwrite, onSink]

/-- The variable that `press` binds is printed as the first character of the line. -/
theorem press_echoes [LineSource I] {m m' : Machine Sink I} {line : String} {place : Position}
    (hline : m.readLine place = .done line m') {c : Char} {rest : List Char}
    (hchars : line.toList = c :: rest) (name : String) :
    ∃ m'' x, m.press name place = .done () m'' ∧ m''.state.lookup name = some x ∧
      ∀ (k : Machine Sink I) (place' : Position), k.state.lastValue = some x →
        k.sink.HasRoom (String.singleton c) →
          ∃ sink, k.print place' = .done () { k with sink := sink } ∧
            sink.written = k.sink.written ++ String.singleton c := by
  refine ⟨m'.assign name (.ofChar c), .ofChar c, ?_, State.lookup_assign .., ?_⟩
  · simp only [press, hline, Outcome.andThen, hchars]
  · intro k place' hvalue hroom
    exact print_writes hvalue (Number.character?_ofChar c) hroom place'

end Machine

namespace Number

/-- A number is an index exactly if it equals a natural number up to `2^53 - 1`, and a character
exactly if it equals the code of one; the fault names any other number. In particular a sink that has
room for it is given the first character of a line when the variable that `press` binds is printed. -/
theorem conversions_exact [Writer W] [LineSource I] :
    (∀ x : Number, x.Converts W I) ∧
    ∀ (m m' : Machine Sink I) (name line : String) (place : Position) (c : Char) (rest : List Char),
      m.readLine place = .done line m' → line.toList = c :: rest →
        ∃ m'' x, m.press name place = .done () m'' ∧ m''.state.lookup name = some x ∧
          ∀ (k : Machine Sink I) (place' : Position), k.state.lastValue = some x →
            k.sink.HasRoom (String.singleton c) →
              ∃ sink, k.print place' = .done () { k with sink := sink } ∧
                sink.written = k.sink.written ++ String.singleton c :=
  ⟨converts, fun _ _ name _ _ _ _ hline hchars => Machine.press_echoes hline hchars name⟩

/-- A machine with a last value, before it reads a line. -/
def reading (value : Number) : Machine :=
  { state := { lastValue := some value }, input := Input.ofText "ho\n" }

theorem conversions_exact_halfAndSurrogate :
    (-0 : Number).index? = some 0 ∧
      (reading 0.5).find [] {} = .fault ⟨.invalidIndex 0.5, {}⟩ (reading 0.5) ∧
      (reading 55296).print {} = .fault ⟨.invalidCharacter 55296, {}⟩ (reading 55296) ∧
      ∃ m x sink, (reading 0).press "x" {} = .done () m ∧ m.state.lookup "x" = some x ∧
        (reading x).print {} = .done () { reading x with sink := sink } ∧ sink.written = "h" := by
  obtain ⟨hnumbers, hpress⟩ := conversions_exact (W := Sink) (I := Input)
  have hhalf : ∀ n, ¬ IsIndex 0.5 n := by
    rintro n ⟨hvalue, -⟩
    have hrational : (0.5 : Number).rational? = some (4503599627370496 * 2 ^ (-53 : ℤ)) := rfl
    have hunits := Option.some_inj.1 (hrational.symm.trans hvalue)
    have hdouble : ((2 * n : Nat) : ℚ) = (1 : Nat) := by
      rw [Nat.cast_mul, ← hunits]
      norm_num
    have hodd : 2 * n = 1 := Nat.cast_inj.1 hdouble
    omega
  have hsurrogate : ∀ c, ¬ IsCode 55296 c := by
    intro c hcode
    have hrational : (55296 : Number).rational? = some (7599824371187712 * 2 ^ (-37 : ℤ)) := rfl
    have hunits := Option.some_inj.1 (hrational.symm.trans hcode)
    have hcast : ((55296 : Nat) : ℚ) = (c.toNat : Nat) := by
      rw [← hunits]
      norm_num
    have hvalid : c.toNat.isValidChar := c.valid
    rw [← Nat.cast_inj.1 hcast] at hvalid
    revert hvalid
    decide
  have hline : (reading 0).readLine {} = .done "ho" { reading 0 with input := [] } :=
    Machine.readLine_ofText (by simp) rfl (by rw [List.append_nil]; rfl) {}
  obtain ⟨m, x, hdone, hlookup, hprint⟩ := hpress _ _ "x" "ho" {} 'h' ['o'] hline rfl
  obtain ⟨sink, hecho, hwritten⟩ := hprint (reading x) {} rfl (by rintro _ ⟨⟩)
  exact ⟨((hnumbers (-0)).index 0).2 ⟨rfl, by decide⟩,
    ((hnumbers 0.5).find_fault _ rfl _ _).2 hhalf,
    ((hnumbers 55296).print_fault _ rfl _).2 hsurrogate, m, x, sink, hdone, hlookup, hecho, hwritten⟩

end Number
end VerbScript
