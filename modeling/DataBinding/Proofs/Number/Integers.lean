-- Integers as numbers. An integer of absolute value below 2 ^ 53 has a number of its own, and that number is
-- the same integer again. An integral number of that size is the number of its integer, minus zero apart.
import DataBinding.Number.Rounding
import Mathlib.Data.Nat.Log
import Mathlib.Tactic.Ring

namespace DataBinding.Number

/-! ## Fields of a number -/

theorem eq_of_toNat {a b : Number} (same : a.bits.toNat = b.bits.toNat) : a = b := by
  cases a
  cases b
  simpa [UInt64.toNat_inj] using same

theorem bits_lt (n : Number) : n.bits.toNat < 2 ^ 64 := n.bits.toNat_lt

section Fields

variable {magnitude : Nat} (small : magnitude < 2 ^ 63) (sign : Bool)
include small

theorem bits_ofMagnitude :
    (ofMagnitude sign magnitude).bits.toNat = magnitude + if sign then 2 ^ 63 else 0 := by
  cases sign <;> simp [ofMagnitude, Nat.one_shiftLeft] <;> omega

theorem negative_ofMagnitude : (ofMagnitude sign magnitude).negative = sign := by
  simp only [negative, bits_ofMagnitude small, Nat.shiftRight_eq_div_pow]
  cases sign <;> simp <;> omega

theorem exponentField_ofMagnitude :
    (ofMagnitude sign magnitude).exponentField = magnitude / 2 ^ 52 := by
  simp only [exponentField, bits_ofMagnitude small, Nat.shiftRight_eq_div_pow]
  cases sign <;> simp <;> omega

theorem fraction_ofMagnitude : (ofMagnitude sign magnitude).fraction = magnitude % 2 ^ 52 := by
  simp only [fraction, bits_ofMagnitude small, Nat.one_shiftLeft]
  cases sign
  · simp
  · simp
    omega

end Fields

theorem exponentField_lt (n : Number) : n.exponentField < 2048 := Nat.mod_lt _ (by decide)

theorem fraction_lt (n : Number) : n.fraction < 2 ^ 52 := by
  simpa [fraction, Nat.one_shiftLeft] using Nat.mod_lt n.bits.toNat (by decide : 0 < 2 ^ 52)

/-- A number is its sign, its exponent field and its fraction. -/
theorem eq_ofMagnitude (n : Number) :
    n = ofMagnitude n.negative (n.exponentField * 2 ^ 52 + n.fraction) := by
  have small : n.exponentField * 2 ^ 52 + n.fraction < 2 ^ 63 := by
    have := n.exponentField_lt
    have := n.fraction_lt
    omega
  have := n.bits_lt
  refine eq_of_toNat ?_
  rw [bits_ofMagnitude small]
  simp only [negative, exponentField, fraction, Nat.shiftRight_eq_div_pow, Nat.one_shiftLeft,
    decide_eq_true_eq]
  split <;> omega

theorem isZero_iff {n : Number} : n.isZero ↔ n.exponentField = 0 ∧ n.fraction = 0 := by
  simp only [isZero, exponentField, fraction, Nat.shiftRight_eq_div_pow, Nat.one_shiftLeft,
    decide_eq_true_eq]
  omega

/-! ## Rounding an integer -/

theorem floorLog2_one {k : Nat} (hk : k ≠ 0) : floorLog2 k 1 = k.log2 := by
  have fits : 2 ^ k.log2 ≤ k := Nat.log2_self_le hk
  have guess : (k.log2 : Int) - (1 : Nat).log2 = .ofNat k.log2 := by
    simp [show (1 : Nat).log2 = 0 by decide]
  simp only [floorLog2, guess, Nat.one_shiftLeft, fits, decide_true, if_true]
  rfl

theorem nearestEven_one (k : Nat) : nearestEven k 1 = k := by
  simp [nearestEven, Nat.mod_one]

/-- An integer in units of `2 ^ -places` is not rounded. -/
theorem ofRatio_one {k places : Nat} (sign : Bool) (hk : k ≠ 0)
    (unit : max ((k.log2 : Int) - 52) (-1074) = -(places : Int)) :
    ofRatio sign k 1 =
      let magnitude := (-(places : Int) + 1074).toNat * 2 ^ 52 + k * 2 ^ places
      if magnitude ≥ 2047 <<< 52 then infinity sign else ofMagnitude sign magnitude := by
  cases places with
  | zero =>
    simp only [ofRatio, if_neg hk, floorLog2_one hk, unit, ← Nat.shiftLeft_eq]
    simp [nearestEven_one]
  | succ p =>
    rw [show (-((p + 1 : Nat) : Int)) = .negSucc p from rfl] at *
    simp only [ofRatio, if_neg hk, floorLog2_one hk, unit, nearestEven_one, Nat.shiftLeft_eq]

/-- An integer whose leading bit is bit `52 - places` fits a significand exactly. -/
theorem ofRatio_of_fits {k places : Nat} (sign : Bool) (hp : places ≤ 52)
    (low : 2 ^ 52 ≤ k * 2 ^ places) (high : k * 2 ^ places < 2 ^ 53) :
    ofRatio sign k 1 = ofMagnitude sign ((1074 - places) * 2 ^ 52 + k * 2 ^ places) := by
  have split : 2 ^ (52 - places) * 2 ^ places = 2 ^ 52 := by
    rw [← pow_add, Nat.sub_add_cancel hp]
  have hk : k ≠ 0 := by
    rintro rfl
    simp at low
  have log : k.log2 = 52 - places := by
    refine (Nat.log2_eq_iff hk).mpr ⟨?_, ?_⟩
    · exact Nat.le_of_mul_le_mul_right (split ▸ low) (Nat.two_pow_pos _)
    · refine Nat.lt_of_mul_lt_mul_right (a := 2 ^ places) ?_
      rw [pow_succ, mul_right_comm, split]
      exact high
  have unit : max ((k.log2 : Int) - 52) (-1074) = -(places : Int) := by omega
  rw [ofRatio_one sign hk unit,
    show (-(places : Int) + 1074).toNat = 1074 - places by omega]
  refine if_neg ?_
  rw [Nat.shiftLeft_eq]
  omega

/-! ## The integer that a number is -/

/-- A magnitude with a sign. -/
def signed (negative : Bool) (k : Nat) : Int := if negative then -k else k

@[simp]
theorem natAbs_signed (negative : Bool) (k : Nat) : (signed negative k).natAbs = k := by
  cases negative <;> simp [signed]

theorem signed_neg_iff {negative : Bool} {k : Nat} (hk : k ≠ 0) :
    signed negative k < 0 ↔ negative := by
  cases negative <;> simp [signed]
  omega

theorem signed_natAbs (i : Int) : signed (i < 0) i.natAbs = i := by
  simp only [signed, decide_eq_true_eq]
  split <;> omega

theorem isFinite_of_toInt? {n : Number} {i : Int} (h : n.toInt? = some i) : n.isFinite := by
  by_contra infinite
  simp [toInt?, infinite] at h

section Exponents

variable {n : Number} (finite : n.isFinite)
include finite

theorem toInt?_of_exponent {e : Nat} (exponent : n.exponent = e) :
    n.toInt? = some (signed n.negative (n.significand * 2 ^ e)) := by
  rw [show (e : Int) = .ofNat e from rfl] at exponent
  simp only [toInt?, finite, exponent, Nat.shiftLeft_eq]
  rfl

theorem toInt?_of_places {p : Nat} (exponent : n.exponent = -((p + 1 : Nat) : Int)) :
    n.toInt? = if n.significand % 2 ^ (p + 1) = 0 then
      some (signed n.negative (n.significand / 2 ^ (p + 1))) else none := by
  rw [show (-((p + 1 : Nat) : Int)) = .negSucc p from rfl] at exponent
  simp only [toInt?, finite, exponent, Nat.one_shiftLeft, Nat.shiftRight_eq_div_pow]
  rfl

end Exponents

theorem exponent_of_field {n : Number} (normal : n.exponentField ≠ 0) :
    n.exponent = n.exponentField - 1075 := if_neg normal

theorem toInt?_of_scaled {n : Number} {k places : Nat} (hp : places ≤ 1074)
    (field : n.exponentField = 1075 - places) (whole : n.significand = k * 2 ^ places) :
    n.toInt? = some (signed n.negative k) := by
  have finite : n.isFinite := by
    simp only [isFinite, field, decide_eq_true_eq]
    omega
  have exponent : n.exponent = -(places : Int) := by
    rw [exponent_of_field (by omega)]
    omega
  cases places with
  | zero => simp [toInt?_of_exponent finite exponent, whole]
  | succ p => simp [toInt?_of_places finite exponent, whole]

theorem significand_lt (n : Number) : n.significand < 2 ^ 53 := by
  have := n.fraction_lt
  rw [significand, Nat.one_shiftLeft]
  split <;> omega

/-- A number without a fraction is zero, or a multiple of its significand, or a quotient of it. -/
theorem toInt?_cases {n : Number} {i : Int} (h : n.toInt? = some i) (hz : ¬ n.isZero) :
    n.exponentField ≠ 0 ∧
      ((∃ e, n.exponentField = 1075 + e ∧ i = signed n.negative (n.significand * 2 ^ e)) ∨
        ∃ places k, n.exponentField + places = 1075 ∧ n.significand = k * 2 ^ places ∧
          i = signed n.negative k) := by
  have hf := n.fraction_lt
  rw [isZero_iff] at hz
  have finite := isFinite_of_toInt? h
  by_cases subnormal : n.exponentField = 0
  · have tiny {p : Nat} (hp : 52 ≤ p) : n.significand % 2 ^ p = n.fraction := by
      rw [significand, if_pos subnormal]
      exact Nat.mod_eq_of_lt (hf.trans_le (Nat.pow_le_pow_right (by decide) hp))
    rw [toInt?_of_places finite (p := 1073) (if_pos subnormal), tiny (by decide),
      if_neg fun none => hz ⟨subnormal, none⟩] at h
    contradiction
  refine ⟨subnormal, ?_⟩
  have exponent := exponent_of_field subnormal
  by_cases low : n.exponentField < 1075
  · obtain ⟨p, hp⟩ : ∃ p, n.exponentField + (p + 1) = 1075 := ⟨1074 - n.exponentField, by omega⟩
    rw [toInt?_of_places finite (p := p) (by omega)] at h
    split at h
    case isTrue whole =>
      refine .inr ⟨p + 1, _, hp, ?_, (Option.some.inj h).symm⟩
      exact (Nat.div_mul_cancel (Nat.dvd_of_mod_eq_zero whole)).symm
    case isFalse => contradiction
  · obtain ⟨e, he⟩ : ∃ e, n.exponentField = 1075 + e := ⟨n.exponentField - 1075, by omega⟩
    rw [toInt?_of_exponent finite (e := e) (by omega)] at h
    exact .inl ⟨e, he, (Option.some.inj h).symm⟩

/-- A number below `2 ^ 53` that is not zero and has no fraction is an integer in units that fit its
significand. -/
theorem scaled_of_toInt? {n : Number} {i : Int} (h : n.toInt? = some i) (small : i.natAbs < 2 ^ 53)
    (hz : ¬ n.isZero) :
    ∃ places ≤ 52, n.exponentField + places = 1075 ∧ n.significand = i.natAbs * 2 ^ places ∧
      i = signed n.negative i.natAbs := by
  obtain ⟨normal, cases⟩ := toInt?_cases h hz
  have leading : 2 ^ 52 ≤ n.significand := by
    rw [significand, if_neg normal, Nat.one_shiftLeft]
    omega
  obtain ⟨e, field, rfl⟩ | ⟨places, k, field, whole, rfl⟩ := cases
  · obtain rfl : e = 0 := by
      by_contra he
      have : 2 ^ 1 ≤ 2 ^ e := Nat.pow_le_pow_right (by decide) (by omega)
      have : 2 ^ 52 * 2 ^ 1 ≤ n.significand * 2 ^ e := Nat.mul_le_mul leading this
      simp at small
      omega
    exact ⟨0, by omega, field, by simp⟩
  · refine ⟨places, ?_, field, by simpa using whole, by simp⟩
    have : k ≠ 0 := by
      rintro rfl
      omega
    have : 2 ^ places ≤ n.significand := by
      rw [whole]
      exact Nat.le_mul_of_pos_left _ (by omega)
    have := (Nat.pow_lt_pow_iff_right (by decide : 1 < 2)).mp (this.trans_lt n.significand_lt)
    omega

/-! ## There and back -/

theorem toInt?_of_isZero {n : Number} (hz : n.isZero) : n.toInt? = some 0 := by
  obtain ⟨field, fraction⟩ := isZero_iff.mp hz
  have finite : n.isFinite := by simp [isFinite, field]
  rw [toInt?_of_places finite (p := 1073) (if_pos field), significand, if_pos field, fraction,
    Nat.zero_mod, if_pos rfl, Nat.zero_div]
  cases n.negative <;> rfl

/-- The number of the integer that a number is; minus zero becomes zero. -/
theorem ofInt_of_toInt? {n : Number} {i : Int} (h : n.toInt? = some i) (small : i.natAbs < 2 ^ 53) :
    ofInt i = if n.isZero then zero else n := by
  split
  case isTrue hz =>
    rw [toInt?_of_isZero hz] at h
    cases h
    rfl
  case isFalse hz =>
    obtain ⟨places, hp, field, whole, sign⟩ := scaled_of_toInt? h small hz
    have leading : n.significand = 2 ^ 52 + n.fraction := by
      rw [significand, if_neg (by omega), Nat.one_shiftLeft]
    have hk : i.natAbs ≠ 0 := by
      intro none
      rw [none] at whole
      omega
    have negative : decide (i < 0) = n.negative := by
      rw [sign, Bool.decide_congr (signed_neg_iff hk), Bool.decide_coe]
    have low : 2 ^ 52 ≤ i.natAbs * 2 ^ places := by omega
    have high := whole ▸ n.significand_lt
    rw [ofInt, ofRatio_of_fits _ hp low high, negative, ← whole, leading]
    conv_rhs => rw [eq_ofMagnitude n]
    exact congrArg (ofMagnitude n.negative) (by omega)

theorem ofInt_zero : ofInt 0 = zero := rfl

theorem toInt?_ofInt {i : Int} (small : i.natAbs < 2 ^ 53) : (ofInt i).toInt? = some i := by
  by_cases hk : i.natAbs = 0
  · rw [Int.natAbs_eq_zero.mp hk, ofInt_zero]
    exact toInt?_of_isZero (by simp [isZero, zero])
  obtain ⟨places, hp, low, high⟩ :
      ∃ places ≤ 52, 2 ^ 52 ≤ i.natAbs * 2 ^ places ∧ i.natAbs * 2 ^ places < 2 ^ 53 := by
    have log : i.natAbs.log2 < 53 := (Nat.log2_lt hk).mpr small
    have shifted (e : Nat) : 2 ^ (i.natAbs.log2 + e) * 2 ^ (52 - i.natAbs.log2) = 2 ^ (52 + e) := by
      rw [← pow_add]
      congr 1
      omega
    refine ⟨52 - i.natAbs.log2, by omega, ?_, ?_⟩
    · rw [← shifted 0]
      exact Nat.mul_le_mul_right _ (Nat.log2_self_le hk)
    · rw [← shifted 1]
      exact Nat.mul_lt_mul_of_pos_right Nat.lt_log2_self (Nat.two_pow_pos _)
  rw [ofInt, ofRatio_of_fits _ hp low high]
  generalize whole : i.natAbs * 2 ^ places = significand at low high
  have bound : (1074 - places) * 2 ^ 52 + significand < 2 ^ 63 := by omega
  have field : (ofMagnitude (i < 0) ((1074 - places) * 2 ^ 52 + significand)).exponentField =
      1075 - places := by
    rw [exponentField_ofMagnitude bound]
    omega
  have kept : (ofMagnitude (i < 0) ((1074 - places) * 2 ^ 52 + significand)).significand =
      i.natAbs * 2 ^ places := by
    rw [Number.significand, if_neg (by omega), fraction_ofMagnitude bound, Nat.one_shiftLeft]
    omega
  rw [toInt?_of_scaled (by omega) field kept, negative_ofMagnitude bound, signed_natAbs]

end DataBinding.Number
