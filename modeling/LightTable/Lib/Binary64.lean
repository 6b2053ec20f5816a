/-
  LightTable.Lib.Binary64
  ───────────────────────
  IEEE 754 binary64 words, as far as integers need them: conversion of a
  natural number to the nearest double (ties to even), and truncation of a
  double to an integer.

  A double is its 64-bit word, a `Nat`: sign bit, 11 exponent bits, 52
  fraction bits.  The round trip is exact below 2^53.
-/
import Mathlib.Algebra.Group.Nat.Defs

namespace Binary64

/-! ## §1. Fields. -/

/-- 2^52, the weight of the lowest exponent bit. -/
def unit : Nat := 4503599627370496

def fraction (w : Nat) : Nat := w % unit

def exponent (w : Nat) : Nat := w / unit % 2048

def negative (w : Nat) : Bool := decide (9223372036854775808 ≤ w)

/-- The significand, with the hidden bit of a normal number. -/
def significand (w : Nat) : Nat :=
  if exponent w = 0 then fraction w else unit + fraction w

/-! ## §2. Truncation. -/

/-- The integer part of the magnitude of a finite double. -/
def magnitude (w : Nat) : Nat :=
  if 1075 ≤ exponent w then significand w <<< (exponent w - 1075)
  else significand w >>> (1075 - exponent w)

/-- Truncation toward zero to a 64-bit signed integer; `none` for infinities,
NaNs and values outside the range. -/
def truncate (w : Nat) : Option Int :=
  if exponent w = 2047 then none
  else
    let i : Int := if negative w then -(magnitude w : Int) else magnitude w
    if -9223372036854775808 ≤ i ∧ i < 9223372036854775808 then some i else none

/-! ## §3. Rounding, and conversion of a natural number. -/

/-- `n / 2^k` rounded to nearest, ties to even. -/
def roundShift (n k : Nat) : Nat :=
  let q := n >>> k
  let rem := n - q <<< k
  if 1 <<< k < 2 * rem ∨ (2 * rem = 1 <<< k ∧ q % 2 = 1) then q + 1 else q

/-- The double nearest to `n`.  A significand that rounds up to 2^53 carries
into the exponent. -/
def ofNat (n : Nat) : Nat :=
  if n = 0 then 0
  else if n.log2 ≤ 52 then (n.log2 + 1022) * unit + n <<< (52 - n.log2)
  else (n.log2 + 1022) * unit + roundShift n (n.log2 - 52)

/-- The double nearest to an integer. -/
def ofInt (i : Int) : Nat :=
  if i < 0 then 9223372036854775808 + ofNat i.natAbs else ofNat i.natAbs

/-- A million times the magnitude of a finite double, rounded to nearest, ties
to even.  The exponent field 0 stands for the same power of two as 1. -/
def millionths (w : Nat) : Nat :=
  if 1075 ≤ exponent w then (significand w * 1000000) <<< (exponent w - 1075)
  else roundShift (significand w * 1000000) (1075 - max (exponent w) 1)

/-- The significand of a number below 2^53 has its top bit set. -/
theorem shiftLeft_bounds {n : Nat} (h0 : n ≠ 0) (h : n.log2 ≤ 52) :
    unit ≤ n <<< (52 - n.log2) ∧ n <<< (52 - n.log2) < 2 * unit := by
  have hlo : 2 ^ n.log2 ≤ n := Nat.log2_self_le h0
  have hhi : n < 2 ^ (n.log2 + 1) := Nat.lt_log2_self
  have hpow : 2 ^ n.log2 * 2 ^ (52 - n.log2) = unit := by
    rw [← Nat.pow_add, Nat.add_sub_cancel' h]
    rfl
  rw [Nat.shiftLeft_eq]
  constructor
  · calc unit = 2 ^ n.log2 * 2 ^ (52 - n.log2) := hpow.symm
      _ ≤ n * 2 ^ (52 - n.log2) := Nat.mul_le_mul_right _ hlo
  · calc n * 2 ^ (52 - n.log2) < 2 ^ (n.log2 + 1) * 2 ^ (52 - n.log2) :=
          Nat.mul_lt_mul_of_pos_right hhi (Nat.pow_pos (by decide))
      _ = 2 * (2 ^ n.log2 * 2 ^ (52 - n.log2)) := by
          rw [Nat.pow_succ, Nat.mul_comm (2 ^ n.log2) 2, Nat.mul_assoc]
      _ = 2 * unit := by rw [hpow]

/-- The fields of a converted number below 2^53. -/
theorem ofNat_fields {n : Nat} (h0 : n ≠ 0) (h : n.log2 ≤ 52) :
    exponent (ofNat n) = n.log2 + 1023 ∧ significand (ofNat n) = n <<< (52 - n.log2)
      ∧ negative (ofNat n) = false := by
  have hb := shiftLeft_bounds h0 h
  have hw : ofNat n = (n.log2 + 1022) * unit + n <<< (52 - n.log2) := by
    unfold ofNat
    rw [if_neg h0, if_pos h]
  generalize n <<< (52 - n.log2) = sig at hb hw ⊢
  have hexp : exponent (ofNat n) = n.log2 + 1023 := by
    unfold exponent
    rw [hw]
    unfold unit at *
    omega
  refine ⟨hexp, ?_, ?_⟩
  · unfold significand fraction
    rw [hexp, if_neg (by omega), hw]
    unfold unit at *
    omega
  · unfold negative
    rw [hw, decide_eq_false_iff_not]
    unfold unit at *
    omega

/-- A significand rounded to 53 bits. -/
theorem roundShift_bounds {n : Nat} (h0 : n ≠ 0) (h : 52 < n.log2) :
    unit ≤ roundShift n (n.log2 - 52) ∧ roundShift n (n.log2 - 52) ≤ 2 * unit := by
  have hlo : 2 ^ n.log2 ≤ n := Nat.log2_self_le h0
  have hhi : n < 2 ^ (n.log2 + 1) := Nat.lt_log2_self
  have hpow : unit * 2 ^ (n.log2 - 52) = 2 ^ n.log2 := by
    rw [show unit = 2 ^ 52 from rfl, ← Nat.pow_add, Nat.add_sub_cancel' (Nat.le_of_lt h)]
  have hq : unit ≤ n >>> (n.log2 - 52) ∧ n >>> (n.log2 - 52) < 2 * unit := by
    rw [Nat.shiftRight_eq_div_pow]
    constructor
    · rw [Nat.le_div_iff_mul_le (Nat.pow_pos (by decide)), hpow]
      exact hlo
    · rw [Nat.div_lt_iff_lt_mul (Nat.pow_pos (by decide)), Nat.mul_assoc, hpow]
      rwa [Nat.pow_succ, Nat.mul_comm] at hhi
  unfold roundShift
  simp only
  split <;> omega

/-- A converted number lies between its own power of two and the next. -/
theorem ofNat_bounds {n : Nat} (h0 : n ≠ 0) :
    (n.log2 + 1023) * unit ≤ ofNat n ∧ ofNat n ≤ (n.log2 + 1024) * unit := by
  unfold ofNat
  rw [if_neg h0]
  by_cases h : n.log2 ≤ 52
  · have hb := shiftLeft_bounds h0 h
    rw [if_pos h, Nat.add_mul, Nat.add_mul, Nat.add_mul]
    unfold unit at *
    omega
  · have hb := roundShift_bounds h0 (Nat.not_le.mp h)
    rw [if_neg h, Nat.add_mul, Nat.add_mul, Nat.add_mul]
    unfold unit at *
    omega

/-- Only 0 is converted to a zero, among the numbers below 2^64. -/
theorem ofNat_mod_eq_zero {n : Nat} (h : n < 18446744073709551616)
    (hz : ofNat n % 9223372036854775808 = 0) : n = 0 := by
  refine Decidable.byContradiction (fun h0 => ?_)
  have hlog : n.log2 < 64 := (Nat.log2_lt h0).mpr h
  have hb := ofNat_bounds h0
  have hlo : 1023 * unit ≤ (n.log2 + 1023) * unit := Nat.mul_le_mul_right _ (Nat.le_add_left _ _)
  have hhi : (n.log2 + 1024) * unit ≤ 1087 * unit := Nat.mul_le_mul_right _ (by omega)
  unfold unit at *
  omega

/-- Numbers below 2^52 and from 2^53 on are converted apart. -/
theorem ofNat_lt_ofNat {i n : Nat} (hi : i < 4503599627370496) (hn : 9007199254740992 ≤ n) :
    ofNat i < ofNat n := by
  have hn0 : n ≠ 0 := by omega
  have hlog : 53 ≤ n.log2 := (Nat.le_log2 hn0).mpr hn
  have hlo : 1076 * unit ≤ (n.log2 + 1023) * unit := Nat.mul_le_mul_right _ (by omega)
  have hbig := Nat.le_trans hlo (ofNat_bounds hn0).1
  by_cases hi0 : i = 0
  · rw [hi0]
    exact Nat.lt_of_lt_of_le (by decide) hbig
  · have hlogi : i.log2 < 52 := (Nat.log2_lt hi0).mpr hi
    have hhi : (i.log2 + 1024) * unit ≤ 1075 * unit := Nat.mul_le_mul_right _ (by omega)
    have hsmall := Nat.le_trans (ofNat_bounds hi0).2 hhi
    unfold unit at *
    omega

/-- A natural number below 2^53 survives the conversion. -/
theorem truncate_ofNat {n : Nat} (h : n < 9007199254740992) : truncate (ofNat n) = some (n : Int) := by
  by_cases h0 : n = 0
  · subst h0
    decide
  · have hlog : n.log2 ≤ 52 := by
      have := (Nat.log2_lt h0).mpr (show n < 2 ^ 53 from h)
      omega
    obtain ⟨hexp, hsig, hneg⟩ := ofNat_fields h0 hlog
    have hmag : magnitude (ofNat n) = n := by
      unfold magnitude
      rw [hexp, hsig]
      by_cases h52 : n.log2 = 52
      · rw [if_pos (by omega), h52]
        rfl
      · have hshift : 1075 - (n.log2 + 1023) = 52 - n.log2 := by omega
        rw [if_neg (by omega), hshift, Nat.shiftLeft_eq, Nat.shiftRight_eq_div_pow]
        exact Nat.mul_div_cancel n (Nat.pow_pos (by decide))
    unfold truncate
    rw [hexp, hneg, hmag, if_neg (by omega)]
    simp only [Bool.false_eq_true, if_false]
    rw [if_pos (by omega)]

end Binary64
