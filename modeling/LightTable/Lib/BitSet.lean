/-
  LightTable.Lib.BitSet
  ─────────────────────
  Sets of numbers as the bits of one number: `i` is in the set `x` when
  `x.testBit i`.  Union, difference and a shift of all elements are one
  operation on the whole set each, so that a search through a large finite
  space can be computed.

  A list of such sets is a table with one set a row; `row` reads it, and the
  rows beyond its end are empty.
-/
import Mathlib.Data.List.GetD
import Mathlib.Data.Nat.Bitwise

namespace BitSet

/-! ## §1. Sets. -/

/-- The numbers below `2 ^ n` whose bit `v` is set. -/
def withBit (v : Nat) : Nat → Nat
  | 0 => 0
  | n + 1 =>
      if n < v then 0
      else if n = v then ((1 <<< 2 ^ v) - 1) <<< 2 ^ v
      else withBit v n ||| withBit v n <<< 2 ^ n

/-- The set `x` without the elements of `m`. -/
def without (m x : Nat) : Nat := x ^^^ (x &&& m)

/-- All numbers below `2 ^ n`. -/
def full (n : Nat) : Nat := (1 <<< 2 ^ n) - 1

theorem testBit_full (n i : Nat) : (full n).testBit i = decide (i < 2 ^ n) := by
  unfold full
  rw [Nat.one_shiftLeft, Nat.testBit_two_pow_sub_one]

@[simp] theorem testBit_without (m x i : Nat) :
    (without m x).testBit i = (x.testBit i && !m.testBit i) := by
  unfold without
  rw [Nat.testBit_xor, Nat.testBit_and]
  cases x.testBit i <;> cases m.testBit i <;> rfl

/-- The lower and the upper half of the numbers of `n + 1` bits have the same
bits below `n`. -/
theorem testBit_withBit (v : Nat) :
    ∀ n i : Nat, (withBit v n).testBit i = (decide (i < 2 ^ n) && i.testBit v)
  | 0, i => by
      rw [withBit, Nat.zero_testBit]
      by_cases hi : i < 2 ^ 0
      · obtain rfl : i = 0 := by omega
        rw [Nat.zero_testBit, Bool.and_false]
      · rw [decide_eq_false hi, Bool.false_and]
  | n + 1, i => by
      have hpow : 2 ^ (n + 1) = 2 ^ n + 2 ^ n := by omega
      rw [withBit]
      by_cases hlt : n < v
      · -- no number of `n + 1` bits has the bit
        rw [if_pos hlt, Nat.zero_testBit]
        by_cases hi : i < 2 ^ (n + 1)
        · have hle : 2 ^ (n + 1) ≤ 2 ^ v := Nat.pow_le_pow_right (by omega) hlt
          rw [Nat.testBit_lt_two_pow (Nat.lt_of_lt_of_le hi hle), Bool.and_false]
        · rw [decide_eq_false hi, Bool.false_and]
      · rw [if_neg hlt]
        by_cases heq : n = v
        · -- the upper half has it
          subst heq
          rw [if_pos rfl, Nat.one_shiftLeft, Nat.testBit_shiftLeft, Nat.testBit_two_pow_sub_one]
          by_cases hge : 2 ^ n ≤ i
          · obtain ⟨j, rfl⟩ := Nat.exists_eq_add_of_le hge
            rw [decide_eq_true hge, Bool.true_and, Nat.add_sub_cancel_left]
            by_cases hj : j < 2 ^ n
            · rw [Nat.testBit_two_pow_add_eq, Nat.testBit_lt_two_pow hj, decide_eq_true hj,
                decide_eq_true (by omega : 2 ^ n + j < 2 ^ (n + 1))]
              rfl
            · rw [decide_eq_false hj, decide_eq_false (by omega : ¬ 2 ^ n + j < 2 ^ (n + 1)),
                Bool.false_and]
          · rw [decide_eq_false hge, Bool.false_and, Nat.testBit_lt_two_pow (by omega),
              Bool.and_false]
        · rw [if_neg heq, Nat.testBit_or, Nat.testBit_shiftLeft, testBit_withBit v n,
            testBit_withBit v n]
          by_cases hge : 2 ^ n ≤ i
          · obtain ⟨j, rfl⟩ := Nat.exists_eq_add_of_le hge
            rw [decide_eq_false (by omega : ¬ 2 ^ n + j < 2 ^ n), decide_eq_true hge,
              Nat.add_sub_cancel_left, Nat.testBit_two_pow_add_gt (by omega), hpow]
            simp only [Nat.add_lt_add_iff_left, Bool.false_and, Bool.false_or, Bool.true_and]
          · have hi : i < 2 ^ n := Nat.lt_of_not_le hge
            rw [decide_eq_true hi, decide_eq_false hge, decide_eq_true (by omega : i < 2 ^ (n + 1)),
              Bool.false_and, Bool.or_false]

/-! ## §2. Tables. -/

/-- The set in row `s`. -/
def row (rows : List Nat) (s : Nat) : Nat := rows.getD s 0

@[simp] theorem row_nil (s : Nat) : row [] s = 0 := rfl

@[simp] theorem row_cons_zero (a : Nat) (l : List Nat) : row (a :: l) 0 = a := rfl

@[simp] theorem row_cons_succ (a : Nat) (l : List Nat) (s : Nat) :
    row (a :: l) (s + 1) = row l s := rfl

/-- Two tables, row by row. -/
def merge : List Nat → List Nat → List Nat
  | [], bs => bs
  | a :: as, [] => a :: as
  | a :: as, b :: bs => (a ||| b) :: merge as bs

/-- Each row with an even index takes up the image of the row after it. -/
def pairUp (f : Nat → Nat) : List Nat → List Nat
  | [] => []
  | [a] => [a]
  | a :: b :: l => (a ||| f b) :: pairUp f l

/-- What is in some row. -/
def union (rows : List Nat) : Nat := rows.foldr (· ||| ·) 0

theorem row_merge (as bs : List Nat) (s : Nat) : row (merge as bs) s = row as s ||| row bs s := by
  induction as generalizing bs s with
  | nil => simp [merge]
  | cons a as ih =>
    cases bs with
    | nil => simp [merge]
    | cons b bs =>
      cases s with
      | zero => simp [merge]
      | succ s => simp [merge, ih]

theorem row_pairUp {f : Nat → Nat} (h0 : f 0 = 0) :
    ∀ (l : List Nat) (s : Nat), row (pairUp f l) s = row l (2 * s) ||| f (row l (2 * s + 1))
  | [], s => by simp [pairUp, h0]
  | [a], s => by
      cases s with
      | zero => simp [pairUp, h0]
      | succ s => simp [pairUp, h0, Nat.mul_add]
  | a :: b :: l, s => by
      cases s with
      | zero => simp [pairUp]
      | succ s => simp [pairUp, row_pairUp h0 l, Nat.mul_add]

theorem row_map {f : Nat → Nat} (h0 : f 0 = 0) (l : List Nat) (s : Nat) :
    row (l.map f) s = f (row l s) := by
  unfold row
  rw [← h0, List.getD_map, h0]

/-- Rows moved down by `n`. -/
theorem row_replicate_append (n : Nat) (l : List Nat) (s : Nat) :
    row (List.replicate n 0 ++ l) s = if s < n then 0 else row l (s - n) := by
  unfold row
  by_cases hs : s < n
  · rw [if_pos hs, List.getD_append _ _ _ _ (by simpa using hs), List.getD_replicate _ hs]
  · rw [if_neg hs, List.getD_append_right _ _ _ _ (by simpa using hs), List.length_replicate]

theorem testBit_union {rows : List Nat} {i : Nat} :
    (union rows).testBit i = true ↔ ∃ s, (row rows s).testBit i = true := by
  induction rows with
  | nil => simp [union]
  | cons a l ih =>
    have hunion : union (a :: l) = a ||| union l := rfl
    rw [hunion, Nat.testBit_or, Bool.or_eq_true, ih]
    constructor
    · rintro (ha | ⟨s, hs⟩)
      · exact ⟨0, ha⟩
      · exact ⟨s + 1, hs⟩
    · rintro ⟨s, hs⟩
      cases s with
      | zero => exact Or.inl hs
      | succ s => exact Or.inr ⟨s, hs⟩

end BitSet
