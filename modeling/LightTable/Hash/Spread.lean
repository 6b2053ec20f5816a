/-
  LightTable.Hash.Spread
  ──────────────────────
  Where the rounds on 20 bits lead: from 0, everywhere in six rounds.

  A round sends p to p ^ (32 p + p / 4 + d), for every digit `d`.  It is taken
  for a whole set of numbers at once, bit by bit from below: row `s` of a
  table holds the numbers with the carry `s`, their lower bits already those
  of the image (`imageAt`).  One bit moves sets between rows (`passBit`), and
  that is all a round needs (`mem_image`).
-/
import LightTable.Hash.Mixing
import LightTable.Lib.BitSet
import Mathlib.Tactic.Ring

namespace LightTable

open BitSet

/-! ## §1. One bit. -/

/-- What the sum of a round carries into bit `v`. -/
def carryAt (p d v : Nat) : Nat := (32 * (p % 2 ^ v) + p / 4 % 2 ^ v + d) / 2 ^ v

/-- The image of `p`, with the bits from `v` on still those of `p`. -/
def imageAt (p d v : Nat) : Nat := p ^^^ ((32 * p + p / 4 + d) % 2 ^ v)

/-- The sum at bit `v`, for the number `i` with the carry `s`. -/
def bitSum (v s i : Nat) : Nat := s + (i.testBit (v + 2)).toNat + 32 * (i.testBit v).toNat

variable {p d v w s i : Nat}

theorem mod_two_pow_succ (x v : Nat) :
    x % 2 ^ (v + 1) = x % 2 ^ v + 2 ^ v * (x.testBit v).toNat := by
  rw [Nat.mod_pow_succ, Nat.toNat_testBit]

theorem carryAt_zero : carryAt p d 0 = d := by
  unfold carryAt
  rw [Nat.pow_zero, Nat.mod_one, Nat.mod_one]
  omega

theorem imageAt_zero : imageAt p d 0 = p := by
  unfold imageAt
  rw [Nat.pow_zero, Nat.mod_one, Nat.xor_zero]

/-- The bits from `v` on are untouched. -/
theorem testBit_imageAt (h : v ≤ i) : (imageAt p d v).testBit i = p.testBit i := by
  have hlt : (32 * p + p / 4 + d) % 2 ^ v < 2 ^ i :=
    Nat.lt_of_lt_of_le (Nat.mod_lt _ (Nat.two_pow_pos v)) (Nat.pow_le_pow_right (by omega) h)
  unfold imageAt
  rw [Nat.testBit_xor, Nat.testBit_lt_two_pow hlt, Bool.xor_false]

theorem imageAt_lt (hp : p < 2 ^ w) (hv : v ≤ w) : imageAt p d v < 2 ^ w := by
  have hlt : (32 * p + p / 4 + d) % 2 ^ v < 2 ^ w :=
    Nat.lt_of_lt_of_le (Nat.mod_lt _ (Nat.two_pow_pos v)) (Nat.pow_le_pow_right (by omega) hv)
  exact Nat.xor_lt_two_pow hp hlt

theorem testBit_div_four (p v : Nat) : (p / 4).testBit v = p.testBit (v + 2) := by
  rw [Nat.testBit_add]

theorem bitSum_imageAt :
    bitSum v s (imageAt p d v) = s + ((p / 4).testBit v).toNat + 32 * (p.testBit v).toNat := by
  unfold bitSum
  rw [testBit_imageAt (by omega), testBit_imageAt (Nat.le_refl v), testBit_div_four]

/-- The carry of the next bit. -/
theorem carryAt_succ : carryAt p d (v + 1) = bitSum v (carryAt p d v) (imageAt p d v) / 2 := by
  have hpos : 0 < 2 ^ v := Nat.two_pow_pos v
  have hsum : 32 * (p % 2 ^ (v + 1)) + p / 4 % 2 ^ (v + 1) + d
      = 32 * (p % 2 ^ v) + p / 4 % 2 ^ v + d
        + 2 ^ v * (((p / 4).testBit v).toNat + 32 * (p.testBit v).toNat) := by
    rw [mod_two_pow_succ, mod_two_pow_succ]
    ring
  rw [bitSum_imageAt]
  unfold carryAt
  rw [hsum, Nat.pow_succ, ← Nat.div_div_eq_div_mul, Nat.add_mul_div_left _ _ hpos, ← Nat.add_assoc]

/-- The bit of the sum. -/
theorem testBit_sum :
    ((32 * p + p / 4 + d).testBit v).toNat = bitSum v (carryAt p d v) (imageAt p d v) % 2 := by
  have hpos : 0 < 2 ^ v := Nat.two_pow_pos v
  have hsum : 32 * p + p / 4 + d
      = 32 * (p % 2 ^ v) + p / 4 % 2 ^ v + d + 2 ^ v * (32 * (p / 2 ^ v) + p / 4 / 2 ^ v) := by
    have hp := Nat.mod_add_div p (2 ^ v)
    have hq := Nat.mod_add_div (p / 4) (2 ^ v)
    calc 32 * p + p / 4 + d
        = 32 * (p % 2 ^ v + 2 ^ v * (p / 2 ^ v)) + (p / 4 % 2 ^ v + 2 ^ v * (p / 4 / 2 ^ v)) + d := by
          rw [hp, hq]
      _ = _ := by ring
  have hquarter : ((p / 4).testBit v).toNat = p / 4 / 2 ^ v % 2 := Nat.toNat_testBit (p / 4) v
  rw [Nat.toNat_testBit, bitSum_imageAt, hsum, Nat.add_mul_div_left _ _ hpos]
  show (carryAt p d v + _) % 2 = _
  omega

/-- A bit that is not set is added or XORed alike. -/
theorem two_pow_add_eq_xor (h : i.testBit v = false) : 2 ^ v + i = i ^^^ 2 ^ v := by
  have hlt : i % 2 ^ v < 2 ^ v := Nat.mod_lt _ (Nat.two_pow_pos v)
  have hmod : i % 2 ^ (v + 1) = i % 2 ^ v := by
    rw [mod_two_pow_succ, h]
    rfl
  have hlow : i % 2 ^ v ^^^ 2 ^ v = 2 ^ v + i % 2 ^ v := by
    have := xor_blocks (n := v) 0 1 hlt (Nat.two_pow_pos v)
    simpa [Nat.add_comm] using this
  have hsplit : 2 ^ (v + 1) * (i / 2 ^ (v + 1)) + i % 2 ^ v = i := by
    rw [← hmod]
    exact Nat.div_add_mod i (2 ^ (v + 1))
  have hwide : i % 2 ^ v < 2 ^ (v + 1) := by omega
  have hxor := xor_blocks (n := v + 1) (i / 2 ^ (v + 1)) 0 hwide
    (Nat.pow_lt_pow_right (by omega) (by omega) : 2 ^ v < 2 ^ (v + 1))
  rw [Nat.mul_zero, Nat.zero_add, Nat.xor_zero, hsplit, hlow] at hxor
  rw [hxor]
  omega

/-- The image with one more bit. -/
theorem imageAt_succ :
    imageAt p d (v + 1)
      = imageAt p d v ^^^ (2 ^ v * (bitSum v (carryAt p d v) (imageAt p d v) % 2)) := by
  have hlt : (32 * p + p / 4 + d) % 2 ^ v < 2 ^ v := Nat.mod_lt _ (Nat.two_pow_pos v)
  have hbit := xor_blocks (n := v) 0 ((32 * p + p / 4 + d).testBit v).toNat hlt (Nat.two_pow_pos v)
  rw [Nat.mul_zero, Nat.zero_add, Nat.zero_xor, Nat.xor_zero, Nat.add_zero] at hbit
  rw [← testBit_sum]
  unfold imageAt
  rw [mod_two_pow_succ, Nat.add_comm, ← hbit, Nat.xor_assoc]

/-! ## §2. A table. -/

/-- The numbers whose bit `v + 2` is set have one more to add. -/
def addQuarter (w v : Nat) (rows : List Nat) : List Nat :=
  merge (rows.map (without (withBit (v + 2) w))) (0 :: rows.map (· &&& withBit (v + 2) w))

/-- One bit of a round: the numbers whose bit `v` is set have 32 to add as
well.  The lowest bit of the sum goes into the number, the others are the row
it moves to. -/
def passBit (w v : Nat) (rows : List Nat) : List Nat :=
  merge (pairUp (· <<< 2 ^ v) ((addQuarter w v rows).map (without (withBit v w))))
    (List.replicate 16 0 ++ pairUp (· >>> 2 ^ v) ((addQuarter w v rows).map (· &&& withBit v w)))

/-- The numbers of a table are below `2 ^ w`. -/
def Within (w : Nat) (rows : List Nat) : Prop :=
  ∀ s i, (row rows s).testBit i = true → i < 2 ^ w

theorem testBit_and_withBit {x : Nat} :
    (x &&& withBit v w).testBit i = true ↔ x.testBit i = true ∧ i < 2 ^ w ∧ i.testBit v = true := by
  rw [Nat.testBit_and, testBit_withBit, Bool.and_eq_true, Bool.and_eq_true, decide_eq_true_eq]

theorem of_testBit_without {m x : Nat} (h : (without m x).testBit i = true) :
    x.testBit i = true ∧ m.testBit i = false := by
  rw [testBit_without, Bool.and_eq_true, Bool.not_eq_true'] at h
  exact h

/-- Among the numbers of a table, what is left has not the bit. -/
theorem testBit_of_without {x : Nat} (hi : i < 2 ^ w)
    (h : (without (withBit v w) x).testBit i = true) : i.testBit v = false := by
  have hbit := (of_testBit_without h).2
  rw [testBit_withBit, decide_eq_true hi, Bool.true_and] at hbit
  exact hbit

variable {rows : List Nat} {u s' i' : Nat}

theorem of_testBit_addQuarter (hrows : Within w rows)
    (h : (row (addQuarter w v rows) u).testBit i = true) :
    ∃ s, (row rows s).testBit i = true ∧ u = s + (i.testBit (v + 2)).toNat := by
  unfold addQuarter at h
  rw [row_merge, Nat.testBit_or, Bool.or_eq_true] at h
  rcases h with h | h
  · rw [row_map (by simp [without])] at h
    have hin := (of_testBit_without h).1
    exact ⟨u, hin, by rw [testBit_of_without (hrows u i hin) h]; rfl⟩
  · cases u with
    | zero =>
      rw [row_cons_zero, Nat.zero_testBit] at h
      cases h
    | succ u =>
      rw [row_cons_succ, row_map (by simp)] at h
      obtain ⟨hin, -, hbit⟩ := testBit_and_withBit.mp h
      exact ⟨u, hin, by rw [hbit]; rfl⟩

/-- Everything in the next table comes from a number of this one. -/
theorem of_testBit_passBit (hrows : Within w rows)
    (h : (row (passBit w v rows) s').testBit i' = true) :
    ∃ s i, (row rows s).testBit i = true ∧ s' = bitSum v s i / 2
      ∧ i' = i ^^^ (2 ^ v * (bitSum v s i % 2)) := by
  unfold passBit at h
  rw [row_merge, Nat.testBit_or, Bool.or_eq_true, row_replicate_append,
    row_pairUp (f := fun x => x <<< 2 ^ v) (Nat.zero_shiftLeft _),
    row_pairUp (f := fun x => x >>> 2 ^ v) (Nat.zero_shiftRight _),
    row_map (by simp [without]), row_map (by simp [without]), row_map (by simp), row_map (by simp)] at h
  rcases h with h | h
  · -- bit `v` of the number is not set
    have hsum : ∀ u i, (without (withBit v w) (row (addQuarter w v rows) u)).testBit i = true →
        i.testBit v = false ∧ ∃ s, (row rows s).testBit i = true ∧ bitSum v s i = u := by
      intro u i hu
      obtain ⟨s, hs, rfl⟩ := of_testBit_addQuarter hrows (of_testBit_without hu).1
      have hbit := testBit_of_without (hrows s i hs) hu
      exact ⟨hbit, s, hs, by unfold bitSum; rw [hbit]; rfl⟩
    rw [Nat.testBit_or, Bool.or_eq_true] at h
    rcases h with h | h
    · obtain ⟨-, s, hs, heq⟩ := hsum _ _ h
      refine ⟨s, i', hs, by omega, ?_⟩
      rw [heq, Nat.mul_mod_right, Nat.mul_zero, Nat.xor_zero]
    · rw [Nat.testBit_shiftLeft, Bool.and_eq_true, decide_eq_true_eq] at h
      obtain ⟨hle, h⟩ := h
      obtain ⟨i, rfl⟩ := Nat.exists_eq_add_of_le hle
      rw [Nat.add_sub_cancel_left] at h
      obtain ⟨hbit, s, hs, heq⟩ := hsum _ _ h
      refine ⟨s, i, hs, by omega, ?_⟩
      have hodd : (2 * s' + 1) % 2 = 1 := by omega
      rw [heq, hodd, Nat.mul_one, two_pow_add_eq_xor hbit]
  · -- bit `v` of the number is set
    have hsum : ∀ u i, (row (addQuarter w v rows) u &&& withBit v w).testBit i = true →
        i.testBit v = true ∧ ∃ s, (row rows s).testBit i = true ∧ bitSum v s i = u + 32 := by
      intro u i hu
      obtain ⟨hin, -, hbit⟩ := testBit_and_withBit.mp hu
      obtain ⟨s, hs, rfl⟩ := of_testBit_addQuarter hrows hin
      exact ⟨hbit, s, hs, by unfold bitSum; rw [hbit]; rfl⟩
    by_cases hs' : s' < 16
    · rw [if_pos hs', Nat.zero_testBit] at h
      cases h
    · rw [if_neg hs', Nat.testBit_or, Bool.or_eq_true] at h
      rcases h with h | h
      · obtain ⟨-, s, hs, heq⟩ := hsum _ _ h
        refine ⟨s, i', hs, by omega, ?_⟩
        have heven : (2 * (s' - 16) + 32) % 2 = 0 := by omega
        rw [heq, heven, Nat.mul_zero, Nat.xor_zero]
      · rw [Nat.testBit_shiftRight] at h
        obtain ⟨hbit, s, hs, heq⟩ := hsum _ _ h
        refine ⟨s, 2 ^ v + i', hs, by omega, ?_⟩
        have hodd : (2 * (s' - 16) + 1 + 32) % 2 = 1 := by omega
        have hclear : i'.testBit v = false := by
          rw [Nat.testBit_two_pow_add_eq, Bool.not_eq_true'] at hbit
          exact hbit
        rw [heq, hodd, Nat.mul_one, two_pow_add_eq_xor hclear, Nat.xor_assoc, Nat.xor_self,
          Nat.xor_zero]

/-! ## §3. A round. -/

/-- The bits from `v` on, `n` of them. -/
def passBits (w : Nat) : Nat → Nat → List Nat → List Nat
  | 0, _, rows => rows
  | n + 1, v, rows => passBits w n (v + 1) (passBit w v rows)

/-- Every digit is the first carry of the whole set `x`. -/
def startRows (x : Nat) : List Nat := (List.range 32).map (fun d => if d ∈ hashDigits then x else 0)

/-- The images of `x` under a round, for all digits. -/
def image (w x : Nat) : Nat := union (passBits w w 0 (startRows x))

/-- The images after some rounds. -/
def images (w : Nat) : Nat → Nat → Nat
  | 0, x => x
  | n + 1, x => images w n (image w x)

/-- Before bit `v` a table holds images of `x`, with their bits below `v`
done, in the rows of their carries. -/
def Images (w x v : Nat) (rows : List Nat) : Prop :=
  ∀ s i, (row rows s).testBit i = true →
    ∃ p d, x.testBit p = true ∧ p < 2 ^ w ∧ d ∈ hashDigits ∧ s = carryAt p d v ∧ i = imageAt p d v

theorem Images.within {x : Nat} (h : Images w x v rows) (hv : v ≤ w) : Within w rows := by
  intro s i hs
  obtain ⟨p, d, -, hp, -, -, rfl⟩ := h s i hs
  exact imageAt_lt hp hv

theorem Images.passBit {x : Nat} (h : Images w x v rows) (hv : v < w) :
    Images w x (v + 1) (passBit w v rows) := by
  intro s' i' hs'
  obtain ⟨s, i, hs, rfl, rfl⟩ := of_testBit_passBit (h.within (Nat.le_of_lt hv)) hs'
  obtain ⟨p, d, hx, hp, hd, rfl, rfl⟩ := h s i hs
  exact ⟨p, d, hx, hp, hd, carryAt_succ.symm, imageAt_succ.symm⟩

theorem Images.passBits {x n : Nat} :
    ∀ {v : Nat} {rows : List Nat}, Images w x v rows → v + n ≤ w →
      Images w x (v + n) (passBits w n v rows) := by
  induction n with
  | zero => exact fun h _ => h
  | succ n ih =>
    intro v rows h hle
    have hnext := ih (h.passBit (by omega)) (by omega)
    rw [Nat.add_right_comm] at hnext
    exact hnext

theorem images_startRows {x : Nat} (hx : ∀ p, x.testBit p = true → p < 2 ^ w) :
    Images w x 0 (startRows x) := by
  intro s i hs
  by_cases hlt : s < 32
  · have hrow : row (startRows x) s = if s ∈ hashDigits then x else 0 := by
      unfold row startRows
      rw [List.getD_eq_getElem _ _ (by simpa using hlt), List.getElem_map, List.getElem_range]
    rw [hrow] at hs
    by_cases hd : s ∈ hashDigits
    · rw [if_pos hd] at hs
      exact ⟨i, s, hs, hx i hs, hd, carryAt_zero.symm, imageAt_zero.symm⟩
    · rw [if_neg hd, Nat.zero_testBit] at hs
      cases hs
  · have hrow : row (startRows x) s = 0 := by
      unfold row startRows
      exact List.getD_eq_default _ _ (by simpa using hlt)
    rw [hrow, Nat.zero_testBit] at hs
    cases hs

/-- What the table computes are images of the round. -/
theorem of_testBit_image {x : Nat} (hx : ∀ p, x.testBit p = true → p < 2 ^ w)
    (h : (image w x).testBit i = true) :
    ∃ p d, x.testBit p = true ∧ p < 2 ^ w ∧ d ∈ hashDigits
      ∧ i = p ^^^ ((32 * p + p / 4 + d) % 2 ^ w) := by
  obtain ⟨s, hs⟩ := testBit_union.mp h
  have hall := (images_startRows hx).passBits (n := w) (by omega)
  rw [Nat.zero_add] at hall
  obtain ⟨p, d, hp, hlt, hd, -, rfl⟩ := hall s i hs
  exact ⟨p, d, hp, hlt, hd, rfl⟩

/-! ## §4. Everywhere. -/

/-- Rounds on sets of values with the same upper 20 bits. -/
theorem upper20_images {n : Nat} :
    ∀ {x k : Nat}, (∀ p, x.testBit p = true → p < 2 ^ 20 ∧ Upper20 k p) →
      ∀ p, (images 20 n x).testBit p = true → Upper20 (k + n) p := by
  induction n with
  | zero => exact fun h p hp => (h p hp).2
  | succ n ih =>
    intro x k h p hp
    have hnext : ∀ i, (image 20 x).testBit i = true → i < 2 ^ 20 ∧ Upper20 (k + 1) i := by
      intro i hi
      obtain ⟨q, d, hq, hlt, hd, rfl⟩ := of_testBit_image (fun q hq => (h q hq).1) hi
      exact ⟨imageAt_lt hlt (Nat.le_refl 20), (h q hq).2.round hd⟩
    have hall := ih hnext p hp
    rw [Nat.add_right_comm] at hall
    exact hall

/-- From 0, six rounds lead everywhere. -/
theorem images_zero : images 20 6 1 = full 20 := by decide +kernel

/-- After eight characters the hash is any number of 32 bits. -/
theorem reach_all {x : Nat} (hx : x < 4294967296) : Reach 8 x := by
  have hzero : ∀ p, Nat.testBit 1 p = true → p < 2 ^ 20 ∧ Upper20 2 p := by
    intro p hp
    obtain rfl := Nat.testBit_one_eq_true_iff_self_eq_zero.mp hp
    exact ⟨by omega, upper20_zero⟩
  have hfull : (images 20 6 1).testBit (x / 4096) = true := by
    rw [images_zero, testBit_full, decide_eq_true_eq]
    omega
  have hreach := upper20_images hzero _ hfull (x / 128 % 32) (by omega) (x % 128) (by omega)
  have hsplit : 128 * (32 * (x / 4096) + x / 128 % 32) + x % 128 = x := by omega
  rw [hsplit] at hreach
  exact hreach

end LightTable
