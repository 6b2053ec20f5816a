/-
  LightTable.Hash.Mixing
  ──────────────────────
  What the loop of `hash_str` reaches, round by round.

  A round XORs the hash with 32 h + h / 4 + c.  The character `c` is free in
  [-128, 127], so a round that starts from all values with the upper 25 bits
  `A` reaches all values with the upper bits A ^ (32 A + A / 4 + e), for every
  `e` of about five bits (`Upper25.round`).  That is a round of the same shape
  with the digit `e` in place of the character; once more the same way, with
  the digits that leave no gap, and 20 bits are left (`Upper20.round`).
-/
import LightTable.Util
import Mathlib.Data.Nat.Bitwise

namespace LightTable

/-! ## §1. One round. -/

/-- A character is any number from -128 to 127. -/
theorem exists_charU32 {c : Int} (h0 : -128 ≤ c) (h1 : c ≤ 127) :
    ∃ b : UInt8, ((charU32 b).toNat : Int) = c % 4294967296 := by
  refine ⟨(Int8.ofInt c).toUInt8, ?_⟩
  unfold charU32
  rw [Int8.toInt8_toUInt8, Int8.toInt_ofInt_of_le (by omega) (by omega), UInt32.ofInt,
    UInt32.toNat_ofNat']
  omega

theorem mixChar_toNat (h : UInt32) (b : UInt8) :
    (mixChar h b).toNat
      = h.toNat ^^^ ((32 * h.toNat + h.toNat / 4 + (charU32 b).toNat) % 4294967296) := by
  have hleft : (h <<< 5).toNat = 32 * h.toNat % 4294967296 := by
    rw [UInt32.toNat_shiftLeft]
    show h.toNat <<< 5 % 4294967296 = _
    rw [Nat.shiftLeft_eq, Nat.mul_comm]
  have hright : (h >>> 2).toNat = h.toNat / 4 := by
    rw [UInt32.toNat_shiftRight]
    show h.toNat >>> 2 = _
    rw [Nat.shiftRight_eq_div_pow]
  unfold mixChar
  rw [UInt32.toNat_xor, UInt32.toNat_add, UInt32.toNat_add, hleft, hright]
  congr 1
  omega

/-- `x` is the hash after `n` characters, from the hash 0 on. -/
def Reach (n x : Nat) : Prop :=
  ∃ name : Bytes, name.length = n ∧ (name.foldl mixChar 0).toNat = x

/-- A round: the character `c` makes the sum `y`. -/
theorem Reach.round {n x y : Nat} {c : Int} (h : Reach n x) (h0 : -128 ≤ c) (h1 : c ≤ 127)
    (hy : ((32 * x + x / 4 : Nat) + c) % 4294967296 = y) : Reach (n + 1) (x ^^^ y) := by
  obtain ⟨name, rfl, rfl⟩ := h
  obtain ⟨b, hb⟩ := exists_charU32 h0 h1
  refine ⟨name ++ [b], List.length_append, ?_⟩
  rw [List.foldl_append]
  show (mixChar (name.foldl mixChar 0) b).toNat = _
  rw [mixChar_toNat]
  congr 1
  omega

/-! ## §2. The upper bits. -/

/-- XOR keeps the lower `n` bits apart from the others. -/
theorem xor_blocks {n x y : Nat} (a b : Nat) (hx : x < 2 ^ n) (hy : y < 2 ^ n) :
    (2 ^ n * a + x) ^^^ (2 ^ n * b + y) = 2 ^ n * (a ^^^ b) + (x ^^^ y) := by
  apply Nat.eq_of_testBit_eq
  intro i
  rw [Nat.testBit_xor, Nat.testBit_two_pow_mul_add a hx, Nat.testBit_two_pow_mul_add b hy,
    Nat.testBit_two_pow_mul_add _ (Nat.xor_lt_two_pow hx hy)]
  by_cases hi : i < n
  · simp only [if_pos hi, Nat.testBit_xor]
  · simp only [if_neg hi, Nat.testBit_xor]

/-- The lower bits of a sum can be chosen to make any lower bits. -/
theorem xor_blocks_to {n x y : Nat} (a b : Nat) (hx : x < 2 ^ n) (hy : y < 2 ^ n) :
    (2 ^ n * a + x) ^^^ (2 ^ n * b + (x ^^^ y)) = 2 ^ n * (a ^^^ b) + y := by
  rw [xor_blocks a b hx (Nat.xor_lt_two_pow hx hy), ← Nat.xor_assoc, Nat.xor_self, Nat.zero_xor]

/-- All values with the upper 25 bits `A` are reached. -/
def Upper25 (n A : Nat) : Prop := ∀ g < 128, Reach n (128 * A + g)

/-- A round whose digit is `e - 1`, with `e` up to 33. -/
theorem Upper25.round {n A e : Nat} (h : Upper25 n A) (he : e ≤ 33) (h0 : e = 0 → A % 4 = 0)
    (h33 : e = 33 → A % 4 ≠ 0) :
    Upper25 (n + 1) (A ^^^ ((32 * A + A / 4 + e + 33554431) % 33554432)) := by
  intro g' hg'
  -- the lower bits to start from: a fourth of them is carried with the digit
  obtain ⟨g, hg⟩ : ∃ g, g = min (4 * (e - 1)) 127 := ⟨_, rfl⟩
  have hlow : g < 128 := by omega
  have hxor := xor_blocks_to (n := 7) A ((32 * A + A / 4 + e + 33554431) % 33554432) hlow hg'
  have hlt : g ^^^ g' < 128 := Nat.xor_lt_two_pow (n := 7) hlow hg'
  show Reach (n + 1) (2 ^ 7 * _ + g')
  rw [← hxor]
  -- the character makes up the rest
  apply (h g hlow).round
    (c := 128 * (e : Int) - 128 + (g ^^^ g' : Nat) - 32 * g - (g / 4 : Nat) - 32 * (A % 4 : Nat))
  · omega
  · omega
  · omega

/-- All values with the upper 20 bits `p` are reached. -/
def Upper20 (n p : Nat) : Prop := ∀ q < 32, Upper25 n (32 * p + q)

/-- The digits that leave no gap: whatever the two lowest bits of `p`, every
value of the five bits below the digit is made with `q` the digit itself or the
one before it. -/
def hashDigits : List Nat := [1, 2, 3, 4, 7, 9, 11, 14, 15, 17, 18, 19, 23, 25, 27, 30, 31]

theorem hashDigits_fit :
    ∀ d ∈ hashDigits, ∀ a < 4, ∀ q' < 32, ∃ q ∈ [d, d - 1], q < 32
      ∧ 32 * q + 8 * a + q / 4 ≤ 32 * d + (q ^^^ q') + 1
      ∧ 32 * d + (q ^^^ q') + 1 ≤ 32 * q + 8 * a + q / 4 + 33
      ∧ (32 * d + (q ^^^ q') + 1 = 32 * q + 8 * a + q / 4 → q % 4 = 0)
      ∧ (32 * d + (q ^^^ q') + 1 = 32 * q + 8 * a + q / 4 + 33 → q % 4 ≠ 0) := by
  decide +kernel

/-- A round whose digit is one of `hashDigits`. -/
theorem Upper20.round {n p d : Nat} (h : Upper20 n p) (hd : d ∈ hashDigits) :
    Upper20 (n + 1) (p ^^^ ((32 * p + p / 4 + d) % 1048576)) := by
  intro q' hq'
  obtain ⟨q, -, hq, hle, hge, h0, h33⟩ := hashDigits_fit d hd (p % 4) (Nat.mod_lt p (by omega)) q' hq'
  obtain ⟨e, he⟩ := Nat.exists_eq_add_of_le hle
  have hround := (h q hq).round (e := e) (by omega) (by omega) (by omega)
  have hlt : q ^^^ q' < 32 := Nat.xor_lt_two_pow (n := 5) hq hq'
  have hwide : 32 * (32 * p + q) + (32 * p + q) / 4 + e + 33554431
      = 32 * (32 * p + p / 4 + d) + (q ^^^ q') + 33554432 := by omega
  have hsum : (32 * (32 * p + q) + (32 * p + q) / 4 + e + 33554431) % 33554432
      = 32 * ((32 * p + p / 4 + d) % 1048576) + (q ^^^ q') := by
    rw [hwide]
    omega
  have hxor := xor_blocks_to (n := 5) p ((32 * p + p / 4 + d) % 1048576) hq hq'
  show Upper25 (n + 1) (2 ^ 5 * _ + q')
  rw [← hxor]
  rw [hsum] at hround
  exact hround

/-! ## §3. The first rounds. -/

/-- The first character is free in its seven bits. -/
theorem upper25_zero : Upper25 1 0 := by
  intro g hg
  have hzero : Reach 0 0 := ⟨[], rfl, rfl⟩
  have hround := hzero.round (c := g) (y := g) (by omega) (by omega) (by omega)
  rw [Nat.zero_xor] at hround
  rw [Nat.mul_zero, Nat.zero_add]
  exact hround

/-- Two rounds from 0 on. -/
theorem upper20_zero : Upper20 2 0 := by
  intro q hq
  have hround := upper25_zero.round (e := q + 1) (by omega) (by omega) (by omega)
  have hsum : (32 * 0 + 0 / 4 + (q + 1) + 33554431) % 33554432 = q := by omega
  rw [hsum, Nat.zero_xor] at hround
  rw [Nat.mul_zero, Nat.zero_add]
  exact hround

end LightTable
