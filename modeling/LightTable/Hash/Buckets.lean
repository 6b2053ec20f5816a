/-
  LightTable.Hash.Buckets
  ───────────────────────
  Which buckets string keys can use.

  A string of sixteen bytes has any hash there is before it is masked
  (`hashBits_surjective`): six of them lead from the length to 0, and the last
  eight from there anywhere.  What is lost is lost in the mask: 29 * 2^k - 1 is
  11100 in front of k ones, so that no bucket with bit k or k + 1 is used, and
  every other one is (`hashStr_reaches_iff`).
-/
import LightTable.Hash.Spread

namespace LightTable

/-! ## §1. Before the mask. -/

/-- Eight bytes that lead from the length 16 to 0. -/
def toZero : Bytes := [142, 100, 31, 109, 117, 176, 0, 0]

theorem toZero_mixes : toZero.foldl mixChar 16 = 0 := by decide

/-- Every 32-bit number is the hash of a string of sixteen bytes. -/
theorem hashBits_surjective (x : UInt32) : ∃ name : Bytes, name.length = 16 ∧ hashBits name = x := by
  obtain ⟨name, hlen, hname⟩ := reach_all x.toNat_lt
  have hlength : (toZero ++ name).length = 16 := by
    rw [List.length_append, hlen]
    rfl
  refine ⟨toZero ++ name, hlength, ?_⟩
  unfold hashBits
  rw [hlength, List.foldl_append]
  show name.foldl mixChar (toZero.foldl mixChar 16) = x
  rw [toZero_mixes]
  exact UInt32.toNat_inj.mp hname

/-! ## §2. The mask. -/

variable {k b i : Nat}

/-- The mask of a size that the growth policy makes. -/
theorem hashStr_toNat (name : Bytes) (hk : 29 * 2 ^ k < 2147483648) :
    (hashStr name (29 * 2 ^ k : Nat)).toNat = (hashBits name).toNat &&& (29 * 2 ^ k - 1) := by
  have hpos : 0 < 2 ^ k := Nat.two_pow_pos k
  have hmask : (UInt32.ofInt ((29 * 2 ^ k : Nat) - 1)).toNat = 29 * 2 ^ k - 1 := by
    rw [UInt32.ofInt, UInt32.toNat_ofNat']
    omega
  show (hashBits name &&& UInt32.ofInt ((29 * 2 ^ k : Nat) - 1)).toNat = _
  rw [UInt32.toNat_and, hmask]

/-- 28 in front of `k` ones. -/
theorem testBit_growthMask (k i : Nat) :
    (29 * 2 ^ k - 1).testBit i = if i < k then true else Nat.testBit 28 (i - k) := by
  have hpos : 0 < 2 ^ k := Nat.two_pow_pos k
  have hmask : 29 * 2 ^ k - 1 = 2 ^ k * 28 + (2 ^ k - 1) := by omega
  rw [hmask, Nat.testBit_two_pow_mul_add _ (Nat.sub_one_lt_of_lt hpos), Nat.testBit_two_pow_sub_one]
  by_cases hi : i < k
  · rw [if_pos hi, if_pos hi, decide_eq_true hi]
  · rw [if_neg hi, if_neg hi]

/-- The two bits that the mask clears. -/
theorem growthMask_clear (k : Nat) :
    (29 * 2 ^ k - 1).testBit k = false ∧ (29 * 2 ^ k - 1).testBit (k + 1) = false := by
  rw [testBit_growthMask, testBit_growthMask, if_neg (Nat.lt_irrefl k), if_neg (by omega),
    Nat.sub_self, Nat.add_sub_cancel_left]
  decide

/-- It clears no others of a bucket. -/
theorem and_growthMask (hb : b < 29 * 2 ^ k) (h0 : b.testBit k = false)
    (h1 : b.testBit (k + 1) = false) : b &&& (29 * 2 ^ k - 1) = b := by
  apply Nat.eq_of_testBit_eq
  intro i
  rw [Nat.testBit_and, testBit_growthMask]
  by_cases hi : i < k
  · rw [if_pos hi, Bool.and_true]
  · obtain ⟨j, rfl⟩ := Nat.exists_eq_add_of_le (Nat.le_of_not_lt hi)
    rw [if_neg hi, Nat.add_sub_cancel_left]
    have hcases : j = 0 ∨ j = 1 ∨ j = 2 ∨ j = 3 ∨ j = 4 ∨ 5 ≤ j := by omega
    rcases hcases with rfl | rfl | rfl | rfl | rfl | hj
    · rw [Nat.add_zero, h0, Bool.false_and]
    · rw [h1, Bool.false_and]
    · exact Bool.and_true _
    · exact Bool.and_true _
    · exact Bool.and_true _
    · -- above the mask
      have hpow : 2 ^ (k + 5) ≤ 2 ^ (k + j) := Nat.pow_le_pow_right (by omega) (by omega)
      have hwide : 2 ^ (k + 5) = 32 * 2 ^ k := by rw [Nat.pow_add, Nat.mul_comm]
      rw [Nat.testBit_lt_two_pow (by omega), Bool.false_and]

/-! ## §3. Buckets. -/

/-- Whatever the number of doublings: a string key falls into a bucket exactly
for the buckets whose bits `k` and `k + 1` are zero. -/
theorem hashStr_reaches_iff (hk : 29 * 2 ^ k < 2147483648) (hb : b < 29 * 2 ^ k) :
    (∃ name : Bytes, (hashStr name (29 * 2 ^ k : Nat)).toNat = b)
      ↔ b.testBit k = false ∧ b.testBit (k + 1) = false := by
  constructor
  · rintro ⟨name, rfl⟩
    obtain ⟨h0, h1⟩ := growthMask_clear k
    rw [hashStr_toNat name hk, Nat.testBit_and, Nat.testBit_and, h0, h1, Bool.and_false,
      Bool.and_false]
    exact ⟨rfl, rfl⟩
  · rintro ⟨h0, h1⟩
    obtain ⟨name, -, hname⟩ := hashBits_surjective (UInt32.ofNat b)
    refine ⟨name, ?_⟩
    rw [hashStr_toNat name hk, hname, UInt32.toNat_ofNat', Nat.mod_eq_of_lt (by omega)]
    exact and_growthMask hb h0 h1

/-- After one doubling: bucket 57, which is used. -/
theorem hashStr_reaches_iff_57 :
    (∃ name : Bytes, (hashStr name (29 * 2 ^ 1 : Nat)).toNat = 57)
      ↔ Nat.testBit 57 1 = false ∧ Nat.testBit 57 2 = false :=
  hashStr_reaches_iff (by decide) (by decide)

/-- In a fresh table no string falls into bucket 1. -/
theorem no_string_in_bucket_1 :
    ¬ (∀ b < 29, ∃ name : Bytes, (hashStr name 29).toNat = b) := by
  intro hall
  obtain ⟨name, hname⟩ := hall 1 (by decide)
  have hmasked : (hashStr name 29).toNat = (hashBits name).toNat &&& 28 :=
    hashStr_toNat (k := 0) name (by decide)
  have hbit : ((hashBits name).toNat &&& 28).testBit 0 = true := by
    rw [← hmasked, hname]
    rfl
  rw [Nat.testBit_and] at hbit
  simp at hbit

end LightTable
