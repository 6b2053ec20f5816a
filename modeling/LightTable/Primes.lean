/-
  LightTable.Primes
  ─────────────────
  What the prime search of `ltutil.cpp` finds.

  `is_prime` divides by the nine primes of its table and then by every number
  from 29 up to the root.  Between the two no divisor is missed
  (`isPrime_iff`), but a prime of the table divides itself and is refused,
  and 1 is divided by nothing and accepted.  From 28 on neither matters, and
  `next_prime` finds the next prime (`nextPrime_least`).
-/
import LightTable.Util
import Mathlib.Data.Nat.Prime.Basic
import Mathlib.Data.Nat.Sqrt
import Mathlib.NumberTheory.LucasPrimality
import Mathlib.Order.Bounds.Basic
import Mathlib.Tactic.NormNum.Prime
import Mathlib.Tactic.ReduceModChar

namespace LightTable

/-! ## §1. The two parts of the test. -/

theorem intSqrt_eq (n : Nat) : intSqrt n = Nat.sqrt n := by
  have hle : intSqrt n * intSqrt n ≤ n :=
    Nat.findGreatest_spec (P := fun r => r * r ≤ n) (Nat.zero_le n) (Nat.zero_le n)
  apply Nat.le_antisymm
  · exact Nat.le_sqrt.mpr hle
  · exact Nat.le_findGreatest (Nat.sqrt_le_self n) (Nat.sqrt_le n)

/-- A prime below the first trial divisor is in the table. -/
theorem mem_firstPrimes {p : Nat} (hp : p.Prime) (hlt : p < 29) : p ∈ firstPrimes := by
  have hall : ∀ p < 29, p.Prime → p ∈ firstPrimes := by decide
  exact hall p hlt hp

theorem prime_of_mem_firstPrimes {p : Nat} (hp : p ∈ firstPrimes) : p.Prime := by
  have hall : ∀ p ∈ firstPrimes, p.Prime := by decide
  exact hall p hp

/-- The test passes when neither part finds a divisor. -/
theorem isPrime_eq_true (n : Nat) :
    isPrime n = true
      ↔ (∀ p ∈ firstPrimes, ¬ p ∣ n) ∧ ∀ i, 29 ≤ i → i ≤ Nat.sqrt n → ¬ i ∣ n := by
  unfold isPrime
  rw [Bool.and_eq_true, List.all_eq_true, List.all_eq_true, intSqrt_eq]
  simp only [bne_iff_ne, ne_eq, List.mem_range'_1, Nat.dvd_iff_mod_eq_zero]
  apply and_congr_right'
  constructor
  · intro h i hi hle
    exact h i ⟨hi, by omega⟩
  · rintro h i ⟨hi, hlt⟩
    exact h i hi (by omega)

/-! ## §2. The test and primality. -/

/-- A number of the table is refused. -/
theorem isPrime_first {n : Nat} (hn : n ∈ firstPrimes) : isPrime n = false := by
  rw [← Bool.not_eq_true, isPrime_eq_true]
  rintro ⟨htable, -⟩
  exact htable n hn (Nat.dvd_refl n)

/-- The divisors of the table and the trial divisors cover the least factor of
a composite number. -/
theorem prime_of_isPrime {n : Nat} (h1 : n ≠ 1) (h : isPrime n = true) : n.Prime := by
  rw [isPrime_eq_true] at h
  obtain ⟨htable, htrial⟩ := h
  by_contra hcomp
  have h0 : 0 < n := by
    rcases Nat.eq_zero_or_pos n with rfl | h0
    · exact absurd (Nat.dvd_zero 2) (htable 2 (by decide))
    · exact h0
  have hfac : n.minFac.Prime := Nat.minFac_prime h1
  by_cases hsmall : n.minFac < 29
  · exact htable n.minFac (mem_firstPrimes hfac hsmall) (Nat.minFac_dvd n)
  · have hsq : n.minFac * n.minFac ≤ n := by
      rw [← Nat.pow_two]
      exact Nat.minFac_sq_le_self h0 hcomp
    exact htrial n.minFac (Nat.le_of_not_lt hsmall) (Nat.le_sqrt.mpr hsq) (Nat.minFac_dvd n)

/-- A prime is divided by none of them, unless it is in the table itself. -/
theorem isPrime_of_prime {n : Nat} (hn : n.Prime) (htable : n ∉ firstPrimes) :
    isPrime n = true := by
  rw [isPrime_eq_true]
  constructor
  · intro p hp hd
    have heq : p = n := (Nat.prime_dvd_prime_iff_eq (prime_of_mem_firstPrimes hp) hn).mp hd
    exact htable (by rw [← heq]; exact hp)
  · intro i hi hle hd
    rcases (Nat.dvd_prime hn).mp hd with h1 | heq
    · omega
    · have := Nat.sqrt_lt_self hn.one_lt
      omega

theorem isPrime_iff {n : Nat} (h1 : n ≠ 1) (htable : n ∉ firstPrimes) :
    isPrime n = true ↔ n.Prime :=
  ⟨prime_of_isPrime h1, fun h => isPrime_of_prime h htable⟩

/-- `is_prime` decides primality of a number exactly when the number is neither
1 nor one of the table. -/
theorem isPrime_decides_iff (n : UInt32) :
    (isPrime n.toNat = true ↔ n.toNat.Prime) ↔ n.toNat ≠ 1 ∧ n.toNat ∉ firstPrimes := by
  constructor
  · intro h
    refine ⟨?_, ?_⟩
    · intro h1
      rw [h1] at h
      exact Nat.not_prime_one (h.mp (by decide))
    · intro hmem
      have hrefused := isPrime_first hmem
      rw [h.mpr (prime_of_mem_firstPrimes hmem)] at hrefused
      cases hrefused
  · rintro ⟨h1, htable⟩
    exact isPrime_iff h1 htable

/-- The first number of the table, and 1. -/
theorem isPrime_misses_two :
    ¬ (∀ n : UInt32, isPrime n.toNat = true ↔ n.toNat.Prime)
      ∧ isPrime 2 = false ∧ Nat.Prime 2 ∧ isPrime 1 = true ∧ ¬ Nat.Prime 1 := by
  have h2 : isPrime 2 = false := by decide
  refine ⟨?_, h2, Nat.prime_two, by decide, Nat.not_prime_one⟩
  intro hall
  have hacc : isPrime 2 = true := (hall 2).mpr Nat.prime_two
  rw [h2] at hacc
  cases hacc

/-! ## §3. The search. -/

/-- A search that passes `k` numbers over and accepts the next; the counter
stays below 2^32. -/
theorem nextPrimeLoop_finds :
    ∀ {k n fuel : Nat}, n + k + 1 < 4294967296 → (∀ j < k, isPrime (n + 1 + j) = false) →
      isPrime (n + 1 + k) = true → k < fuel → nextPrimeLoop fuel n = some (n + 1 + k) := by
  intro k
  induction k with
  | zero =>
    intro n fuel hlt _ hhit hfuel
    obtain ⟨fuel, rfl⟩ := Nat.exists_eq_succ_of_ne_zero (Nat.ne_of_gt hfuel)
    have hmod : (n + 1) % 4294967296 = n + 1 := Nat.mod_eq_of_lt hlt
    show (if isPrime ((n + 1) % 4294967296) then _ else _) = _
    rw [hmod]
    exact if_pos hhit
  | succ k ih =>
    intro n fuel hlt hmiss hhit hfuel
    obtain ⟨fuel, rfl⟩ := Nat.exists_eq_succ_of_ne_zero (Nat.ne_of_gt (Nat.zero_lt_of_lt hfuel))
    have hmod : (n + 1) % 4294967296 = n + 1 := Nat.mod_eq_of_lt (by omega)
    show (if isPrime ((n + 1) % 4294967296) then _ else nextPrimeLoop fuel ((n + 1) % 4294967296)) = _
    rw [hmod, if_neg (by rw [hmiss 0 (Nat.succ_pos k)]; exact Bool.false_ne_true)]
    have hshift : ∀ j, n + 1 + 1 + j = n + 1 + (j + 1) := fun j => by omega
    rw [ih (by omega) ?_ ?_ (by omega)]
    · rw [hshift]
    · intro j hj
      rw [hshift]
      exact hmiss (j + 1) (by omega)
    · rw [hshift]
      exact hhit

/-- The greatest prime of 32 bits. -/
theorem prime_4294967291 : Nat.Prime 4294967291 := by
  apply lucas_primality 4294967291 (2 : ZMod 4294967291)
  · reduce_mod_char
  · intro q hq hd
    have hfactor : 4294967291 - 1 = 2 * 5 * 19 * 22605091 := by norm_num
    have hlast : Nat.Prime 22605091 := by norm_num
    have hcases : q = 2 ∨ q = 5 ∨ q = 19 ∨ q = 22605091 := by
      rw [hfactor, hq.dvd_mul, hq.dvd_mul, hq.dvd_mul,
        Nat.prime_dvd_prime_iff_eq hq Nat.prime_two, Nat.prime_dvd_prime_iff_eq hq Nat.prime_five,
        Nat.prime_dvd_prime_iff_eq hq (by norm_num), Nat.prime_dvd_prime_iff_eq hq hlast] at hd
      omega
    rcases hcases with rfl | rfl | rfl | rfl
    all_goals
      norm_num
      reduce_mod_char
      try decide

/-- From 28 on there is nothing that the test gets wrong. -/
theorem isPrime_iff_of_large {n : Nat} (hn : 29 ≤ n) : isPrime n = true ↔ n.Prime := by
  apply isPrime_iff
  · omega
  · intro hmem
    have hall : ∀ p ∈ firstPrimes, p < 29 := by decide
    have := hall n hmem
    omega

/-- From 28 up to the greatest prime of 32 bits, `next_prime` ends after as
many rounds as it takes to count up to the next prime, without the counter
wrapping. -/
theorem nextPrime_least (n : Nat) (h0 : 28 ≤ n) (h1 : n ≤ 4294967290) :
    ∃ rounds p, n + rounds = p ∧ p < 4294967296 ∧ nextPrimeLoop rounds n = some p
      ∧ nextPrime n = some p ∧ IsLeast {q | n < q ∧ q.Prime} p := by
  have hex : ∃ q, n < q ∧ q.Prime := ⟨4294967291, by omega, prime_4294967291⟩
  obtain ⟨hlt, hprime⟩ := Nat.find_spec hex
  have hbound : Nat.find hex ≤ 4294967291 := Nat.find_le ⟨by omega, prime_4294967291⟩
  have hleast : ∀ q, n < q → q.Prime → Nat.find hex ≤ q := fun q hq hp => Nat.find_le ⟨hq, hp⟩
  generalize Nat.find hex = p at hlt hprime hbound hleast
  obtain ⟨k, rfl⟩ := Nat.exists_eq_add_of_lt hlt
  have heq : n + k + 1 = n + 1 + k := by omega
  have hmiss : ∀ j < k, isPrime (n + 1 + j) = false := by
    intro j hj
    rw [← Bool.not_eq_true, isPrime_iff_of_large (by omega)]
    intro hp
    have := hleast (n + 1 + j) (by omega) hp
    omega
  have hhit : isPrime (n + 1 + k) = true := by
    rw [isPrime_iff_of_large (by omega), ← heq]
    exact hprime
  refine ⟨k + 1, n + k + 1, rfl, by omega, ?_, ?_, ⟨hlt, hprime⟩, ?_⟩
  · rw [heq]
    exact nextPrimeLoop_finds (by omega) hmiss hhit (Nat.lt_succ_self k)
  · rw [heq]
    exact nextPrimeLoop_finds (by omega) hmiss hhit (by omega)
  · rintro q ⟨hq, hp⟩
    exact hleast q hq hp

/-- The search from 113, which passes thirteen numbers over. -/
theorem nextPrime_least_113 :
    28 ≤ 113 ∧ 113 ≤ 4294967290
      ∧ ∃ rounds p, 113 + rounds = p ∧ p < 4294967296 ∧ nextPrimeLoop rounds 113 = some p
        ∧ nextPrime 113 = some p ∧ IsLeast {q | 113 < q ∧ q.Prime} p :=
  ⟨by decide, by decide, nextPrime_least 113 (by decide) (by decide)⟩

end LightTable
