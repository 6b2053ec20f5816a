/-
  LightTable.Lib.SpinLock
  ───────────────────────
  A test-and-set lock in general: a pool of threads, each at some point of its
  program, and a flag that a thread sets on its way into the locked region and
  clears on its way out.

  `Exclusive` says that the flag is set exactly when a thread is inside, and
  that there is never a second one.  Every move of one thread keeps it: into
  the region when the flag was clear (`acquire`), out of it (`release`), or
  neither (`stay`).
-/
import Mathlib.Data.List.Basic

namespace SpinLock

variable {P : Type*} {region : P → Bool} {lock : Bool} {pool : List P} {i j : Nat} {x y z : P}

/-- One thread is in the region when the lock is taken, and none otherwise. -/
def Exclusive (region : P → Bool) (lock : Bool) (pool : List P) : Prop :=
  pool.countP region = if lock then 1 else 0

/-- One thread of the pool moves. -/
theorem countP_move (region : P → Bool) (hi : pool[i]? = some x) (y : P) :
    (pool.set i y).countP region + (if region x then 1 else 0)
      = pool.countP region + if region y then 1 else 0 := by
  obtain ⟨hlt, hx⟩ := List.getElem?_eq_some_iff.mp hi
  have hpos : region x = true → 0 < pool.countP region :=
    fun hr => List.countP_pos_iff.mpr ⟨x, List.mem_of_getElem? hi, hr⟩
  rw [List.countP_set hlt, hx]
  by_cases hr : region x = true
  · have := hpos hr
    simp only [hr, if_true]
    omega
  · simp only [hr, Bool.false_eq_true, if_false]
    omega

theorem Exclusive.start (h : ∀ x ∈ pool, region x = false) : Exclusive region false pool := by
  unfold Exclusive
  rw [List.countP_eq_zero.mpr (fun x hx => by rw [h x hx]; exact Bool.false_ne_true)]
  rfl

/-- Nobody is inside while the lock is free. -/
theorem Exclusive.outside (h : Exclusive region false pool) (hx : x ∈ pool) : region x = false := by
  have h : pool.countP region = 0 := h
  simpa using List.countP_eq_zero.mp h x hx

/-- The test-and-set that found the lock free. -/
theorem Exclusive.acquire (h : Exclusive region false pool) (hi : pool[i]? = some x)
    (hy : region y = true) : Exclusive region true (pool.set i y) := by
  have hmove := countP_move region hi y
  have hx := h.outside (List.mem_of_getElem? hi)
  have h : pool.countP region = 0 := h
  rw [hx, hy, h] at hmove
  simpa [Exclusive] using hmove

/-- A thread inside took the lock. -/
theorem Exclusive.taken (h : Exclusive region lock pool) (hi : pool[i]? = some x)
    (hx : region x = true) : lock = true := by
  cases lock with
  | true => rfl
  | false =>
    have hout := h.outside (List.mem_of_getElem? hi)
    rw [hx] at hout
    exact absurd hout (by decide)

/-- The way out. -/
theorem Exclusive.release (h : Exclusive region lock pool) (hi : pool[i]? = some x)
    (hx : region x = true) (hy : region y = false) : Exclusive region false (pool.set i y) := by
  have hmove := countP_move region hi y
  have hlock := h.taken hi hx
  subst hlock
  have h : pool.countP region = 1 := h
  rw [hx, hy, h] at hmove
  simpa [Exclusive] using hmove

/-- A move that neither enters nor leaves. -/
theorem Exclusive.stay (h : Exclusive region lock pool) (hi : pool[i]? = some x)
    (hxy : region y = region x) : Exclusive region lock (pool.set i y) := by
  have hmove := countP_move region hi y
  rw [hxy] at hmove
  unfold Exclusive at h ⊢
  rw [← h]
  omega

/-- Two places of a list where the predicate holds. -/
theorem two_le_countP : ∀ {l : List P} {a b : Nat} {x z : P}, a < b → l[a]? = some x →
    l[b]? = some z → region x = true → region z = true → 2 ≤ l.countP region
  | [], _, _, _, _, _, ha, _, _, _ => by simp at ha
  | u :: l, _, 0, _, _, hab, _, _, _, _ => by omega
  | u :: l, 0, b + 1, x, z, _, ha, hb, hx, hz => by
      obtain rfl : u = x := by simpa using ha
      have hb : l[b]? = some z := by simpa using hb
      have hpos : 0 < l.countP region := List.countP_pos_iff.mpr ⟨z, List.mem_of_getElem? hb, hz⟩
      rw [List.countP_cons, if_pos hx]
      omega
  | u :: l, a + 1, b + 1, x, z, hab, ha, hb, hx, hz => by
      have ih := two_le_countP (l := l) (a := a) (b := b) (by omega) (by simpa using ha)
        (by simpa using hb) hx hz
      rw [List.countP_cons]
      omega

/-- Two threads inside are one. -/
theorem Exclusive.unique (h : Exclusive region lock pool) (hi : pool[i]? = some x)
    (hx : region x = true) (hj : pool[j]? = some z) (hz : region z = true) : i = j := by
  have hlock := h.taken hi hx
  subst hlock
  have h : pool.countP region = 1 := h
  rcases Nat.lt_trichotomy i j with hlt | heq | hlt
  · have htwo := two_le_countP hlt hi hj hx hz
    omega
  · exact heq
  · have htwo := two_le_countP hlt hj hi hz hx
    omega

/-- When a thread that is inside moves, all the others are outside. -/
theorem Exclusive.others (h : Exclusive region lock pool) (hi : pool[i]? = some x)
    (hx : region x = true) (hz : z ∈ pool.set i y) : z = y ∨ region z = false := by
  obtain ⟨j, hj⟩ := List.getElem?_of_mem hz
  by_cases hij : i = j
  · subst hij
    have hlt : i < pool.length := (List.getElem?_eq_some_iff.mp hi).1
    rw [List.getElem?_set_self hlt, Option.some.injEq] at hj
    exact Or.inl hj.symm
  · rw [List.getElem?_set_ne hij] at hj
    cases hin : region z with
    | false => exact Or.inr rfl
    | true => exact absurd (h.unique hi hx hj hin) hij

/-- A thread moves and stays on the same side of a predicate. -/
theorem exists_move_iff (p : P → Bool) (hi : pool[i]? = some x) (hx : p x = false)
    (hy : p y = false) : (∃ z ∈ pool.set i y, p z = true) ↔ ∃ z ∈ pool, p z = true := by
  have hmove := countP_move p hi y
  rw [hx, hy] at hmove
  rw [← List.countP_pos_iff, ← List.countP_pos_iff]
  simp only [Bool.false_eq_true, if_false] at hmove
  omega

/-- Somebody is inside while the lock is taken. -/
theorem Exclusive.holder (h : Exclusive region true pool) :
    ∃ (i : Nat) (x : P), pool[i]? = some x ∧ region x = true := by
  have h : pool.countP region = 1 := h
  obtain ⟨x, hx, hr⟩ := List.countP_pos_iff.mp (by rw [h]; exact Nat.one_pos)
  obtain ⟨i, hi⟩ := List.getElem?_of_mem hx
  exact ⟨i, x, hi, hr⟩

end SpinLock
