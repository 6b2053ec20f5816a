/-
  LightTable.Lib.RefCount
  ───────────────────────
  Reference counting in general: one object is current, holders keep others
  (or the current one too), and every object carries a count.

  `Counts live n` says that the count of every object is the number of its
  references and that an object with no reference is gone.  A step that
  changes the references of one object keeps it when it changes that object's
  count alike (`Counts.step`).  Counting reaches everything but cycles of
  owners (`exists_cycle`).
-/
import Mathlib.Data.List.Basic
import Mathlib.Data.Fintype.Card
import Mathlib.Data.Fintype.EquivFin
import Mathlib.Data.Fintype.Sets
import Mathlib.Order.WellFounded
import Mathlib.Logic.Relation

namespace RefCount

variable {A H : Type*}

/-! ## §1. References. -/

section Refs

variable [DecidableEq A]

/-- The holders of `a` in a list; `obj` is the object a holder keeps, if
any. -/
def holders (obj : H → Option A) (held : List H) (a : A) : Nat :=
  held.countP (fun h => decide (obj h = some a))

/-- The references to `a`: its holders, and one more for the current object. -/
def refs (obj : H → Option A) (cur : A) (held : List H) (a : A) : Nat :=
  holders obj held a + if a = cur then 1 else 0

theorem holders_cons (obj : H → Option A) (h : H) (held : List H) (a : A) :
    holders obj (h :: held) a = holders obj held a + if obj h = some a then 1 else 0 := by
  unfold holders
  rw [List.countP_cons]
  by_cases hh : obj h = some a <;> simp [hh]

theorem holders_erase [BEq H] [LawfulBEq H] (obj : H → Option A) {h : H} {held : List H}
    (hm : h ∈ held) (a : A) :
    holders obj (held.erase h) a + (if obj h = some a then 1 else 0) = holders obj held a := by
  have hperm := List.perm_cons_erase hm
  have := hperm.countP_eq (fun x => decide (obj x = some a))
  rw [List.countP_cons] at this
  unfold holders
  rw [this]
  by_cases hh : obj h = some a <;> simp [hh]

/-- In a pool of threads, one thread changes what it holds. -/
theorem holders_set (obj : H → Option A) :
    ∀ {pool : List H} {i : Nat} {x : H}, pool[i]? = some x → ∀ (y : H) (a : A),
      holders obj (pool.set i y) a + (if obj x = some a then 1 else 0)
        = holders obj pool a + if obj y = some a then 1 else 0
  | [], _, _, h, _, _ => by simp at h
  | z :: pool, 0, x, h, y, a => by
      simp only [List.getElem?_cons_zero, Option.some.injEq] at h
      subst h
      rw [List.set_cons_zero, holders_cons, holders_cons]
      omega
  | z :: pool, i + 1, x, h, y, a => by
      have h : pool[i]? = some x := by simpa using h
      have ih := holders_set obj h y a
      rw [List.set_cons_succ, holders_cons, holders_cons]
      omega

theorem holders_pos (obj : H → Option A) {h : H} {held : List H} (hm : h ∈ held) {a : A}
    (ha : obj h = some a) : 0 < holders obj held a := by
  unfold holders
  exact List.countP_pos_iff.mpr ⟨h, hm, by simp [ha]⟩

theorem holders_le_length (obj : H → Option A) (held : List H) (a : A) :
    holders obj held a ≤ held.length := List.countP_le_length

theorem holders_eq_zero (obj : H → Option A) {held : List H} {a : A}
    (h : ∀ x ∈ held, obj x ≠ some a) : holders obj held a = 0 := by
  unfold holders
  rw [List.countP_eq_zero]
  intro x hx
  simpa using h x hx

end Refs

/-! ## §2. Counts. -/

/-- Every count is the number of references; no reference, no object. -/
def Counts (live : A → Option Int) (n : A → Nat) : Prop :=
  ∀ a, live a = if n a = 0 then none else some (n a : Int)

theorem Counts.of_pos {live : A → Option Int} {n : A → Nat} (h : Counts live n) {a : A}
    (ha : 0 < n a) : live a = some (n a : Int) := by
  rw [h a, if_neg (by omega)]

/-- A step that touches one object only. -/
theorem Counts.step {live live' : A → Option Int} {n n' : A → Nat} (h : Counts live n) (a : A)
    (hn : ∀ b, b ≠ a → n' b = n b) (hl : ∀ b, b ≠ a → live' b = live b)
    (ha : live' a = if n' a = 0 then none else some (n' a : Int)) : Counts live' n' := by
  intro b
  by_cases hb : b = a
  · rw [hb]
    exact ha
  · rw [hl b hb, hn b hb]
    exact h b

/-! ## §3. Owners. -/

/-- A finite set in which every member has an owner holds a cycle of owners. -/
theorem exists_cycle {L : Finset A} (hne : L.Nonempty) {owns : A → A → Prop}
    (h : ∀ x ∈ L, ∃ p ∈ L, owns p x) : ∃ x, Relation.TransGen owns x x := by
  by_contra hno
  rw [not_exists] at hno
  have htrans : IsTrans L (fun a b => Relation.TransGen owns a.1 b.1) :=
    ⟨fun _ _ _ hab hbc => hab.trans hbc⟩
  have hirrefl : Std.Irrefl (fun a b : L => Relation.TransGen owns a.1 b.1) :=
    ⟨fun a => hno a.1⟩
  have hwf := Finite.wellFounded_of_trans_of_irrefl
    (fun a b : L => Relation.TransGen owns a.1 b.1)
  obtain ⟨x, hx⟩ := hne
  obtain ⟨m, -, hmin⟩ := hwf.has_min Set.univ ⟨⟨x, hx⟩, Set.mem_univ _⟩
  obtain ⟨p, hp, hown⟩ := h m.1 m.2
  exact hmin ⟨p, hp⟩ (Set.mem_univ _) (Relation.TransGen.single hown)

end RefCount
