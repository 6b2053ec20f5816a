/-
  LightTable.Lib.Owners
  ─────────────────────
  Objects that own objects, and count their references.

  The live objects are a finite set `L`, `ch x` lists what `x` owns, with
  repetitions, and `pending` the references that no object holds: those of the
  outside, and those about to be released.  `refs ch L pending x` counts the
  references to `x`.  An object without references can be taken away, and what
  it owned becomes pending (`refs_erase`); nothing else changes, so the same
  count serves before, while and after it is destroyed.  When nothing is
  pending and every live object has a reference, the live objects hold a cycle
  or there are none (`eq_empty`).
-/
import LightTable.Lib.RefCount
import Mathlib.Algebra.BigOperators.Group.Finset.Basic
import Mathlib.Algebra.Order.BigOperators.Group.Finset

namespace Owners

open Finset

variable {A : Type*} [DecidableEq A] {ch ch' : A → List A} {L L' : Finset A} {a c x : A}
  {pending rest : List A}

/-- How many references there are to `x`. -/
def refs (ch : A → List A) (L : Finset A) (pending : List A) (x : A) : Nat :=
  pending.count x + ∑ p ∈ L, (ch p).count x

theorem refs_cons (ch : A → List A) (L : Finset A) (c : A) (rest : List A) (x : A) :
    refs ch L (c :: rest) x = refs ch L rest x + if c = x then 1 else 0 := by
  unfold refs
  rw [List.count_cons]
  simp only [beq_iff_eq]
  omega

/-- The pending references are counted beside those of the live objects. -/
theorem refs_pending (ch : A → List A) (L : Finset A) (pending : List A) (x : A) :
    refs ch L pending x = pending.count x + refs ch L [] x := by
  unfold refs
  rw [List.count_nil, Nat.zero_add]

theorem refs_append (ch : A → List A) (L : Finset A) (pending rest : List A) (x : A) :
    refs ch L (pending ++ rest) x = pending.count x + refs ch L rest x := by
  unfold refs
  rw [List.count_append, Nat.add_assoc]

theorem refs_perm (h : pending.Perm rest) (x : A) : refs ch L pending x = refs ch L rest x := by
  unfold refs
  rw [h.count_eq]

/-- A reference of the outside is let go. -/
theorem refs_erase_pending (ch : A → List A) (L : Finset A) (hc : c ∈ pending) (x : A) :
    refs ch L (pending.erase c) x + (if c = x then 1 else 0) = refs ch L pending x := by
  rw [← refs_cons, refs_perm (List.perm_cons_erase hc)]

theorem refs_congr (h : ∀ p ∈ L, ch' p = ch p) (pending : List A) (x : A) :
    refs ch' L pending x = refs ch L pending x := by
  unfold refs
  rw [Finset.sum_congr rfl (fun p hp => by rw [h p hp])]

/-- An object goes, and what it owned is pending. -/
theorem refs_erase (hc : c ∈ L) (rest : List A) (x : A) :
    refs ch (L.erase c) (ch c ++ rest) x = refs ch L rest x := by
  rw [refs_append]
  unfold refs
  rw [← Finset.sum_erase_add L _ hc]
  omega

/-- A new object owns nothing. -/
theorem refs_insert (hc : c ∉ L) (hch : ch c = []) (pending : List A) (x : A) :
    refs ch (insert c L) pending x = refs ch L pending x := by
  unfold refs
  rw [Finset.sum_insert hc, hch, List.count_nil, Nat.zero_add]

/-- An object comes to own what was pending. -/
theorem refs_take (hc : c ∈ L) {us : List A} (hself : ∀ y, (ch' c).count y = us.count y + (ch c).count y)
    (hother : ∀ p ∈ L, p ≠ c → ch' p = ch p) (rest : List A) (x : A) :
    refs ch' L rest x = refs ch L (us ++ rest) x := by
  unfold refs
  have hsum : ∑ p ∈ L.erase c, (ch' p).count x = ∑ p ∈ L.erase c, (ch p).count x := by
    refine Finset.sum_congr rfl ?_
    intro p hp
    rw [hother p (Finset.mem_of_mem_erase hp) (Finset.ne_of_mem_erase hp)]
  rw [← Finset.sum_erase_add L _ hc, ← Finset.sum_erase_add L (fun p => (ch p).count x) hc, hsum,
    hself, List.count_append]
  omega

theorem refs_pos_of_owns (hc : c ∈ L) (h : x ∈ ch c) (pending : List A) :
    0 < refs ch L pending x := by
  have hle := Finset.single_le_sum (f := fun p => (ch p).count x) (fun _ _ => Nat.zero_le _) hc
  have hpos := List.count_pos_iff.mpr h
  unfold refs
  omega

/-- A sum over the live objects, when one of them goes. -/
theorem sum_erase (hc : c ∈ L) (f : A → Nat) : ∑ p ∈ L, f p = ∑ p ∈ L.erase c, f p + f c :=
  (Finset.sum_erase_add L f hc).symm

theorem mem_erase_count (hc : c ∈ L) (x : A) :
    (if x ∈ L then 1 else 0) = (if x ∈ L.erase c then 1 else 0) + if c = x then 1 else 0 := by
  by_cases hx : c = x
  · subst hx
    simp [hc]
  · simp [hx, Ne.symm hx]

/-- The owner of an object. -/
def Edge (ch : A → List A) (p y : A) : Prop := y ∈ ch p

/-- What is reached from a reference of the outside is live, when the live
objects are those with references. -/
theorem mem_of_reached (h : ∀ x, x ∈ L ↔ 0 < refs ch L pending x) {u : A} (hu : u ∈ pending)
    (hx : Relation.ReflTransGen (Edge ch) u x) : x ∈ L := by
  induction hx with
  | refl =>
    rw [h]
    exact Nat.lt_of_lt_of_le (List.count_pos_iff.mpr hu) (Nat.le_add_right _ _)
  | tail _ hedge ih => exact (h _).mpr (refs_pos_of_owns ih hedge pending)

/-- Without a cycle, an object with references is reached from the outside. -/
theorem exists_reached (hacyc : ∀ x, ¬ Relation.TransGen (Edge ch) x x)
    (h : ∀ x ∈ L, 0 < refs ch L pending x) (hx : x ∈ L) :
    ∃ u ∈ pending, Relation.ReflTransGen (Edge ch) u x := by
  classical
  by_contra hn
  -- the objects that are not reached have owners among themselves
  set U := L.filter (fun y => ¬ ∃ u ∈ pending, Relation.ReflTransGen (Edge ch) u y) with hU
  have howned : ∀ y ∈ U, ∃ p ∈ U, y ∈ ch p := by
    intro y hy
    obtain ⟨hyL, hyn⟩ := Finset.mem_filter.mp hy
    have hpos := h y hyL
    have hout : pending.count y = 0 :=
      List.count_eq_zero.mpr (fun hmem => hyn ⟨y, hmem, .refl⟩)
    unfold refs at hpos
    rw [hout, Nat.zero_add] at hpos
    obtain ⟨p, hp, hcount⟩ := Finset.exists_ne_zero_of_sum_ne_zero (Nat.ne_of_gt hpos)
    have hedge : y ∈ ch p := List.count_pos_iff.mp (Nat.pos_of_ne_zero hcount)
    refine ⟨p, Finset.mem_filter.mpr ⟨hp, ?_⟩, hedge⟩
    rintro ⟨u, hu, hup⟩
    exact hyn ⟨u, hu, hup.tail hedge⟩
  obtain ⟨y, hy⟩ := RefCount.exists_cycle ⟨x, Finset.mem_filter.mpr ⟨hx, hn⟩⟩ howned
  exact hacyc y hy

/-- No object has a reference when each is owned by smaller ones only. -/
theorem eq_empty_of_lt [LT A] [WellFoundedLT A] (hlt : ∀ p ∈ L, ∀ y ∈ ch p, p < y)
    (h : ∀ x ∈ L, 0 < refs ch L [] x) : L = ∅ := by
  by_contra hne
  obtain ⟨x, hx, hmin⟩ := (wellFounded_lt (α := A)).has_min {x | x ∈ L}
    (Finset.nonempty_iff_ne_empty.mpr hne)
  have hpos := h x hx
  unfold refs at hpos
  rw [List.count_nil, Nat.zero_add] at hpos
  obtain ⟨p, hp, hcount⟩ := Finset.exists_ne_zero_of_sum_ne_zero (Nat.ne_of_gt hpos)
  exact hmin p hp (hlt p hp x (List.count_pos_iff.mp (Nat.pos_of_ne_zero hcount)))

end Owners
