/-
  LightTable.Lib.LinkedList
  ─────────────────────────
  Singly linked lists in a memory.  `next a` is the link in the cell at `a`:
  `none` when there is no cell, `some none` when the link is null.

  `Chain next p l` says that the list from the pointer `p` on visits the cells
  `l` and ends.  There is at most one such `l` (`Chain.unique`), and only the
  links of its own cells matter (`Chain.congr`).
-/
import Mathlib.Data.List.Basic

namespace LinkedList

variable {A : Type*} {next next' : A → Option (Option A)}

/-- The list from `p` on visits `l`, and ends with a null link. -/
def Chain (next : A → Option (Option A)) : Option A → List A → Prop
  | p, [] => p = none
  | p, a :: l => p = some a ∧ ∃ q, next a = some q ∧ Chain next q l

/-- A null pointer is the empty list. -/
theorem Chain.eq_nil {l : List A} (h : Chain next none l) : l = [] := by
  cases l with
  | nil => rfl
  | cons a l => exact absurd h.1 (by simp)

theorem Chain.of_some {a : A} {l : List A} (h : Chain next (some a) l) :
    ∃ q rest, l = a :: rest ∧ next a = some q ∧ Chain next q rest := by
  cases l with
  | nil => exact absurd h (by simp [Chain])
  | cons b rest =>
    obtain ⟨hb, q, hq, hrest⟩ := h
    obtain rfl := Option.some.inj hb
    exact ⟨q, rest, rfl, hq, hrest⟩

/-- Only the links of the cells of the list matter. -/
theorem Chain.congr {l : List A} :
    ∀ {p : Option A}, Chain next p l → (∀ a ∈ l, next' a = next a) → Chain next' p l := by
  induction l with
  | nil => exact fun h _ => h
  | cons a l ih =>
    rintro p ⟨hp, q, hq, hrest⟩ hsame
    have hhead : next' a = some q := by rw [hsame a List.mem_cons_self, hq]
    exact ⟨hp, q, hhead, ih hrest (fun b hb => hsame b (List.mem_cons_of_mem a hb))⟩

/-- The list that a pointer starts is determined. -/
theorem Chain.unique {l : List A} :
    ∀ {p : Option A} {l' : List A}, Chain next p l → Chain next p l' → l = l' := by
  induction l with
  | nil =>
    rintro p l' rfl h'
    exact h'.eq_nil.symm
  | cons a l ih =>
    rintro p l' ⟨rfl, q, hq, hrest⟩ h'
    obtain ⟨q', rest', rfl, hq', hrest'⟩ := h'.of_some
    obtain rfl : q = q' := Option.some.inj (hq.symm.trans hq')
    rw [ih hrest hrest']

/-- A new cell in front. -/
theorem Chain.push {a : A} {p : Option A} {l : List A} (h : Chain next p l) (ha : next' a = some p)
    (hsame : ∀ b ∈ l, next' b = next b) : Chain next' (some a) (a :: l) :=
  ⟨rfl, p, ha, h.congr hsame⟩

/-- A new cell at the end: the link of the last cell is set to it. -/
theorem Chain.snoc {t b : A} {l : List A} :
    ∀ {p : Option A}, Chain next p (l ++ [t]) → next' t = some (some b) → next' b = some none →
      (∀ a ∈ l, next' a = next a) → Chain next' p (l ++ [t, b]) := by
  induction l with
  | nil =>
    rintro p ⟨hp, -⟩ ht hb _
    exact ⟨hp, some b, ht, rfl, none, hb, rfl⟩
  | cons a l ih =>
    rintro p ⟨hp, q, hq, hrest⟩ ht hb hsame
    have hhead : next' a = some q := by rw [hsame a List.mem_cons_self, hq]
    exact ⟨hp, q, hhead, ih hrest ht hb (fun c hc => hsame c (List.mem_cons_of_mem a hc))⟩

end LinkedList
