/-
  LightTable.Lib.Framing
  ──────────────────────
  Texts cut by a separator.

  A separator whose first letter occurs in it only once cannot overlap itself
  (`Marker`).  Two ways to cut one text at it are then the same, or the longer
  front part contains the separator (`Marker.split`); parts that do not contain
  it are determined by the text (`Marker.unique`).
-/
import Mathlib.Data.List.Infix

namespace Framing

variable {α : Type*} {sep x y z X Y : List α}

/-- The first letter of `sep` occurs nowhere else in it. -/
def Marker (sep : List α) : Prop := ∃ q rest, sep = q :: rest ∧ q ∉ rest

/-- A separator that is met again after `z` was met right away, or `z` starts
with it. -/
theorem Marker.shift (h : Marker sep) (heq : sep ++ X = z ++ sep ++ Y) :
    z = [] ∨ ∃ z', z = sep ++ z' ∧ X = z' ++ sep ++ Y := by
  obtain ⟨q, rest, rfl, hq⟩ := h
  rw [List.append_assoc] at heq
  rcases List.append_eq_append_iff.mp heq with ⟨a, hz, hX⟩ | ⟨c, hsep, hY⟩
  · -- `z` reaches past the separator
    exact Or.inr ⟨a, hz, by rw [hX, List.append_assoc]⟩
  · -- `z` ends inside the separator, where its first letter would occur again
    cases z with
    | nil => exact Or.inl rfl
    | cons p z =>
      cases c with
      | nil =>
        rw [List.append_nil] at hsep
        refine Or.inr ⟨[], by rw [hsep, List.append_nil], ?_⟩
        rw [List.nil_append] at hY ⊢
        exact hY.symm
      | cons b c =>
        have hb : q = b := (List.cons.inj hY).1
        have hrest : rest = z ++ b :: c := (List.cons.inj hsep).2
        apply absurd _ hq
        rw [hrest, hb]
        exact List.mem_append.mpr (Or.inr List.mem_cons_self)

/-- Two ways to cut a text at a separator. -/
theorem Marker.split (h : Marker sep) (heq : x ++ sep ++ X = y ++ sep ++ Y) :
    (x = y ∧ X = Y) ∨ (∃ z, y = x ++ sep ++ z ∧ X = z ++ sep ++ Y)
      ∨ ∃ z, x = y ++ sep ++ z ∧ Y = z ++ sep ++ X := by
  have hcut : x ++ (sep ++ X) = y ++ (sep ++ Y) := by
    rwa [List.append_assoc, List.append_assoc] at heq
  rcases List.append_eq_append_iff.mp hcut with ⟨a, rfl, ha⟩ | ⟨c, rfl, hc⟩
  · rw [← List.append_assoc] at ha
    rcases h.shift ha with rfl | ⟨z, rfl, hz⟩
    · rw [List.nil_append] at ha
      exact Or.inl ⟨(List.append_nil x).symm, List.append_cancel_left ha⟩
    · exact Or.inr (Or.inl ⟨z, (List.append_assoc x sep z).symm, hz⟩)
  · rw [← List.append_assoc] at hc
    rcases h.shift hc with rfl | ⟨z, rfl, hz⟩
    · rw [List.nil_append] at hc
      exact Or.inl ⟨List.append_nil y, (List.append_cancel_left hc).symm⟩
    · exact Or.inr (Or.inr ⟨z, (List.append_assoc y sep z).symm, hz⟩)

/-- Front parts without the separator are determined by the text. -/
theorem Marker.unique (h : Marker sep) (hx : ¬ sep <:+: x) (hy : ¬ sep <:+: y)
    (heq : x ++ sep ++ X = y ++ sep ++ Y) : x = y ∧ X = Y := by
  rcases h.split heq with hxy | ⟨z, rfl, -⟩ | ⟨z, rfl, -⟩
  · exact hxy
  · exact absurd ⟨x, z, rfl⟩ hy
  · exact absurd ⟨y, z, rfl⟩ hx

end Framing
