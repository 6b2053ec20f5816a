/-
  LightTable.Table.Cycles
  ───────────────────────
  When `serialize` ends.

  `_do_serialize` calls itself on every table that it finds, keeps no record of
  the tables it is in, and has no limit.  So it ends where no table that is
  reached is reached from itself (`serialize_ends`), and a table stored in
  itself keeps it going for ever (`serialize_self_never_ends`).
-/
import LightTable.Table.Collection

namespace LightTable

open Fuel Relation

variable {s : NestState} {t : Addr} {tmp : Value}

/-- Among the tables of a collection a call ends once the calls that it makes
on them do; a pointer to anything else is no table. -/
theorem NestState.Collected.pieces_ends (h : s.Collected) (ht : t ∈ s.made)
    (hac : ∀ u, ReflTransGen (s.w.Follows tmp) t u → ¬ TransGen (s.w.Follows tmp) u u)
    (ps : List Bytes) : (World.pieces tmp s.w.brk t (s.w, ps)).Ends := by
  have hstill := h.still tmp
  set G : Addr → Addr → Prop := fun a b => s.w.Follows tmp a b ∧ b ∈ s.made with hG
  have hsub : ∀ a b, ReflTransGen G a b → ReflTransGen (s.w.Follows tmp) a b :=
    fun a b hab => ReflTransGen.mono (fun _ _ hxy => hxy.1) a b hab
  have hmade : ∀ b, ReflTransGen G t b → b ∈ s.made := by
    intro b hb
    induction hb with
    | refl => exact ht
    | tail _ hbc _ => exact hbc.2
  -- one more nested call than there are tables: the last one may find no table
  have hends : ∀ ps, (World.pieces tmp (s.w.brk - 1 + 1) t (s.w, ps)).Ends := by
    refine ends_of_acyclic (G := G)
      (P := fun n a => ∀ ps, (World.pieces tmp (n + 1) a (s.w, ps)).Ends) ?_ (s.w.brk - 1) t
      s.made.toFinset ?_ ?_ ?_
    · intro n a hcalls ps
      refine World.pieces_ends_succ hstill ?_ ps
      intro u hu ps
      by_cases hmem : u ∈ s.made
      · exact hcalls u ⟨hu, hmem⟩ ps
      · have hnone : s.w.tables u = none := by
          cases hx : s.w.tables u with
          | none => rfl
          | some tb => exact absurd (h.known u (by rw [hx]; rfl)) hmem
        unfold World.pieces
        rw [World.enumerated_none hnone]
        intro hout; cases hout
    · have := h.card_lt
      exact Nat.le_sub_one_of_lt this
    · intro b hb
      exact List.mem_toFinset.mpr (hmade b hb)
    · intro b hb hcyc
      exact hac b (hsub t b hb) (TransGen.mono (fun _ _ hxy => hxy.1) b b hcyc)
  have hpos : s.w.brk - 1 + 1 = s.w.brk := Nat.sub_add_cancel h.pos
  rw [hpos] at hends
  exact hends ps

end LightTable
