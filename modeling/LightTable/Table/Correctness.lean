/-
  LightTable.Table.Correctness
  ────────────────────────────
  Whole sequences of setter calls on a fresh table.
-/
import LightTable.Table.Refine

namespace LightTable

variable {w w₀ : World} {t : Addr} {calls : List SetCall}

/-! ## §1. The specification's run. -/

/-- On a consistent sequence the specification gives 0 throughout and keeps
the last value of every key. -/
theorem specRun_consistent :
    ∀ (calls pre : List SetCall), Consistent (pre ++ calls) →
      Run.specRun Store.set (lastSet pre) calls
        = (List.replicate calls.length 0, lastSet (pre ++ calls))
  | [], pre, _ => by simp [Run.specRun]
  | c :: calls, pre, h => by
      have happ : pre ++ c :: calls = (pre ++ [c]) ++ calls := by simp
      have hacc : Store.Accepts (lastSet pre) c := by
        rw [happ] at h
        exact Consistent.accepts (h.sublist (List.sublist_append_left _ _))
      have ih := specRun_consistent calls (pre ++ [c]) (by rw [← happ]; exact h)
      unfold Run.specRun
      rw [Store.set_of_accepts hacc, ← lastSet_snoc, ih, happ]
      rfl

/-- What one call needs: a key that fits, a type the store accepts, and a
bucket count that stays an `int`. -/
def World.CallOk (t : Addr) (w : World) (s : Store) (c : SetCall) : Prop :=
  c.key.Fits ∧ s.Accepts c ∧ w.bucketsAsked t c < 2147483648

theorem beside_of_consistent :
    ∀ (calls pre : List SetCall) (w : World), Consistent (pre ++ calls) →
      (∀ c ∈ calls, c.key.Fits) → w.StaysSmall t calls →
      Run.Beside (fun w c => World.set w t c) Store.set (World.CallOk t) w (lastSet pre) calls
  | [], _, _, _, _, _ => trivial
  | c :: calls, pre, w, h, hk, hsmall => by
      have happ : pre ++ c :: calls = (pre ++ [c]) ++ calls := by simp
      have hacc : Store.Accepts (lastSet pre) c := by
        rw [happ] at h
        exact Consistent.accepts (h.sublist (List.sublist_append_left _ _))
      refine ⟨⟨hk c (by simp), hacc, hsmall.1⟩, ?_⟩
      intro o w' hw'
      rw [Store.set_of_accepts hacc, ← lastSet_snoc]
      exact beside_of_consistent calls (pre ++ [c]) w' (by rw [← happ]; exact h)
        (fun c' hc' => hk c' (by simp [hc'])) (hsmall.2 o w' hw')

/-! ## §2. The table's run. -/

/-- A consistent sequence of calls with keys that fit gives 0 throughout, and
the table represents the last values. -/
theorem World.Rep.setAll {tb : Table} {m : LMap} (h : w.Rep t Store.empty tb m)
    (hk : ∀ c ∈ calls, c.key.Fits) (htypes : Consistent calls) (hsmall : w.StaysSmall t calls) :
    ∃ w' tb' m', w.setAll t calls = some (List.replicate calls.length 0, w')
      ∧ w'.Rep t (lastSet calls) tb' m' := by
  -- one call is one step of the simulation
  have hstep : ∀ (w : World) (s : Store) (c : SetCall), (∃ tb m, w.Rep t s tb m) →
      World.CallOk t w s c →
      ∃ w', w.set t c = some ((s.set c).1, w') ∧ ∃ tb m, w'.Rep t (s.set c).2 tb m := by
    intro w s c ⟨tb, m, hrep⟩ ⟨hfit, hacc, hb⟩
    obtain ⟨w', tb', m', heq, hrep', -⟩ := hrep.set hfit hacc hb
    rw [Store.set_of_accepts hacc]
    exact ⟨w', heq, tb', m', hrep'⟩
  have hsim := Run.run_sim (fun w c => World.set w t c) (fun w s => ∃ tb m, w.Rep t s tb m)
    Store.set (World.CallOk t) hstep ⟨tb, m, h⟩
    (beside_of_consistent calls [] w htypes hk hsmall)
  rw [← lastSet_nil, specRun_consistent calls [] htypes] at hsim
  obtain ⟨w', heq, tb', m', hrep⟩ := hsim
  exact ⟨w', tb', m', heq, hrep⟩

/-- A node has one kind: no entry stands for a string and a number. -/
theorem isInHash_kind (name : Bytes) (idx : UInt64) (n : Node) :
    ¬ (isInHash (.str name) n = true ∧ isInHash (.num idx) n = true) := by
  rintro ⟨hstr, hnum⟩
  simp only [isInHash, Bool.and_eq_true, beq_iff_eq] at hstr hnum
  rw [hstr.1] at hnum
  exact absurd hnum.1 (by decide)

/-- A fresh table refines a finite map. -/
theorem setAll_refines (hnew : w.newTable = some (t, w₀)) (hk : ∀ c ∈ calls, c.key.Short)
    (htypes : Consistent calls) (hsmall : w₀.StaysSmall t calls) :
    ∃ w' m, w₀.setAll t calls = some (List.replicate calls.length 0, w')
      ∧ w'.current t = some m
      ∧ (∀ key, w'.ReadsAs t key (lastSet calls key))
      ∧ ∀ n ∈ m.entries, ∀ name idx,
          ¬ (isInHash (.str name) n = true ∧ isInHash (.num idx) n = true) := by
  obtain ⟨tb, hrep⟩ := World.Rep.newTable hnew
  obtain ⟨w', tb', m', heq, hrep'⟩ := hrep.setAll (fun c hc => (hk c hc).fits) htypes hsmall
  exact ⟨w', m', heq, hrep'.toOwns.current, hrep'.readsAs,
    fun n _ name idx => isInHash_kind name idx n⟩

/-- Two strings and a number: the second `set_string` swaps a slot. -/
theorem setAll_refines_three :
    ∃ t w₀ w', World.empty.newTable = some (t, w₀)
      ∧ w₀.setAll t [⟨.str [97], .string [120], .blank⟩, ⟨.num 97, .number 5, .blank⟩,
          ⟨.str [97], .string [121], .blank⟩] = some ([0, 0, 0], w')
      ∧ w'.ReadsAs t (.str [97]) (some (.string [121]))
      ∧ w'.ReadsAs t (.num 97) (some (.number 5))
      ∧ w'.ReadsAs t (.num 1) none := by
  have hsome : World.empty.newTable.isSome = true := by decide
  have hnew : World.empty.newTable = some (World.empty.newTable.get hsome) :=
    (Option.some_get hsome).symm
  obtain ⟨w', -, heq, -, hreads, -⟩ := @setAll_refines _ _ _
    [⟨.str [97], .string [120], .blank⟩, ⟨.num 97, .number 5, .blank⟩,
      ⟨.str [97], .string [121], .blank⟩] hnew (by decide) (by decide) (by decide)
  exact ⟨_, _, w', hnew, heq, hreads (.str [97]), hreads (.num 97), hreads (.num 1)⟩

end LightTable
