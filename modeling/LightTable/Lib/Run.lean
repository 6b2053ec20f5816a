/-
  LightTable.Lib.Run
  ──────────────────
  Runs of a machine in general: `step s a` takes the action `a` in the state
  `s` and gives an output and the next state, or `none` when the action cannot
  be taken.

  Four rules are used again and again:

    • `run_inv` — what every step preserves holds at the end of every run;
    • `run_inv_along` — the same for runs whose steps all meet a condition;
    • `run_sim` — a step-by-step simulation of a specification carries over to
      whole runs, outputs included;
    • `run_sim_many` — the same between two machines, where a step of the finer
      one is any number of steps of the other.
-/
import Mathlib.Data.List.Basic

namespace Run

variable {S A O T : Type*} (step : S → A → Option (O × S))

/-! ## §1. Runs. -/

/-- Take the actions one after the other; gives the outputs. -/
def run : S → List A → Option (List O × S)
  | s, [] => some ([], s)
  | s, a :: as => do
      let (o, s) ← step s a
      let (os, s) ← run s as
      return (o :: os, s)

@[simp] theorem run_nil (s : S) : run step s [] = some ([], s) := rfl

theorem run_cons (s : S) (a : A) (as : List A) :
    run step s (a :: as)
      = (step s a).bind (fun p => (run step p.2 as).map (fun q => (p.1 :: q.1, q.2))) := by
  rw [run]
  cases step s a with
  | none => rfl
  | some p =>
    simp only [Option.bind_eq_bind, Option.bind_some]
    cases run step p.2 as <;> rfl

theorem run_cons_some {s s' : S} {a : A} {as : List A} {os : List O} :
    run step s (a :: as) = some (os, s')
      ↔ ∃ o s₁ os', step s a = some (o, s₁) ∧ run step s₁ as = some (os', s')
          ∧ os = o :: os' := by
  rw [run_cons]
  constructor
  · intro h
    obtain ⟨⟨o, s₁⟩, ho, h⟩ := Option.bind_eq_some_iff.mp h
    obtain ⟨⟨os', s₂⟩, hr, h⟩ := Option.map_eq_some_iff.mp h
    simp only [Prod.mk.injEq] at h
    obtain ⟨rfl, rfl⟩ := h
    exact ⟨o, s₁, os', ho, hr, rfl⟩
  · rintro ⟨o, s₁, os', ho, hr, rfl⟩
    rw [ho, Option.bind_some, hr]
    rfl

/-- A run can be cut anywhere. -/
theorem run_append_some {s s' : S} {as bs : List A} {os : List O} :
    run step s (as ++ bs) = some (os, s')
      ↔ ∃ os₁ s₁ os₂, run step s as = some (os₁, s₁) ∧ run step s₁ bs = some (os₂, s')
          ∧ os = os₁ ++ os₂ := by
  induction as generalizing s os with
  | nil => simp [run]
  | cons a as ih =>
    rw [List.cons_append, run_cons_some]
    constructor
    · rintro ⟨o, s₁, os', ho, hr, rfl⟩
      obtain ⟨os₁, s₂, os₂, h₁, h₂, rfl⟩ := ih.mp hr
      exact ⟨o :: os₁, s₂, os₂, (run_cons_some step).mpr ⟨o, s₁, os₁, ho, h₁, rfl⟩, h₂, rfl⟩
    · rintro ⟨os₁, s₂, os₂, h₁, h₂, rfl⟩
      obtain ⟨o, s₁, os', ho, hr, rfl⟩ := (run_cons_some step).mp h₁
      exact ⟨o, s₁, os' ++ os₂, ho, ih.mpr ⟨os', s₂, os₂, hr, h₂, rfl⟩, rfl⟩

/-- The last step of a run. -/
theorem run_snoc_some {s s' : S} {as : List A} {a : A} {os : List O} :
    run step s (as ++ [a]) = some (os, s')
      ↔ ∃ os₁ s₁ o, run step s as = some (os₁, s₁) ∧ step s₁ a = some (o, s')
          ∧ os = os₁ ++ [o] := by
  rw [run_append_some]
  constructor
  · rintro ⟨os₁, s₁, os₂, h₁, h₂, rfl⟩
    obtain ⟨o, s₂, os', ho, hr, rfl⟩ := (run_cons_some step).mp h₂
    simp only [run_nil, Option.some.injEq, Prod.mk.injEq] at hr
    obtain ⟨rfl, rfl⟩ := hr
    exact ⟨os₁, s₁, o, h₁, ho, rfl⟩
  · rintro ⟨os₁, s₁, o, h₁, ho, rfl⟩
    exact ⟨os₁, s₁, [o], h₁, (run_cons_some step).mpr ⟨o, s', [], ho, rfl, rfl⟩, rfl⟩

/-! ## §2. Invariants. -/

/-- What every step preserves, every run preserves. -/
theorem run_inv {I : S → Prop} (hstep : ∀ s a o s', I s → step s a = some (o, s') → I s')
    {s s' : S} {as : List A} {os : List O} (h0 : I s) (h : run step s as = some (os, s')) :
    I s' := by
  induction as generalizing s os with
  | nil =>
    simp only [run_nil, Option.some.injEq, Prod.mk.injEq] at h
    rw [← h.2]
    exact h0
  | cons a as ih =>
    obtain ⟨o, s₁, os', ho, hr, -⟩ := (run_cons_some step).mp h
    exact ih (hstep s a o s₁ h0 ho) hr

/-- Every step of the run from `s` along the actions meets the condition `G`. -/
def Along (G : S → A → Prop) : S → List A → Prop
  | _, [] => True
  | s, a :: as => G s a ∧ ∀ o s', step s a = some (o, s') → Along G s' as

/-- Whether a run meets a condition can be computed by taking it. -/
instance Along.decidable (G : S → A → Prop) [∀ s a, Decidable (G s a)] :
    ∀ (s : S) (as : List A), Decidable (Along step G s as)
  | _, [] => isTrue trivial
  | s, a :: as =>
      have htail : Decidable (∀ o s', step s a = some (o, s') → Along step G s' as) :=
        match h : step s a with
        | none => isTrue (fun _ _ ho => absurd ho (by simp))
        | some p =>
            match Along.decidable G p.2 as with
            | isTrue hp => isTrue (fun o s' ho => by
                rw [Option.some.injEq] at ho
                subst ho
                exact hp)
            | isFalse hp => isFalse (fun hall => hp (hall p.1 p.2 rfl))
      inferInstanceAs (Decidable (_ ∧ _))

/-- What every step that meets `G` preserves holds at the end of a run whose
steps all meet `G`. -/
theorem run_inv_along {I : S → Prop} {G : S → A → Prop}
    (hstep : ∀ s a o s', I s → G s a → step s a = some (o, s') → I s')
    {s s' : S} {as : List A} {os : List O} (h0 : I s) (hG : Along step G s as)
    (h : run step s as = some (os, s')) : I s' := by
  induction as generalizing s os with
  | nil =>
    simp only [run_nil, Option.some.injEq, Prod.mk.injEq] at h
    rw [← h.2]
    exact h0
  | cons a as ih =>
    obtain ⟨o, s₁, os', ho, hr, -⟩ := (run_cons_some step).mp h
    exact ih (hstep s a o s₁ h0 hG.1 ho) (hG.2 o s₁ ho) hr

/-- Two runs, one after the other. -/
theorem along_append {G : S → A → Prop} {s s' : S} {as bs : List A} {os : List O}
    (hG : Along step G s as) (h : run step s as = some (os, s')) (hG' : Along step G s' bs) :
    Along step G s (as ++ bs) := by
  induction as generalizing s os with
  | nil =>
    simp only [run_nil, Option.some.injEq, Prod.mk.injEq] at h
    rw [h.2]
    exact hG'
  | cons a as ih =>
    obtain ⟨o, s₁, os', ho, hr, -⟩ := (run_cons_some step).mp h
    refine ⟨hG.1, ?_⟩
    intro o' s₂ ho'
    rw [ho] at ho'
    simp only [Option.some.injEq, Prod.mk.injEq] at ho'
    obtain ⟨rfl, rfl⟩ := ho'
    exact ih (hG.2 o s₁ ho) hr

theorem along_snoc {G : S → A → Prop} {s s' : S} {as : List A} {a : A} {os : List O}
    (hG : Along step G s as) (h : run step s as = some (os, s')) (ha : G s' a) :
    Along step G s (as ++ [a]) :=
  along_append step hG h ⟨ha, fun _ _ _ => trivial⟩

/-- What holds of every step holds along every run. -/
theorem along_of_forall {G : S → A → Prop} (h : ∀ s a, G s a) :
    ∀ (s : S) (as : List A), Along step G s as
  | _, [] => trivial
  | s, a :: as => ⟨h s a, fun _ s' _ => along_of_forall h s' as⟩

/-- A run whose actions all have a property meets it along the way. -/
theorem along_and_mem {G : S → A → Prop} {Q : A → Prop} :
    ∀ {as : List A} {s : S}, Along step G s as → (∀ a ∈ as, Q a) →
      Along step (fun s a => G s a ∧ Q a) s as
  | [], _, _, _ => trivial
  | a :: _, _, h, hQ =>
      ⟨⟨h.1, hQ a List.mem_cons_self⟩,
        fun o s' ho => along_and_mem (h.2 o s' ho) (fun b hb => hQ b (List.mem_cons_of_mem a hb))⟩

/-- A property of the actions along a run that goes through is one of all. -/
theorem mem_of_along {Q : A → Prop} {s s' : S} {as : List A} {os : List O}
    (hG : Along step (fun _ a => Q a) s as) (h : run step s as = some (os, s')) :
    ∀ a ∈ as, Q a := by
  induction as generalizing s os with
  | nil => exact fun a ha => absurd ha (by simp)
  | cons b as ih =>
    obtain ⟨o, s₁, os', ho, hr, -⟩ := (run_cons_some step).mp h
    intro a ha
    rcases List.mem_cons.mp ha with rfl | ha
    · exact hG.1
    · exact ih (hG.2 o s₁ ho) hr a ha

/-- The first steps of a run that meets a condition meet it too. -/
theorem along_take {G : S → A → Prop} :
    ∀ {as bs : List A} {s : S}, Along step G s (as ++ bs) → Along step G s as
  | [], _, _, _ => trivial
  | _ :: _, _, _, h => ⟨h.1, fun o s' ho => along_take (h.2 o s' ho)⟩

/-- The rest of a run that meets a condition meets it too. -/
theorem along_drop {G : S → A → Prop} {s s' : S} {as bs : List A} {os : List O}
    (hG : Along step G s (as ++ bs)) (h : run step s as = some (os, s')) :
    Along step G s' bs := by
  induction as generalizing s os with
  | nil =>
    simp only [run_nil, Option.some.injEq, Prod.mk.injEq] at h
    rw [← h.2]
    exact hG
  | cons a as ih =>
    obtain ⟨o, s₁, os', ho, hr, -⟩ := (run_cons_some step).mp h
    exact ih (hG.2 o s₁ ho) hr

/-- Along a run of valid steps two step conditions are the same, when they are
the same for a valid step from a state of the invariant, and a valid step that
meets the first one keeps the invariant. -/
theorem along_iff {I : S → Prop} {V P H : S → A → Prop}
    (hiff : ∀ s a, I s → V s a → (P s a ↔ H s a))
    (hkeep : ∀ s a o s', I s → V s a → P s a → step s a = some (o, s') → I s') :
    ∀ {as : List A} {s : S}, I s → Along step V s as → (Along step P s as ↔ Along step H s as)
  | [], _, _, _ => Iff.rfl
  | a :: as, s, h0, hV => by
      have hhead := hiff s a h0 hV.1
      constructor
      · rintro ⟨hp, htail⟩
        refine ⟨hhead.mp hp, ?_⟩
        intro o s' ho
        exact (along_iff hiff hkeep (hkeep s a o s' h0 hV.1 hp ho) (hV.2 o s' ho)).mp (htail o s' ho)
      · rintro ⟨hh, htail⟩
        have hp := hhead.mpr hh
        refine ⟨hp, ?_⟩
        intro o s' ho
        exact (along_iff hiff hkeep (hkeep s a o s' h0 hV.1 hp ho) (hV.2 o s' ho)).mpr (htail o s' ho)

/-! ## §3. Simulation. -/

/-- The run of a specification that is never stuck. -/
def specRun (next : T → A → O × T) : T → List A → List O × T
  | t, [] => ([], t)
  | t, a :: as =>
      let r := specRun next (next t a).2 as
      ((next t a).1 :: r.1, r.2)

/-- Every step of a run, beside the specification's, meets the condition `G`. -/
def Beside (next : T → A → O × T) (G : S → T → A → Prop) : S → T → List A → Prop
  | _, _, [] => True
  | s, t, a :: as =>
      G s t a ∧ ∀ o s', step s a = some (o, s') → Beside next G s' (next t a).2 as

/-- Forward simulation: the machine is not stuck, gives the outputs of the
specification and ends in a related state. -/
theorem run_sim (R : S → T → Prop) (next : T → A → O × T) (G : S → T → A → Prop)
    (hstep : ∀ s t a, R s t → G s t a →
      ∃ s', step s a = some ((next t a).1, s') ∧ R s' (next t a).2)
    {s : S} {t : T} {as : List A} (h0 : R s t) (hG : Beside step next G s t as) :
    ∃ s', run step s as = some ((specRun next t as).1, s') ∧ R s' (specRun next t as).2 := by
  induction as generalizing s t with
  | nil => exact ⟨s, rfl, h0⟩
  | cons a as ih =>
    obtain ⟨s₁, h₁, hR⟩ := hstep s t a h0 hG.1
    obtain ⟨s', hr, hR'⟩ := ih hR (hG.2 _ _ h₁)
    exact ⟨s', (run_cons_some step).mpr ⟨_, s₁, _, h₁, hr, rfl⟩, hR'⟩

variable {B P : Type*} (step₂ : T → B → Option (P × T))

/-- One step of the finer machine, which meets `G`, goes through and is a run
of the coarser one whose steps meet `H`. -/
def Matches (R : S → T → Prop) (H : T → B → Prop) (s : S) (t : T) (a : A) : Prop :=
  ∃ o s' bs os t', step s a = some (o, s') ∧ Along step₂ H t bs
    ∧ run step₂ t bs = some (os, t') ∧ R s' t'

/-- Forward simulation with any number of steps for one: the finer machine is
not stuck, and its run is a run of the coarser one. -/
theorem run_sim_many {R : S → T → Prop} {G : S → A → Prop} {H : T → B → Prop}
    (hstep : ∀ s t a, R s t → G s a → Matches step step₂ R H s t a) {s : S} {t : T} {as : List A}
    (h0 : R s t) (hG : Along step G s as) :
    ∃ os s' bs os' t', run step s as = some (os, s') ∧ Along step₂ H t bs
      ∧ run step₂ t bs = some (os', t') ∧ R s' t' := by
  induction as generalizing s t with
  | nil => exact ⟨[], s, [], [], t, rfl, trivial, rfl, h0⟩
  | cons a as ih =>
    obtain ⟨o, s₁, bs₁, os₁, t₁, h₁, hH₁, hr₁, hR₁⟩ := hstep s t a h0 hG.1
    obtain ⟨os, s', bs, os', t', hr, hH, hr', hR⟩ := ih hR₁ (hG.2 o s₁ h₁)
    exact ⟨o :: os, s', bs₁ ++ bs, os₁ ++ os', t', (run_cons_some step).mpr ⟨o, s₁, os, h₁, hr, rfl⟩,
      along_append step₂ hH₁ hr₁ hH, (run_append_some step₂).mpr ⟨os₁, t₁, os', hr₁, hr', rfl⟩, hR⟩

/-- A run that goes through is followed by the coarser machine, step by step;
`f` and `g` say what of the outputs the two have in common. -/
theorem run_follow {X : Type*} {f : O → List X} {g : P → List X} {R : S → T → Prop}
    {G : S → A → Prop} {H : T → B → Prop}
    (hstep : ∀ s t a o s', R s t → G s a → step s a = some (o, s') →
      ∃ bs os t', Along step₂ H t bs ∧ run step₂ t bs = some (os, t') ∧ os.flatMap g = f o ∧ R s' t')
    {s s' : S} {t : T} {as : List A} {os : List O} (h0 : R s t) (hG : Along step G s as)
    (h : run step s as = some (os, s')) :
    ∃ bs os' t', Along step₂ H t bs ∧ run step₂ t bs = some (os', t')
      ∧ os'.flatMap g = os.flatMap f ∧ R s' t' := by
  induction as generalizing s t os with
  | nil =>
    simp only [run_nil, Option.some.injEq, Prod.mk.injEq] at h
    obtain ⟨rfl, rfl⟩ := h
    exact ⟨[], [], t, trivial, rfl, rfl, h0⟩
  | cons a as ih =>
    obtain ⟨o, s₁, os₁, h₁, hr, rfl⟩ := (run_cons_some step).mp h
    obtain ⟨bs₁, os₂, t₁, hH₁, hr₁, ho₁, hR₁⟩ := hstep s t a o s₁ h0 hG.1 h₁
    obtain ⟨bs, os', t', hH, hr', ho, hR⟩ := ih hR₁ (hG.2 o s₁ h₁) hr
    refine ⟨bs₁ ++ bs, os₂ ++ os', t', along_append step₂ hH₁ hr₁ hH,
      (run_append_some step₂).mpr ⟨os₂, t₁, os', hr₁, hr', rfl⟩, ?_, hR⟩
    rw [List.flatMap_append, ho₁, ho]
    rfl

end Run
