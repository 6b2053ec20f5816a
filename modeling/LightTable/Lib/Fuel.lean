/-
  LightTable.Lib.Fuel
  ───────────────────
  Recursive programs computed with fuel.

  A program with no bound on its recursion is a function of a number of nested
  calls that it may make.  `Result` tells the three ends apart: no fuel left,
  undefined behaviour, or a value.  `ends_of_acyclic` is the termination rule:
  calls along the edges of a graph end when the graph that is reached is finite
  and has no cycle.
-/
import Mathlib.Data.Finset.Card
import Mathlib.Logic.Relation

namespace Fuel

variable {α β σ : Type*}

/-! ## §1. Results. -/

/-- How a program ends: the fuel runs out, its behaviour is undefined, or it
gives a value. -/
inductive Result (α : Type*) where
  | out
  | stuck
  | ok (a : α)

/-- Go on with the value. -/
def Result.bind : Result α → (α → Result β) → Result β
  | .out, _ => .out
  | .stuck, _ => .stuck
  | .ok a, f => f a

/-- A step that needs no fuel. -/
def Result.ofOption : Option α → Result α
  | none => .stuck
  | some a => .ok a

/-- The value, if there is one. -/
def Result.toOption : Result α → Option α
  | .ok a => some a
  | _ => none

/-- The program ends. -/
def Result.Ends (r : Result α) : Prop := r ≠ .out

@[simp] theorem Result.out_bind (f : α → Result β) : (Result.out : Result α).bind f = .out := rfl

@[simp] theorem Result.stuck_bind (f : α → Result β) : (Result.stuck : Result α).bind f = .stuck := rfl

@[simp] theorem Result.ok_bind (a : α) (f : α → Result β) : (Result.ok a).bind f = f a := rfl

@[simp] theorem Result.ofOption_none : Result.ofOption (none : Option α) = .stuck := rfl

@[simp] theorem Result.ofOption_some (a : α) : Result.ofOption (some a) = .ok a := rfl

@[simp] theorem Result.toOption_ok (a : α) : (Result.ok a).toOption = some a := rfl

@[simp] theorem Result.toOption_ofOption (o : Option α) : (Result.ofOption o).toOption = o := by
  cases o <;> rfl

theorem Result.toOption_bind (r : Result α) (f : α → Result β) :
    (r.bind f).toOption = r.toOption.bind (fun a => (f a).toOption) := by
  cases r <;> rfl

theorem Result.toOption_eq_some {r : Result α} {a : α} : r.toOption = some a ↔ r = .ok a := by
  cases r <;> simp [Result.toOption]

theorem Result.ofOption_eq_ok {o : Option α} {a : α} : Result.ofOption o = .ok a ↔ o = some a := by
  cases o <;> simp [Result.ofOption]

/-- What gives a value gave one half way. -/
theorem Result.bind_eq_ok {r : Result α} {f : α → Result β} {b : β} :
    r.bind f = .ok b ↔ ∃ a, r = .ok a ∧ f a = .ok b := by
  cases r <;> simp [Result.bind]

theorem Result.ends_ok (a : α) : (Result.ok a).Ends := by
  intro h
  cases h

theorem Result.ends_ofOption (o : Option α) : (Result.ofOption o).Ends := by
  intro h
  cases o <;> cases h

/-- A program ends when its first part does and the rest does from there. -/
theorem Result.Ends.bind {r : Result α} (hr : r.Ends) {f : α → Result β}
    (hf : ∀ a, r = .ok a → (f a).Ends) : (r.bind f).Ends := by
  cases r with
  | out => exact absurd rfl hr
  | stuck => intro h; cases h
  | ok a => exact hf a rfl

/-! ## §2. Loops. -/

/-- A loop over a list. -/
def Result.fold (f : σ → α → Result σ) : σ → List α → Result σ
  | s, [] => .ok s
  | s, a :: as => (f s a).bind (fun s => Result.fold f s as)

@[simp] theorem Result.fold_nil (f : σ → α → Result σ) (s : σ) : Result.fold f s [] = .ok s := rfl

theorem Result.fold_cons (f : σ → α → Result σ) (s : σ) (a : α) (as : List α) :
    Result.fold f s (a :: as) = (f s a).bind (fun s => Result.fold f s as) := rfl

/-- A loop ends when every round does from a state of the invariant, and keeps
the invariant. -/
theorem Result.ends_fold {f : σ → α → Result σ} {I : σ → Prop} {l : List α}
    (hends : ∀ s, ∀ a ∈ l, I s → (f s a).Ends) (hkeep : ∀ s, ∀ a ∈ l, ∀ s', I s → f s a = .ok s' → I s')
    {s : σ} (hs : I s) : (Result.fold f s l).Ends := by
  induction l generalizing s with
  | nil => exact Result.ends_ok s
  | cons a l ih =>
    rw [Result.fold_cons]
    refine (hends s a List.mem_cons_self hs).bind ?_
    intro s' hs'
    exact ih (fun s a ha => hends s a (List.mem_cons_of_mem _ ha))
      (fun s a ha => hkeep s a (List.mem_cons_of_mem _ ha))
      (hkeep s a List.mem_cons_self s' hs hs')

/-- What every round keeps holds after the loop. -/
theorem Result.fold_inv {f : σ → α → Result σ} {I : σ → Prop} {l : List α}
    (hkeep : ∀ s, ∀ a ∈ l, ∀ s', I s → f s a = .ok s' → I s') {s s' : σ} (hs : I s)
    (h : Result.fold f s l = .ok s') : I s' := by
  induction l generalizing s with
  | nil =>
    rw [Result.fold_nil, Result.ok.injEq] at h
    rw [← h]
    exact hs
  | cons a l ih =>
    rw [Result.fold_cons] at h
    obtain ⟨s₁, hf, h⟩ := Result.bind_eq_ok.mp h
    exact ih (fun s a ha => hkeep s a (List.mem_cons_of_mem _ ha))
      (hkeep s a List.mem_cons_self s₁ hs hf) h

/-! ## §3. Recursion along a graph. -/

open Relation

/-- A recursion that calls itself along the edges of `G` only: what the calls
at the neighbours with one unit of fuel less give holds with as much fuel as
there are points to reach, when no point that is reached lies on a cycle. -/
theorem ends_of_acyclic [DecidableEq α] {G : α → α → Prop} {P : Nat → α → Prop}
    (hstep : ∀ n a, (∀ b, G a b → P n b) → P (n + 1) a) :
    ∀ (n : Nat) (a : α) (L : Finset α), L.card ≤ n → (∀ b, ReflTransGen G a b → b ∈ L) →
      (∀ b, ReflTransGen G a b → ¬ TransGen G b b) → P n a
  | 0, a, L, hcard, hL, _ => by
      have ha : a ∈ L := hL a .refl
      have hpos : 0 < L.card := Finset.card_pos.mpr ⟨a, ha⟩
      omega
  | n + 1, a, L, hcard, hL, hac => by
      refine hstep n a ?_
      intro b hab
      -- what is reached from `b` is reached from `a`, and is not `a`
      have hb : ∀ c, ReflTransGen G b c → ReflTransGen G a c :=
        fun c hc => (ReflTransGen.single hab).trans hc
      have hne : ∀ c, ReflTransGen G b c → c ≠ a := by
        intro c hc hca
        subst hca
        exact hac c .refl (TransGen.head' hab hc)
      have hcard' : (L.erase a).card ≤ n := by
        rw [Finset.card_erase_of_mem (hL a .refl)]
        omega
      exact ends_of_acyclic hstep n b (L.erase a) hcard'
        (fun c hc => Finset.mem_erase.mpr ⟨hne c hc, hL c (hb c hc)⟩)
        (fun c hc => hac c (hb c hc))

end Fuel
