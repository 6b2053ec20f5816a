/-
  LightTable.Pool.Destroy
  ───────────────────────
  The destructor of the pool.

  The loop deletes a block and then reads its link, which the block's own
  destructor has just cleared: whatever the length of the free list, the first
  round is the last one (`Sound.destroy_cons`).
-/
import LightTable.Pool.FreeList

namespace LightTable

/-! ## §1. Destruction of the free list. -/

/-- `~memory_pool` destroys every block of the free list once, and reads no
field of a block that is destroyed. -/
def Pool.DestroysAll (s : Pool) : Prop :=
  ∃ free s', s.FreeList free ∧ s.destroy = some s' ∧ (∀ a ∈ free, s'.destroyed.count a = 1)
    ∧ s'.stale = []

/-! ## §2. One round of the loop. -/

variable {s : Pool} {t : PoolState} {a : Addr} {free : List Addr}

@[simp] theorem Pool.destroyLoop_none (fuel : Nat) (s : Pool) :
    Pool.destroyLoop fuel none s = some s := by
  cases fuel <;> rfl

/-- A round on a block that lives destroys it, reads its cleared link and ends
the loop. -/
theorem Pool.destroyLoop_round {fuel : Nat} (h : (s.blocks a).isSome) :
    ∃ s', Pool.destroyLoop (fuel + 1) (some a) s = some s'
      ∧ s'.destroyed = a :: s.destroyed ∧ s'.stale = a :: s.stale := by
  obtain ⟨blk, hblk⟩ := Option.isSome_iff_exists.mp h
  have hdelete : s.deleteBlock a
      = some { s with
          blocks := Function.update s.blocks a (some deadBlock)
          destroyed := a :: s.destroyed } := by
    unfold Pool.deleteBlock
    rw [hblk]
    rfl
  generalize hs : ({ s with
    blocks := Function.update s.blocks a (some deadBlock)
    destroyed := a :: s.destroyed } : Pool) = s₁ at hdelete
  -- the link is read from what the destructor left
  have hread : s₁.readNext a = some (none, { s₁ with stale := a :: s.stale }) := by
    have hdead : a ∈ s₁.destroyed := by
      rw [← hs]
      exact List.mem_cons_self
    have hcell : s₁.blocks a = some deadBlock := by
      rw [← hs]
      exact Function.update_self a _ _
    have hstale : s₁.stale = s.stale := by rw [← hs]
    unfold Pool.readNext
    rw [hcell, if_pos hdead, hstale]
    rfl
  refine ⟨{ s₁ with stale := a :: s.stale }, ?_, by rw [← hs], rfl⟩
  show (s.deleteBlock a).bind _ = _
  rw [hdelete]
  show (s₁.readNext a).bind _ = _
  rw [hread]
  exact Pool.destroyLoop_none fuel _

/-- With blocks that are free, the destructor destroys the first one only, and
reads its link after that. -/
theorem PoolState.Sound.destroy_cons (h : t.Sound (a :: free)) :
    ∃ s', t.pool.destroy = some s' ∧ s'.destroyed = [a] ∧ s'.stale = [a] := by
  have hlt : a < t.pool.brk := (h.mem a).mp (List.mem_append_left t.out List.mem_cons_self)
  have hhead : t.pool.head = some a := h.chain.1
  obtain ⟨fuel, hfuel⟩ := Nat.exists_eq_succ_of_ne_zero (Nat.ne_of_gt (Nat.zero_lt_of_lt hlt))
  obtain ⟨s', hs', hd, hst⟩ := Pool.destroyLoop_round ((h.cells a).mpr hlt)
  refine ⟨s', ?_, ?_, ?_⟩
  · unfold Pool.destroy
    rw [hfuel, hhead]
    exact hs'
  · rw [hd, h.destroyed]
  · rw [hst, h.stale]

/-- With no block free there is nothing to do. -/
theorem PoolState.Sound.destroy_nil (h : t.Sound []) : t.pool.destroy = some t.pool := by
  have hhead : t.pool.head = none := h.chain
  unfold Pool.destroy
  rw [hhead, Pool.destroyLoop_none]

/-- The destructor destroys all blocks only where it has nothing to do. -/
theorem PoolState.Sound.destroys_iff (h : t.Sound free) :
    t.pool.DestroysAll ↔ t.pool.head = none := by
  cases free with
  | nil =>
    have hhead : t.pool.head = none := h.chain
    have hnone : ∀ a ∈ ([] : List Addr), t.pool.destroyed.count a = 1 := by simp
    exact ⟨fun _ => hhead, fun _ => ⟨[], t.pool, h.chain, h.destroy_nil, hnone, h.stale⟩⟩
  | cons a free =>
    have hhead : t.pool.head = some a := h.chain.1
    obtain ⟨s₁, hs₁, -, hstale₁⟩ := h.destroy_cons
    constructor
    · rintro ⟨-, s', -, hs', -, hstale⟩
      obtain rfl : s₁ = s' := Option.some.inj (hs₁.symm.trans hs')
      rw [hstale₁] at hstale
      cases hstale
    · intro hnone
      rw [hhead] at hnone
      cases hnone

/-! ## §3. Runs. -/

/-- Whatever was taken from a pool and given back before: the destructor frees
the whole free list, and reads nothing that is destroyed, exactly when no block
is free. -/
theorem destroysAll_iff {initLen size : Nat} {pool : Pool} {steps : List PoolStep}
    {outs : List (Option Addr)} (h1 : 1 ≤ initLen) (hlen : initLen < 18446744073709551616)
    (hnew : newPool initLen size = some pool)
    (hown : Run.Along PoolState.step PoolState.Owned ⟨pool, []⟩ steps)
    (hrun : Run.run PoolState.step ⟨pool, []⟩ steps = some (outs, t)) :
    t.pool.DestroysAll ↔ t.pool.head = none := by
  obtain ⟨k, s, hs, hbuilt, -⟩ := newPool_built size h1 hlen
  obtain rfl : s = pool := Option.some.inj (hs.symm.trans hnew)
  obtain ⟨⟨free, ht⟩, -⟩ := hbuilt.sound.run hown hrun
  exact ht.destroys_iff

/-- A pool of one with its block taken. -/
theorem destroysAll_iff_taken :
    ∃ pool outs t, newPool 1 4 = some pool
      ∧ Run.run PoolState.step ⟨pool, []⟩ [.get] = some (outs, t)
      ∧ (t.pool.DestroysAll ↔ t.pool.head = none) := by
  have hown : Run.Along PoolState.step PoolState.Owned ⟨(newPool 1 4).get (by decide), []⟩ [.get] := by
    decide
  have hsome : (Run.run PoolState.step ⟨(newPool 1 4).get (by decide), []⟩ [.get]).isSome := by decide
  obtain ⟨⟨outs, t⟩, hrun⟩ := Option.isSome_iff_exists.mp hsome
  exact ⟨_, outs, t, (Option.some_get (by decide)).symm, hrun,
    destroysAll_iff (by decide) (by decide) (Option.some_get (by decide)).symm hown hrun⟩

/-- A fresh pool of two: the first block is destroyed and read afterwards, the
second one stays. -/
theorem destroy_of_fresh_pool :
    ∃ pool, newPool 2 4 = some pool ∧ pool.FreeList [0, 1]
      ∧ pool.destroy.map (fun s => (s.destroyed, s.stale, (s.blocks 1).isSome)) = some ([0], [0], true)
      ∧ ¬ pool.DestroysAll := by
  refine ⟨_, (Option.some_get (by decide)).symm, ?_, by decide, ?_⟩
  · exact ⟨rfl, some 1, by decide, rfl, none, by decide, rfl⟩
  · rintro ⟨-, s', -, hs', -, hstale⟩
    have hread : ((newPool 2 4).get (by decide)).destroy.map Pool.stale = some [0] := by decide
    rw [hs', Option.map_some, hstale] at hread
    cases hread

end LightTable
