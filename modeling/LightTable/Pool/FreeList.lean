/-
  LightTable.Pool.FreeList
  ────────────────────────
  What the clients of a pool hold and what is free.

  The constructor links the blocks up in the order it allocates them
  (`newPool_built`); how many there are is a matter of its `int` counter.
  Taking and giving back keeps the free list finite, without repetition and
  apart from what is held (`Sound.step`).  Nothing is kept for the last `get`:
  with no block free it reads through a null head (`pool_meets_iff`).
-/
import LightTable.Pool.Def
import Mathlib.Data.Nat.Find

namespace LightTable

open LinkedList

/-! ## §1. Blocks that are free or held. -/

/-- The free list ends, and it and the blocks that are held are the first `n`
blocks, each once. -/
def PoolState.Partitions (n : Nat) (s : PoolState) : Prop :=
  ∃ free, s.pool.FreeList free ∧ (free ++ s.out).Nodup ∧ ∀ a, a ∈ free ++ s.out ↔ a < n

/-- `get_block` returns a block that nobody holds, or a null pointer when all
are held. -/
def PoolState.GetMeets (n : Nat) (s : PoolState) : Prop :=
  ∃ ret s', s.step .get = some (ret, s') ∧ (∀ a, ret = some a → a ∉ s.out)
    ∧ (ret = none → ∀ a < n, a ∈ s.out)

/-- The blocks are partitioned before a step, and `get_block` finds a free one. -/
def PoolState.Meets (n : Nat) (s : PoolState) (a : PoolStep) : Prop :=
  s.Partitions n ∧ (a = .get → s.GetMeets n)

/-- So at every step of a run, and the blocks are partitioned where it ends. -/
def PoolState.RunMeets (n : Nat) (s : PoolState) (steps : List PoolStep) : Prop :=
  Run.Along PoolState.step (PoolState.Meets n) s steps
    ∧ ∀ os s', Run.run PoolState.step s steps = some (os, s') → s'.Partitions n

/-- A block is free when one is asked for. -/
def PoolState.HasFree (n : Nat) (s : PoolState) (a : PoolStep) : Prop :=
  a = .get → s.out.length < n

instance (n : Nat) (s : PoolState) (a : PoolStep) : Decidable (s.HasFree n a) :=
  inferInstanceAs (Decidable (a = .get → s.out.length < n))

/-! ## §2. Reads and writes. -/

variable {s s' : Pool} {a b : Nat} {p q : Option Addr} {free : List Addr}

theorem Pool.next_eq_some : s.next a = some q ↔ ∃ blk, s.blocks a = some blk ∧ blk.next = q := by
  unfold Pool.next
  exact Option.map_eq_some_iff

/-- A read of a block that was not destroyed leaves the pool. -/
theorem Pool.readNext_eq (h : s.next a = some q) (hlive : a ∉ s.destroyed) :
    s.readNext a = some (q, s) := by
  obtain ⟨blk, hblk, rfl⟩ := Pool.next_eq_some.mp h
  unfold Pool.readNext
  rw [hblk, if_neg hlive]
  rfl

theorem Pool.writeNext_eq (h : (s.blocks a).isSome) (p : Option Addr) :
    ∃ s', s.writeNext a p = some s' ∧ s'.next = Function.update s.next a (some p)
      ∧ (∀ b, (s'.blocks b).isSome = (s.blocks b).isSome) ∧ s'.brk = s.brk ∧ s'.head = s.head
      ∧ s'.destroyed = s.destroyed ∧ s'.stale = s.stale := by
  obtain ⟨blk, hblk⟩ := Option.isSome_iff_exists.mp h
  refine ⟨{ s with blocks := Function.update s.blocks a (some { blk with next := p }) }, ?_, ?_, ?_,
    rfl, rfl, rfl, rfl⟩
  · unfold Pool.writeNext
    rw [hblk]
    rfl
  · funext b
    unfold Pool.next
    by_cases hb : b = a
    · simp [hb]
    · simp [Function.update_of_ne hb]
  · intro b
    by_cases hb : b = a
    · simp [hb, hblk]
    · simp [Function.update_of_ne hb]

/-! ## §3. The constructor. -/

/-- The pool while it is being built: the blocks up to `k` are linked in their
order, and the last one ends the list. -/
structure Pool.Built (s : Pool) (k : Nat) : Prop where
  brk : s.brk = k + 1
  free : s.FreeList (List.range (k + 1))
  cells : ∀ a, (s.blocks a).isSome ↔ a < k + 1
  destroyed : s.destroyed = []
  stale : s.stale = []

/-- One round links one more block. -/
theorem Pool.Built.round {k initLen : Nat} {i : Int} (h : s.Built k) (size fuel : Nat)
    (hi : asSize i < initLen) :
    ∃ s', Pool.buildLoop initLen size (fuel + 1) i k s
        = Pool.buildLoop initLen size fuel (asInt (i + 1)) (k + 1) s'
      ∧ s'.Built (k + 1) := by
  have hne : k ≠ k + 1 := Nat.ne_of_lt (Nat.lt_succ_self k)
  have hfresh : ∀ a, a ≠ k + 1 → (s.alloc size).2.next a = s.next a := by
    intro a ha
    show (Function.update s.blocks s.brk _ a).map Block.next = _
    rw [h.brk, Function.update_of_ne ha]
    rfl
  have hcell : ((s.alloc size).2.blocks k).isSome := by
    show (Function.update s.blocks s.brk _ k).isSome
    rw [h.brk, Function.update_of_ne hne]
    exact (h.cells k).mpr (Nat.lt_succ_self k)
  obtain ⟨s', hw, hnext, hsome, hbrk, hhead, hd, hst⟩ := Pool.writeNext_eq hcell (some (k + 1))
  have hlink : s'.next k = some (some (k + 1)) := by rw [hnext, Function.update_self]
  have hread : s'.readNext k = some (some (k + 1), s') := by
    apply Pool.readNext_eq hlink
    rw [hd]
    show k ∉ s.destroyed
    rw [h.destroyed]
    exact List.not_mem_nil
  refine ⟨s', ?_, ?_, ?_, ?_, ?_, ?_⟩
  · -- the round itself
    have hb : (s.alloc size).1 = k + 1 := h.brk
    show (if asSize i < initLen then _ else _) = _
    rw [if_pos hi]
    show ((s.alloc size).2.writeNext k (some (s.alloc size).1)).bind _ = _
    rw [hb, hw]
    show (s'.readNext k).bind _ = _
    rw [hread]
    rfl
  · rw [hbrk]
    show s.brk + 1 = k + 1 + 1
    rw [h.brk]
  · -- the block that ended the list now links to the new one
    have hchain : Chain s.next s.head (List.range k ++ [k]) := by
      rw [← List.range_succ]
      exact h.free
    have hhead : s'.head = s.head := hhead
    show Chain s'.next s'.head (List.range (k + 1 + 1))
    rw [hhead, List.range_succ, List.range_succ, List.append_assoc]
    refine hchain.snoc hlink ?_ ?_
    · rw [hnext, Function.update_of_ne hne.symm]
      show (Function.update s.blocks s.brk _ (k + 1)).map Block.next = _
      rw [h.brk, Function.update_self]
      rfl
    · intro a ha
      have ha := List.mem_range.mp ha
      rw [hnext, Function.update_of_ne (Nat.ne_of_lt ha),
        hfresh a (Nat.ne_of_lt (Nat.lt_succ_of_lt ha))]
  · -- the new cell is the only one that is new
    intro a
    rw [hsome]
    show (Function.update s.blocks s.brk _ a).isSome ↔ _
    rw [h.brk]
    by_cases ha : a = k + 1
    · simp [ha]
    · rw [Function.update_of_ne ha, h.cells]
      exact ⟨Nat.lt_succ_of_lt, fun hlt => Nat.lt_of_le_of_ne (Nat.le_of_lt_succ hlt) ha⟩
  · rw [hd]
    exact h.destroyed
  · rw [hst]
    exact h.stale

/-- The loop stops at the first counter that is not below the length. -/
theorem Pool.Built.loop {initLen : Nat} (size : Nat) {m : Nat} :
    ∀ {k : Nat} {s : Pool} (fuel : Nat), s.Built k →
      (∀ j, k ≤ j → j < k + m → asSize (asInt (1 + j)) < initLen) →
      ¬ asSize (asInt (1 + (k + m : Nat))) < initLen → m < fuel →
      ∃ s', Pool.buildLoop initLen size fuel (asInt (1 + k)) k s = some s' ∧ s'.Built (k + m) := by
  induction m with
  | zero =>
    intro k s fuel h _ hend hfuel
    obtain ⟨fuel, rfl⟩ := Nat.exists_eq_succ_of_ne_zero (Nat.ne_of_gt hfuel)
    refine ⟨s, ?_, h⟩
    unfold Pool.buildLoop
    exact if_neg hend
  | succ m ih =>
    intro k s fuel h hgo hend hfuel
    obtain ⟨fuel, rfl⟩ := Nat.exists_eq_succ_of_ne_zero (Nat.ne_of_gt (Nat.zero_lt_of_lt hfuel))
    obtain ⟨s₁, hround, h₁⟩ := h.round size fuel (hgo k (Nat.le_refl k) (by omega))
    have hcounter : asInt (asInt (1 + (k : Int)) + 1) = asInt (1 + ((k + 1 : Nat) : Int)) := by
      unfold asInt
      omega
    have hsum : k + 1 + m = k + (m + 1) := by omega
    obtain ⟨s', hloop, h'⟩ := ih fuel h₁ (fun j hj hlt => hgo j (by omega) (by omega))
      (by rw [hsum]; exact hend) (by omega)
    rw [hround, hcounter]
    exact ⟨s', hloop, by rw [← hsum]; exact h'⟩

/-- A constructor of any length returns, and it makes `initLen` blocks exactly
when the counter does not pass the greatest `int`. -/
theorem newPool_built {initLen : Nat} (size : Nat) (h1 : 1 ≤ initLen)
    (hlen : initLen < 18446744073709551616) :
    ∃ k s, newPool initLen size = some s ∧ s.Built k ∧ (k + 1 = initLen ↔ initLen ≤ 2147483648) := by
  have hstop : ∃ k : Nat, k < 4294967296 ∧ ¬ asSize (asInt (1 + (k : Int))) < initLen := by
    refine ⟨4294967294, by decide, ?_⟩
    have hlast : asSize (asInt (1 + ((4294967294 : Nat) : Int))) = 18446744073709551615 := by decide
    rw [hlast]
    omega
  obtain ⟨hfuel, hend⟩ := Nat.find_spec hstop
  have hgo : ∀ j, j < Nat.find hstop → asSize (asInt (1 + (j : Int))) < initLen := by
    intro j hj
    by_contra hnot
    exact Nat.find_min hstop hj ⟨Nat.lt_trans hj hfuel, hnot⟩
  generalize Nat.find hstop = k at hfuel hend hgo
  -- the first block is made before the loop
  have hfirst : Pool.Built
      { blocks := Function.update (fun _ => none) 0 (some (newBlock size)), brk := 1, len := initLen,
        head := some 0, destroyed := [], stale := [] } 0 := by
    refine ⟨rfl, ⟨rfl, none, rfl, rfl⟩, ?_, rfl, rfl⟩
    intro a
    by_cases ha : a = 0
    · simp [ha]
    · simp [ha]
  obtain ⟨s, hloop, hs⟩ := hfirst.loop (m := k) size 4294967296
    (fun j _ hj => hgo j (by omega)) (by rw [Nat.zero_add]; exact hend) hfuel
  rw [Nat.zero_add] at hs
  refine ⟨k, s, hloop, hs, ?_⟩
  constructor
  · intro heq
    by_contra hbig
    -- the counter has wrapped by then, and is taken for a huge length
    have hwrap := hgo 2147483647 (by omega)
    have hmin : asSize (asInt (1 + ((2147483647 : Nat) : Int))) = 18446744071562067968 := by decide
    omega
  · intro hsmall
    have hval : ∀ j : Nat, j < 2147483647 → asSize (asInt (1 + (j : Int))) = 1 + j := by
      intro j hj
      rw [asInt_of_small (by omega) (by omega), asSize_of_nonneg (by omega) (by omega)]
      omega
    apply Nat.le_antisymm
    · by_contra hlt
      by_cases hk : initLen - 1 < 2147483647
      · have := hgo (initLen - 1) (by omega)
        rw [hval _ hk] at this
        omega
      · have := hgo 2147483647 (by omega)
        have hmin : asSize (asInt (1 + ((2147483647 : Nat) : Int))) = 18446744071562067968 := by decide
        omega
    · by_contra hlt
      rw [hval k (by omega)] at hend
      omega

/-! ## §4. The invariant. -/

/-- The free list of a state between two calls, beside what is held. -/
structure PoolState.Sound (s : PoolState) (free : List Addr) : Prop where
  chain : s.pool.FreeList free
  nodup : (free ++ s.out).Nodup
  mem : ∀ a, a ∈ free ++ s.out ↔ a < s.pool.brk
  cells : ∀ a, (s.pool.blocks a).isSome ↔ a < s.pool.brk
  destroyed : s.pool.destroyed = []
  stale : s.pool.stale = []

/-- A fresh pool: everything is free. -/
theorem Pool.Built.sound {k : Nat} (h : s.Built k) :
    PoolState.Sound ⟨s, []⟩ (List.range (k + 1)) where
  chain := h.free
  nodup := by
    rw [List.append_nil]
    exact List.nodup_range
  mem := by
    intro a
    rw [List.append_nil, List.mem_range, h.brk]
  cells := by
    intro a
    rw [h.cells, h.brk]
  destroyed := h.destroyed
  stale := h.stale

variable {t t' : PoolState}

/-- `get_block` takes the first free block. -/
theorem PoolState.Sound.get (h : t.Sound (a :: free)) :
    ∃ t', t.step .get = some (some a, t') ∧ t'.Sound free ∧ t'.out = a :: t.out
      ∧ t'.pool.brk = t.pool.brk := by
  obtain ⟨hhead, q, hq, hrest⟩ := h.chain
  have hread : t.pool.readNext a = some (q, t.pool) := by
    apply Pool.readNext_eq hq
    rw [h.destroyed]
    exact List.not_mem_nil
  have hperm : (free ++ a :: t.out).Perm (a :: free ++ t.out) := List.perm_middle
  refine ⟨⟨{ t.pool with head := q }, a :: t.out⟩, ?_, ?_, rfl, rfl⟩
  · show t.pool.getBlock.bind _ = _
    unfold Pool.getBlock
    simp only [hhead, Option.bind_eq_bind, Option.bind_some, hread]
    rfl
  · refine ⟨hrest, hperm.nodup_iff.mpr h.nodup, ?_, h.cells, h.destroyed, h.stale⟩
    intro b
    rw [hperm.mem_iff]
    exact h.mem b

/-- With nothing free, `get_block` reads through a null head. -/
theorem PoolState.Sound.get_none (h : t.Sound []) : t.step .get = none := by
  have hhead : t.pool.head = none := h.chain
  show t.pool.getBlock.bind _ = none
  unfold Pool.getBlock
  rw [hhead]
  rfl

/-- `free_block` puts a block that was held in front. -/
theorem PoolState.Sound.giveBack (h : t.Sound free) (hb : b ∈ t.out) :
    ∃ t', t.step (.free b) = some (none, t') ∧ t'.Sound (b :: free) ∧ t'.out = t.out.erase b
      ∧ t'.pool.brk = t.pool.brk := by
  have hcell : (t.pool.blocks b).isSome :=
    (h.cells b).mpr ((h.mem b).mp (List.mem_append_right free hb))
  obtain ⟨s', hw, hnext, hsome, hbrk, hhead, hd, hst⟩ := Pool.writeNext_eq hcell t.pool.head
  -- a block that is held is not free, so the free list is as it was behind it
  have hnot : b ∉ free := fun hfree => (List.nodup_append.mp h.nodup).2.2 b hfree b hb rfl
  have hperm : (b :: free ++ t.out.erase b).Perm (free ++ t.out) := by
    have hout : t.out.Perm (b :: t.out.erase b) := List.perm_cons_erase hb
    exact List.perm_middle.symm.trans (hout.symm.append_left free)
  refine ⟨⟨{ s' with head := some b }, t.out.erase b⟩, ?_, ⟨?_, ?_, ?_, ?_, ?_, ?_⟩, rfl, hbrk⟩
  · show (t.pool.freeBlock b).bind _ = _
    unfold Pool.freeBlock
    rw [hw]
    rfl
  · have hchain : Chain t.pool.next t.pool.head free := h.chain
    show Chain s'.next (some b) (b :: free)
    apply hchain.push
    · rw [hnext, Function.update_self]
    · intro c hc
      rw [hnext, Function.update_of_ne (fun hcb => hnot (by rw [← hcb]; exact hc))]
  · exact hperm.nodup_iff.mpr h.nodup
  · intro c
    rw [hperm.mem_iff]
    show c ∈ free ++ t.out ↔ c < s'.brk
    rw [hbrk]
    exact h.mem c
  · intro c
    show (s'.blocks c).isSome ↔ c < s'.brk
    rw [hsome, hbrk]
    exact h.cells c
  · show s'.destroyed = []
    rw [hd]
    exact h.destroyed
  · show s'.stale = []
    rw [hst]
    exact h.stale

/-- What a step of an honest client preserves. -/
theorem PoolState.Sound.step {o : Option Addr} {x : PoolStep} (h : t.Sound free)
    (hown : t.Owned x) (hx : t.step x = some (o, t')) :
    (∃ free', t'.Sound free') ∧ t'.pool.brk = t.pool.brk := by
  cases x with
  | get =>
    cases free with
    | nil =>
      rw [h.get_none] at hx
      cases hx
    | cons a free =>
      obtain ⟨t₁, ht₁, hs₁, -, hbrk⟩ := h.get
      rw [ht₁] at hx
      cases hx
      exact ⟨⟨free, hs₁⟩, hbrk⟩
  | free b =>
    obtain ⟨t₁, ht₁, hs₁, -, hbrk⟩ := h.giveBack hown
    rw [ht₁] at hx
    cases hx
    exact ⟨⟨b :: free, hs₁⟩, hbrk⟩

/-- What a run of honest clients preserves. -/
theorem PoolState.Sound.run {steps : List PoolStep} {outs : List (Option Addr)}
    (h : t.Sound free) (hown : Run.Along PoolState.step PoolState.Owned t steps)
    (hrun : Run.run PoolState.step t steps = some (outs, t')) :
    (∃ free', t'.Sound free') ∧ t'.pool.brk = t.pool.brk := by
  refine Run.run_inv_along PoolState.step
    (I := fun t' => (∃ free', t'.Sound free') ∧ t'.pool.brk = t.pool.brk) (G := PoolState.Owned)
    ?_ ⟨⟨free, h⟩, rfl⟩ hown hrun
  rintro u x o u' ⟨⟨free₁, hu⟩, hbrk⟩ hx hstep
  obtain ⟨hs, hsame⟩ := hu.step hx hstep
  exact ⟨hs, by rw [hsame, hbrk]⟩

theorem PoolState.Sound.partitions (h : t.Sound free) {n : Nat} (hn : t.pool.brk = n) :
    t.Partitions n := by
  refine ⟨free, h.chain, h.nodup, ?_⟩
  rw [← hn]
  exact h.mem

/-- A partition of `n` blocks tells how many were made. -/
theorem PoolState.Sound.brk_of_partitions (h : t.Sound free) {n : Nat} (hn : t.Partitions n) :
    t.pool.brk = n := by
  obtain ⟨free', hfree', -, hmem⟩ := hn
  -- the pool has one free list only
  have hchain : Chain t.pool.next t.pool.head free := h.chain
  rw [hchain.unique hfree'] at h
  have hsame : ∀ a, a < t.pool.brk ↔ a < n := fun a => (h.mem a).symm.trans (hmem a)
  have hle := (hsame n).not.mpr (Nat.lt_irrefl n)
  have hge := (hsame t.pool.brk).not.mp (Nat.lt_irrefl t.pool.brk)
  omega

/-- There are as many blocks as were made. -/
theorem PoolState.Sound.length (h : t.Sound free) : free.length + t.out.length = t.pool.brk := by
  have hperm : (free ++ t.out).Perm (List.range t.pool.brk) := by
    rw [List.perm_ext_iff_of_nodup h.nodup List.nodup_range]
    intro a
    rw [h.mem, List.mem_range]
  rw [← List.length_append, hperm.length_eq, List.length_range]

/-- `get_block` returns a free block exactly when there is one. -/
theorem PoolState.Sound.getMeets_iff (h : t.Sound free) {n : Nat} (hn : t.pool.brk = n) :
    t.GetMeets n ↔ t.out.length < n := by
  have hlen := h.length
  cases free with
  | nil =>
    -- all blocks are held, and `get_block` is stuck
    constructor
    · rintro ⟨ret, t', hget, -⟩
      rw [h.get_none] at hget
      cases hget
    · intro hlt
      rw [List.length_nil] at hlen
      omega
  | cons a free =>
    obtain ⟨t', hget, -⟩ := h.get
    constructor
    · intro _
      rw [List.length_cons] at hlen
      omega
    · intro _
      refine ⟨some a, t', hget, ?_, fun hnone => absurd hnone (by simp)⟩
      rintro b hb
      obtain rfl := Option.some.inj hb
      intro hheld
      exact (List.nodup_append.mp h.nodup).2.2 a List.mem_cons_self a hheld rfl

theorem PoolState.Sound.meets_iff (h : t.Sound free) {n : Nat} (hn : t.pool.brk = n)
    (x : PoolStep) : t.Meets n x ↔ t.HasFree n x := by
  constructor
  · rintro ⟨-, hget⟩ hx
    exact (h.getMeets_iff hn).mp (hget hx)
  · intro hfree
    exact ⟨h.partitions hn, fun hx => (h.getMeets_iff hn).mpr (hfree hx)⟩

/-! ## §5. Runs. -/

/-- A pool of any length, whatever is taken and given back in it: the free
list and the held blocks are the `initLen` blocks, and `get_block` gives a
block that nobody holds, exactly when the length does not pass the counter of
the constructor and no block is asked for when all are held. -/
theorem pool_meets_iff {initLen size : Nat} {pool : Pool} {steps : List PoolStep}
    (h1 : 1 ≤ initLen) (hlen : initLen < 18446744073709551616)
    (hnew : newPool initLen size = some pool)
    (hown : Run.Along PoolState.step PoolState.Owned ⟨pool, []⟩ steps) :
    PoolState.RunMeets initLen ⟨pool, []⟩ steps
      ↔ initLen ≤ 2147483648
        ∧ Run.Along PoolState.step (PoolState.HasFree initLen) ⟨pool, []⟩ steps := by
  obtain ⟨k, s, hs, hbuilt, hcount⟩ := newPool_built size h1 hlen
  obtain rfl : s = pool := Option.some.inj (hs.symm.trans hnew)
  have hsound := hbuilt.sound
  -- the state the run starts in tells how many blocks were made
  have hstart : PoolState.RunMeets initLen ⟨s, []⟩ steps → initLen ≤ 2147483648 := by
    intro hmeets
    have hpart : PoolState.Partitions initLen ⟨s, []⟩ := by
      cases steps with
      | nil => exact hmeets.2 [] _ rfl
      | cons x steps => exact hmeets.1.1.1
    apply hcount.mp
    rw [← hbuilt.brk]
    exact hsound.brk_of_partitions hpart
  have hbrk : initLen ≤ 2147483648 → s.brk = initLen := by
    intro hsmall
    rw [← hcount.mpr hsmall]
    exact hbuilt.brk
  -- with all of them made, each step goes as it should when a block is free
  have hiff : initLen ≤ 2147483648 →
      (Run.Along PoolState.step (PoolState.Meets initLen) ⟨s, []⟩ steps
        ↔ Run.Along PoolState.step (PoolState.HasFree initLen) ⟨s, []⟩ steps) := by
    intro hsmall
    refine Run.along_iff PoolState.step (I := fun t => (∃ free, t.Sound free) ∧ t.pool.brk = initLen)
      (V := PoolState.Owned) ?_ ?_ ⟨⟨_, hsound⟩, hbrk hsmall⟩ hown
    · rintro t x ⟨⟨free, ht⟩, hn⟩ -
      exact ht.meets_iff hn x
    · rintro t x o t' ⟨⟨free, ht⟩, hn⟩ hx - hstep
      obtain ⟨hs', hsame⟩ := ht.step hx hstep
      exact ⟨hs', by rw [hsame, hn]⟩
  constructor
  · intro hmeets
    have hsmall := hstart hmeets
    exact ⟨hsmall, (hiff hsmall).mp hmeets.1⟩
  · rintro ⟨hsmall, hfree⟩
    refine ⟨(hiff hsmall).mpr hfree, ?_⟩
    intro os t hrun
    obtain ⟨⟨free, ht⟩, hsame⟩ := hsound.run hown hrun
    exact ht.partitions (by rw [hsame, ← hbrk hsmall])

/-- Two blocks: both are taken, one is given back and taken again. -/
theorem pool_meets_iff_two :
    ∃ pool, newPool 2 4 = some pool
      ∧ (PoolState.RunMeets 2 ⟨pool, []⟩ [.get, .get, .free 0, .get]
        ↔ 2 ≤ 2147483648
          ∧ Run.Along PoolState.step (PoolState.HasFree 2) ⟨pool, []⟩ [.get, .get, .free 0, .get]) := by
  have hown : Run.Along PoolState.step PoolState.Owned ⟨(newPool 2 4).get (by decide), []⟩
      [.get, .get, .free 0, .get] := by decide
  exact ⟨_, (Option.some_get (by decide)).symm,
    pool_meets_iff (by decide) (by decide) (Option.some_get (by decide)).symm hown⟩

/-- The second block asked for of a pool of one is looked for behind a null
head. -/
theorem get_of_empty_pool :
    ∃ pool, newPool 1 4 = some pool
      ∧ Run.Along PoolState.step PoolState.Owned ⟨pool, []⟩ [.get, .get]
      ∧ (Run.run PoolState.step ⟨pool, []⟩ [.get]).map (fun q => (q.1, q.2.out, q.2.pool.head))
          = some ([some 0], [0], none)
      ∧ Run.run PoolState.step ⟨pool, []⟩ [.get, .get] = none
      ∧ ¬ PoolState.RunMeets 1 ⟨pool, []⟩ [.get, .get] := by
  have hrun : (Run.run PoolState.step ⟨(newPool 1 4).get (by decide), []⟩ [.get]).map
      (fun q => (q.1, q.2.out, q.2.pool.head)) = some ([some 0], [0], none) := by decide
  refine ⟨_, (Option.some_get (by decide)).symm, by decide, hrun, by decide, ?_⟩
  rintro ⟨⟨⟨-, hfirst⟩, hsecond⟩, -⟩
  obtain ⟨ret, s, hget, -⟩ := hfirst rfl
  obtain ⟨⟨-, hmeets⟩, -⟩ := hsecond ret s hget
  obtain ⟨ret', s', hget', -⟩ := hmeets rfl
  have hnone : Run.run PoolState.step ⟨(newPool 1 4).get (by decide), []⟩ [.get, .get] = none := by
    decide
  rw [Run.run_cons, hget] at hnone
  rw [Option.bind_some, Run.run_cons, hget'] at hnone
  cases hnone

end LightTable
