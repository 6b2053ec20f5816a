/-
  LightTable.Concurrency.StringSlot
  ─────────────────────────────────
  One lstring under concurrent `value_string` and `_update_string`.

  The locked regions of `_grab_string` and `_update_string`, the decrement of
  `_release_string`, the allocation of a new slot, each use of a slot by a
  callback and each `free` are steps of their own, on the world of
  `LightTable.Table.Def`; the state adds where every thread is.

  Every slot goes through one life: made, installed, replaced, given up by its
  last user, freed (`SlotView.Ok`).  A step moves the slots it touches along
  that life and leaves the view of all others alone.
-/
import LightTable.Table.Reach
import LightTable.Lib.RefCount
import Mathlib.Data.List.Count

namespace LightTable

open RefCount

/-! ## §1. The transition system. -/

/-- Where a thread is. -/
inductive Local where
  /-- between calls -/
  | idle
  /-- in `value_string`, from the grab to the decrement -/
  | holding (s : Addr)
  /-- in `_update_string`, before the lock -/
  | fresh (ns : Addr)
  /-- the count it wrote was zero; the `free` is still to come -/
  | freeing (s : Addr)
  deriving DecidableEq

/-- The slot a thread holds. -/
def Local.held : Local → Option Addr
  | .holding s => some s
  | _ => none

/-- The slot a thread made and has not installed. -/
def Local.made : Local → Option Addr
  | .fresh ns => some ns
  | _ => none

/-- The slot a thread is about to free. -/
def Local.dead : Local → Option Addr
  | .freeing s => some s
  | _ => none

/-- The slot a thread has to do with. -/
def Local.slot : Local → Option Addr
  | .idle => none
  | .holding s => some s
  | .fresh ns => some ns
  | .freeing s => some s

/-- The world, the lstring, the threads, and the slots that were ever
installed in the lstring. -/
structure SlotState where
  w : World
  str : Addr
  threads : List Local
  installed : List Addr

/-- A step of thread `i`. -/
inductive SlotStep where
  | grab (i : Nat)
  | callback (i : Nat)
  | release (i : Nat)
  | alloc (i : Nat) (ustr : Bytes)
  | swap (i : Nat)
  | free (i : Nat)

/-- After its decrement a thread frees the slot if the count it got is zero. -/
def Local.after (s : Addr) (ref : Int) : Local := if ref ≠ 0 then .idle else .freeing s

/-- One step; `none` is a failed assertion or an access to a freed slot. -/
def SlotState.step (s : SlotState) : SlotStep → Option (Unit × SlotState)
  | .grab i => do
      let (a, w) ← s.w.grabString s.str
      return ((), { s with w := w, threads := s.threads.set i (.holding a) })
  | .callback i => do
      let a ← s.threads[i]?.bind Local.held
      let _ ← s.w.slots a
      return ((), s)
  | .release i => do
      let a ← s.threads[i]?.bind Local.held
      let (ref, w) ← s.w.decSlot a
      return ((), { s with w := w, threads := s.threads.set i (Local.after a ref) })
  | .alloc i ustr =>
      let (ns, w) := s.w.newString ustr
      some ((), { s with w := w, threads := s.threads.set i (.fresh ns) })
  | .swap i => do
      let ns ← s.threads[i]?.bind Local.made
      let ((old, ref), w) ← s.w.swapSlot s.str ns
      return ((), { s with
        w := w, threads := s.threads.set i (Local.after old ref), installed := ns :: s.installed })
  | .free i => do
      let a ← s.threads[i]?.bind Local.dead
      let w ← s.w.freeSlot a
      return ((), { s with w := w, threads := s.threads.set i .idle })

/-- The thread is at the point of its program where the step comes next. -/
def SlotState.Ready (s : SlotState) : SlotStep → Prop
  | .grab i => s.threads[i]? = some .idle
  | .callback i => (s.threads[i]?.bind Local.held).isSome
  | .release i => (s.threads[i]?.bind Local.held).isSome
  | .alloc i _ => s.threads[i]? = some .idle
  | .swap i => (s.threads[i]?.bind Local.made).isSome
  | .free i => (s.threads[i]?.bind Local.dead).isSome

instance SlotState.decidableReady (s : SlotState) : ∀ e : SlotStep, Decidable (s.Ready e)
  | .grab _ => inferInstanceAs (Decidable (_ = _))
  | .callback _ => inferInstanceAs (Decidable (_ = _))
  | .release _ => inferInstanceAs (Decidable (_ = _))
  | .alloc _ _ => inferInstanceAs (Decidable (_ = _))
  | .swap _ => inferInstanceAs (Decidable (_ = _))
  | .free _ => inferInstanceAs (Decidable (_ = _))

/-- `set_string` has just built the lstring, and `n` threads know it. -/
def SlotState.start (w : World) (str : Bytes) (n : Nat) : SlotState :=
  { w := w.withString str, str := w.brk, threads := List.replicate n .idle,
    installed := [w.brk + 1] }

/-! ## §2. Counts of the slots. -/

/-- The current slot. -/
def SlotState.cur (s : SlotState) : Option Addr := (s.w.lstrings s.str).map LString.slot

/-- The holders of a slot, plus one if it is the current slot. -/
def SlotState.refs (s : SlotState) (a : Addr) : Nat :=
  holders Local.held s.threads a + if s.cur = some a then 1 else 0

/-- The counts are right, what is held is there, and slots are freed at zero,
once, and all of them. -/
structure SlotState.Safe (s : SlotState) : Prop where
  count : ∀ a ∈ s.installed, ∀ sl, s.w.slots a = some sl → sl.ref = s.refs a
  held : ∀ a, Local.holding a ∈ s.threads → (s.w.slots a).isSome ∧ a ∉ s.w.freed
  dead : ∀ a, Local.freeing a ∈ s.threads → s.refs a = 0 ∧ a ∉ s.w.freed
  freed : ∀ a ∈ s.installed, a ∈ s.w.freed → s.refs a = 0
  once : ∀ a ∈ s.installed, s.w.freed.count a ≤ 1
  all : (∀ x ∈ s.threads, x = .idle) → ∀ a ∈ s.installed, s.cur ≠ some a → a ∈ s.w.freed

/-- What was freed had been allocated. -/
def World.Spent (w : World) : Prop := ∀ a ∈ w.freed, a < w.brk

/-! ## §3. The life of a slot. -/

/-- All that is known of one address: the count field of the slot there, the
threads that hold it, made it or are about to free it, whether it is current,
and how often it was installed and freed. -/
@[ext] structure SlotView where
  ref : Option Int
  held : Nat
  made : Nat
  dead : Nat
  current : Nat
  installed : Nat
  frees : Nat

/-- The view of the address `a`. -/
def SlotState.view (s : SlotState) (a : Addr) : SlotView where
  ref := (s.w.slots a).map StringSlot.ref
  held := holders Local.held s.threads a
  made := holders Local.made s.threads a
  dead := holders Local.dead s.threads a
  current := if s.cur = some a then 1 else 0
  installed := s.installed.count a
  frees := s.w.freed.count a

/-- The stages of a slot's life. -/
inductive SlotView.Ok : SlotView → Prop
  /-- not a slot of this lstring -/
  | other (r : Option Int) (f : Nat) : Ok ⟨r, 0, 0, 0, 0, 0, f⟩
  /-- made by `new_string`, not installed yet -/
  | made : Ok ⟨some 1, 0, 1, 0, 0, 0, 0⟩
  /-- installed and in use, by `h` holders and `c` lstrings -/
  | live (h c : Nat) : 0 < h + c → Ok ⟨some ((h + c : Nat) : Int), h, 0, 0, c, 1, 0⟩
  /-- given up by the last user -/
  | dying : Ok ⟨some 0, 0, 0, 1, 0, 1, 0⟩
  /-- freed -/
  | gone : Ok ⟨none, 0, 0, 0, 0, 1, 1⟩

namespace SlotView

variable {v : SlotView}

/-- A slot in use: its count is its users. -/
theorem Ok.used (h : v.Ok) (hu : 0 < v.held + v.current) :
    v.ref = some ((v.held + v.current : Nat) : Int) ∧ v.made = 0 ∧ v.dead = 0
      ∧ v.installed = 1 ∧ v.frees = 0 := by
  cases h with
  | live h c hpos => exact ⟨rfl, rfl, rfl, rfl, rfl⟩
  | other r f => exact absurd hu (Nat.lt_irrefl 0)
  | made => exact absurd hu (Nat.lt_irrefl 0)
  | dying => exact absurd hu (Nat.lt_irrefl 0)
  | gone => exact absurd hu (Nat.lt_irrefl 0)

theorem Ok.of_made (h : v.Ok) (hu : 0 < v.made) : v = ⟨some 1, 0, 1, 0, 0, 0, 0⟩ := by
  cases h with
  | made => rfl
  | other r f => exact absurd hu (Nat.lt_irrefl 0)
  | live h c hpos => exact absurd hu (Nat.lt_irrefl 0)
  | dying => exact absurd hu (Nat.lt_irrefl 0)
  | gone => exact absurd hu (Nat.lt_irrefl 0)

theorem Ok.of_dead (h : v.Ok) (hu : 0 < v.dead) : v = ⟨some 0, 0, 0, 1, 0, 1, 0⟩ := by
  cases h with
  | dying => rfl
  | other r f => exact absurd hu (Nat.lt_irrefl 0)
  | made => exact absurd hu (Nat.lt_irrefl 0)
  | live h c hpos => exact absurd hu (Nat.lt_irrefl 0)
  | gone => exact absurd hu (Nat.lt_irrefl 0)

/-- An installed slot that is there carries the number of its users. -/
theorem Ok.count (h : v.Ok) (hi : 0 < v.installed) {r : Int} (hr : v.ref = some r) :
    r = ((v.held + v.current : Nat) : Int) := by
  cases h with
  | live h c hpos => exact (Option.some.inj hr).symm
  | dying => exact (Option.some.inj hr).symm
  | gone => exact absurd hr (by simp)
  | other r f => exact absurd hi (Nat.lt_irrefl 0)
  | made => exact absurd hi (Nat.lt_irrefl 0)

/-- An installed slot is freed at most once, and not while it has users. -/
theorem Ok.frees (h : v.Ok) (hi : 0 < v.installed) :
    v.frees ≤ 1 ∧ (0 < v.frees → v.held + v.current = 0) := by
  cases h with
  | live h c hpos => exact ⟨Nat.zero_le 1, fun hf => absurd hf (Nat.lt_irrefl 0)⟩
  | dying => exact ⟨Nat.zero_le 1, fun _ => rfl⟩
  | gone => exact ⟨Nat.le_refl 1, fun _ => rfl⟩
  | other r f => exact absurd hi (Nat.lt_irrefl 0)
  | made => exact absurd hi (Nat.lt_irrefl 0)

/-- An installed slot that nobody uses or is about to free was freed. -/
theorem Ok.all (h : v.Ok) (hi : 0 < v.installed) (hu : v.held + v.current = 0)
    (hd : v.dead = 0) : 0 < v.frees := by
  cases h with
  | live h c hpos => exact absurd hu (Nat.ne_of_gt hpos)
  | dying => exact absurd hd (by decide)
  | gone => exact Nat.one_pos
  | other r f => exact absurd hi (Nat.lt_irrefl 0)
  | made => exact absurd hi (Nat.lt_irrefl 0)

/-- An installed slot whose count is its users; at zero some thread has it to
free. -/
theorem Ok.of_count (href : v.ref = some ((v.held + v.current : Nat) : Int))
    (hmade : v.made = 0) (hdead : v.dead = if v.held + v.current = 0 then 1 else 0)
    (hinst : v.installed = 1) (hfrees : v.frees = 0) : v.Ok := by
  obtain ⟨ref, held, made, dead, current, installed, frees⟩ := v
  simp only at href hmade hdead hinst hfrees
  rw [href, hmade, hdead, hinst, hfrees]
  by_cases hz : held + current = 0
  · have hh : held = 0 := by omega
    have hc : current = 0 := by omega
    subst hh hc
    exact .dying
  · rw [if_neg hz]
    exact .live held current (Nat.pos_of_ne_zero hz)

end SlotView

/-! ## §4. One step. -/

@[simp] theorem Local.held_holding (a : Addr) : (Local.holding a).held = some a := rfl
@[simp] theorem Local.held_idle : Local.idle.held = none := rfl
@[simp] theorem Local.held_fresh (a : Addr) : (Local.fresh a).held = none := rfl
@[simp] theorem Local.held_freeing (a : Addr) : (Local.freeing a).held = none := rfl
@[simp] theorem Local.made_holding (a : Addr) : (Local.holding a).made = none := rfl
@[simp] theorem Local.made_idle : Local.idle.made = none := rfl
@[simp] theorem Local.made_fresh (a : Addr) : (Local.fresh a).made = some a := rfl
@[simp] theorem Local.made_freeing (a : Addr) : (Local.freeing a).made = none := rfl
@[simp] theorem Local.dead_holding (a : Addr) : (Local.holding a).dead = none := rfl
@[simp] theorem Local.dead_idle : Local.idle.dead = none := rfl
@[simp] theorem Local.dead_fresh (a : Addr) : (Local.fresh a).dead = none := rfl
@[simp] theorem Local.dead_freeing (a : Addr) : (Local.freeing a).dead = some a := rfl

@[simp] theorem Local.held_after (a : Addr) (r : Int) : (Local.after a r).held = none := by
  unfold Local.after
  split <;> rfl

@[simp] theorem Local.made_after (a : Addr) (r : Int) : (Local.after a r).made = none := by
  unfold Local.after
  split <;> rfl

/-- Only a count of zero makes a thread free the slot. -/
theorem Local.dead_after (a b : Addr) (r : Int) :
    (Local.after a r).dead = some b ↔ r = 0 ∧ a = b := by
  unfold Local.after
  by_cases hr : r = 0 <;> simp [hr]

theorem Local.of_held {x : Option Local} (h : (x.bind Local.held).isSome) :
    ∃ a, x = some (.holding a) := by
  cases x with
  | none => exact absurd h (by simp)
  | some l =>
    cases l with
    | holding a => exact ⟨a, rfl⟩
    | idle => exact absurd h (by simp)
    | fresh a => exact absurd h (by simp)
    | freeing a => exact absurd h (by simp)

theorem Local.of_made {x : Option Local} (h : (x.bind Local.made).isSome) :
    ∃ a, x = some (.fresh a) := by
  cases x with
  | none => exact absurd h (by simp)
  | some l =>
    cases l with
    | fresh a => exact ⟨a, rfl⟩
    | idle => exact absurd h (by simp)
    | holding a => exact absurd h (by simp)
    | freeing a => exact absurd h (by simp)

theorem Local.of_dead {x : Option Local} (h : (x.bind Local.dead).isSome) :
    ∃ a, x = some (.freeing a) := by
  cases x with
  | none => exact absurd h (by simp)
  | some l =>
    cases l with
    | freeing a => exact ⟨a, rfl⟩
    | idle => exact absurd h (by simp)
    | holding a => exact absurd h (by simp)
    | fresh a => exact absurd h (by simp)

/-- Every slot is at some stage of its life, addresses not handed out are
nobody's, and the lstring is there. -/
structure SlotState.Kept (s : SlotState) : Prop where
  ok : ∀ a, (s.view a).Ok
  above : ∀ a, s.w.brk ≤ a → ∃ r, s.view a = ⟨r, 0, 0, 0, 0, 0, 0⟩
  cur : ∃ c, s.w.lstrings s.str = some ⟨c⟩

/-- The invariant: and the threads are few enough for a 32-bit count. -/
structure SlotState.Inv (s : SlotState) : Prop extends SlotState.Kept s where
  room : s.threads.length ≤ 2147483646

variable {s s' : SlotState}

/-- A slot that has to do with the lstring was handed out. -/
theorem SlotState.Kept.lt_brk (h : s.Kept) {a : Addr}
    (ha : 0 < (s.view a).held + (s.view a).made + (s.view a).dead + (s.view a).current
      + (s.view a).installed) : a < s.w.brk := by
  by_contra hge
  obtain ⟨r, hr⟩ := h.above a (Nat.le_of_not_lt hge)
  rw [hr] at ha
  exact absurd ha (Nat.lt_irrefl 0)

/-- A step that moves the slots it touches along their lives keeps the
invariant. -/
theorem SlotState.Kept.moved (h : s.Kept) (hbrk : s.w.brk ≤ s'.w.brk)
    (hview : ∀ a, ((s'.view a).Ok ∧ a < s'.w.brk) ∨ s'.view a = s.view a)
    (hcur : ∃ c, s'.w.lstrings s'.str = some ⟨c⟩) : s'.Kept where
  ok := by
    intro a
    rcases hview a with ⟨hok, -⟩ | heq
    · exact hok
    · rw [heq]
      exact h.ok a
  above := by
    intro a ha
    rcases hview a with ⟨-, hlt⟩ | heq
    · exact absurd hlt (Nat.not_lt.mpr ha)
    · rw [heq]
      exact h.above a (Nat.le_trans hbrk ha)
  cur := hcur

variable (s') in
/-- What a step of one thread does to the threads' part of a view. -/
theorem SlotState.view_set {i : Nat} {x y : Local} (hi : s.threads[i]? = some x)
    (hthreads : s'.threads = s.threads.set i y) (b : Addr) :
    (s'.view b).held + (if x.held = some b then 1 else 0)
        = (s.view b).held + (if y.held = some b then 1 else 0)
      ∧ (s'.view b).made + (if x.made = some b then 1 else 0)
        = (s.view b).made + (if y.made = some b then 1 else 0)
      ∧ (s'.view b).dead + (if x.dead = some b then 1 else 0)
        = (s.view b).dead + (if y.dead = some b then 1 else 0) := by
  unfold SlotState.view
  rw [hthreads]
  exact ⟨holders_set Local.held hi y b, holders_set Local.made hi y b,
    holders_set Local.dead hi y b⟩

theorem Local.ne_of_slot {x : Local} {b : Addr} (h : x.slot ≠ some b) :
    x.held ≠ some b ∧ x.made ≠ some b ∧ x.dead ≠ some b := by
  cases x with
  | idle => exact ⟨by simp, by simp, by simp⟩
  | holding a => exact ⟨h, by simp, by simp⟩
  | fresh a => exact ⟨by simp, h, by simp⟩
  | freeing a => exact ⟨by simp, by simp, h⟩

/-- A step leaves the view of every slot alone that it has nothing to do with. -/
theorem SlotState.view_other {i : Nat} {x y : Local} (hi : s.threads[i]? = some x)
    (hthreads : s'.threads = s.threads.set i y) {b : Addr}
    (hx : x.slot ≠ some b) (hy : y.slot ≠ some b) (hslot : s'.w.slots b = s.w.slots b)
    (hcur : (s'.view b).current = (s.view b).current)
    (hinst : (s'.view b).installed = (s.view b).installed)
    (hfrees : (s'.view b).frees = (s.view b).frees) : s'.view b = s.view b := by
  obtain ⟨hh, hm, hd⟩ := SlotState.view_set s' hi hthreads b
  obtain ⟨hx₁, hx₂, hx₃⟩ := Local.ne_of_slot hx
  obtain ⟨hy₁, hy₂, hy₃⟩ := Local.ne_of_slot hy
  rw [if_neg hx₁, if_neg hy₁] at hh
  rw [if_neg hx₂, if_neg hy₂] at hm
  rw [if_neg hx₃, if_neg hy₃] at hd
  apply SlotView.ext
  · show (s'.w.slots b).map StringSlot.ref = (s.w.slots b).map StringSlot.ref
    rw [hslot]
  · exact hh
  · exact hm
  · exact hd
  · exact hcur
  · exact hinst
  · exact hfrees

theorem SlotState.cur_eq {c : Addr} (hc : s.w.lstrings s.str = some ⟨c⟩) : s.cur = some c := by
  unfold SlotState.cur
  rw [hc]
  rfl

theorem SlotState.view_current {c : Addr} (hc : s.w.lstrings s.str = some ⟨c⟩) (a : Addr) :
    (s.view a).current = if c = a then 1 else 0 := by
  show (if s.cur = some a then 1 else 0) = _
  rw [SlotState.cur_eq hc]
  simp only [Option.some.injEq]

/-- A thread that holds nothing leaves fewer holders than threads. -/
theorem SlotState.held_lt {i : Nat} {x : Local} (hi : s.threads[i]? = some x)
    (hx : x.held = none) (a : Addr) : (s.view a).held < s.threads.length := by
  have hset := holders_set Local.held hi (.holding a) a
  have hle := holders_le_length Local.held (s.threads.set i (.holding a)) a
  rw [List.length_set] at hle
  rw [hx, if_neg (by simp), Local.held_holding, if_pos rfl] at hset
  show holders Local.held s.threads a < _
  omega

theorem SlotState.held_le (s : SlotState) (a : Addr) : (s.view a).held ≤ s.threads.length :=
  holders_le_length Local.held s.threads a

theorem SlotState.held_pos {i : Nat} {a : Addr} (hi : s.threads[i]? = some (.holding a)) :
    0 < (s.view a).held :=
  holders_pos Local.held (List.mem_of_getElem? hi) rfl

/-- A slot in use is there, with the number of its users in its count field. -/
theorem SlotState.Kept.slot (h : s.Kept) {a : Addr}
    (hu : 0 < (s.view a).held + (s.view a).current) :
    ∃ sl, s.w.slots a = some sl ∧ sl.ref = (s.view a).held + (s.view a).current := by
  have href := ((h.ok a).used hu).1
  obtain ⟨sl, hsl, hr⟩ := Option.map_eq_some_iff.mp href
  exact ⟨sl, hsl, by rw [hr]; exact Nat.cast_add ..⟩

/-- `_grab_string`: the assertion holds, and the current slot gains a holder. -/
theorem SlotState.Kept.grab (h : s.Kept) {i : Nat} (hi : s.threads[i]? = some .idle)
    (hroom : ∀ a, (s.view a).held < 2147483646) :
    ∃ s', s.step (.grab i) = some ((), s') ∧ s'.Kept ∧ s'.threads.length = s.threads.length := by
  obtain ⟨c, hc⟩ := h.cur
  have hone : (s.view c).current = 1 := by
    rw [SlotState.view_current hc, if_pos rfl]
  -- the current slot is there, and its count has room
  obtain ⟨sl, hsl, href⟩ := h.slot (a := c) (by omega)
  obtain ⟨-, hmade, hdead, hinst, hfrees⟩ := (h.ok c).used (by omega)
  have hlt := hroom c
  have hasInt : asInt (sl.ref + 1) = sl.ref + 1 := asInt_of_small (by omega) (by omega)
  set s' : SlotState := { s with
    w := s.w.putSlot c { sl with ref := sl.ref + 1 },
    threads := s.threads.set i (.holding c) } with hs'
  have hstep : s.step (.grab i) = some ((), s') := by
    unfold SlotState.step World.grabString
    simp only [hc, hsl, Option.bind_eq_bind, Option.bind_some, hasInt]
    rw [if_pos (by omega)]
    rfl
  refine ⟨s', hstep, h.moved (Nat.le_refl _) ?_ ⟨c, hc⟩, List.length_set ..⟩
  intro b
  by_cases hb : c = b
  · left
    subst hb
    obtain ⟨hh, hm, hd⟩ := SlotState.view_set s' hi rfl c
    simp only [Local.held_idle, Local.held_holding, Local.made_idle, Local.made_holding,
      Local.dead_idle, Local.dead_holding, if_true, if_false, reduceCtorEq] at hh hm hd
    -- it gains a holder, and one in its count
    have hcur' : (s'.view c).current = 1 := hone
    refine ⟨SlotView.Ok.of_count ?_ (by omega) ?_ hinst hfrees, h.lt_brk (by omega)⟩
    · show (Function.update s.w.slots c _ c).map StringSlot.ref = _
      rw [Function.update_self]
      show some (sl.ref + 1) = _
      congr 1
      omega
    · rw [if_neg (by omega)]
      omega
  · right
    have hne : (Local.holding c).slot ≠ some b := fun h => hb (Option.some.inj h)
    exact SlotState.view_other hi rfl (by simp [Local.slot]) hne
      (Function.update_of_ne (Ne.symm hb) ..) rfl rfl rfl

/-- The callback reads a slot that is there. -/
theorem SlotState.Kept.callback (h : s.Kept) {i : Nat}
    (hi : (s.threads[i]?.bind Local.held).isSome) : s.step (.callback i) = some ((), s) := by
  obtain ⟨a, ha⟩ := Local.of_held hi
  have hpos := SlotState.held_pos ha
  obtain ⟨sl, hsl, -⟩ := h.slot (a := a) (by omega)
  unfold SlotState.step
  simp only [ha, hsl, Option.bind_eq_bind, Option.bind_some, Local.held_holding]
  rfl

/-- The decrement of `_release_string`: the slot loses a holder, and the last
one to let go of a replaced slot has to free it. -/
theorem SlotState.Kept.release (h : s.Kept) {i : Nat}
    (hi : (s.threads[i]?.bind Local.held).isSome) (hroom : ∀ a, (s.view a).held ≤ 2147483646) :
    ∃ s', s.step (.release i) = some ((), s') ∧ s'.Kept ∧ s'.threads.length = s.threads.length := by
  obtain ⟨a, ha⟩ := Local.of_held hi
  have hpos := SlotState.held_pos ha
  obtain ⟨sl, hsl, href⟩ := h.slot (a := a) (by omega)
  obtain ⟨-, hmade, hdead, hinst, hfrees⟩ := (h.ok a).used (by omega)
  obtain ⟨c, hc⟩ := h.cur
  have hcur : (s.view a).current ≤ 1 := by
    rw [SlotState.view_current hc]
    split <;> omega
  have hle := hroom a
  have hasInt : asInt (sl.ref - 1) = sl.ref - 1 := asInt_of_small (by omega) (by omega)
  set s' : SlotState := { s with
    w := s.w.putSlot a { sl with ref := sl.ref - 1 },
    threads := s.threads.set i (Local.after a (sl.ref - 1)) } with hs'
  have hstep : s.step (.release i) = some ((), s') := by
    unfold SlotState.step World.decSlot
    simp only [ha, hsl, Option.bind_eq_bind, Option.bind_some, Local.held_holding, hasInt]
    rfl
  refine ⟨s', hstep, h.moved (Nat.le_refl _) ?_ ⟨c, hc⟩, List.length_set ..⟩
  intro b
  by_cases hb : a = b
  · left
    subst hb
    obtain ⟨hh, hm, hd⟩ := SlotState.view_set s' ha rfl a
    simp only [Local.held_after, Local.held_holding, Local.made_after, Local.made_holding,
      Local.dead_after, Local.dead_holding, if_true, if_false, reduceCtorEq, and_true]
      at hh hm hd
    have hcur' : (s'.view a).current = (s.view a).current := rfl
    refine ⟨SlotView.Ok.of_count ?_ (by omega) ?_ hinst hfrees, h.lt_brk (by omega)⟩
    · show (Function.update s.w.slots a _ a).map StringSlot.ref = _
      rw [Function.update_self]
      show some (sl.ref - 1) = _
      congr 1
      omega
    · -- the decrement gave zero exactly when no user is left
      have hzero : sl.ref - 1 = 0 ↔ (s'.view a).held + (s'.view a).current = 0 := by omega
      simp only [hzero] at hd
      omega
  · right
    have hx : (Local.holding a).slot ≠ some b := fun h => hb (Option.some.inj h)
    have hy : (Local.after a (sl.ref - 1)).slot ≠ some b := by
      unfold Local.after
      split
      · simp [Local.slot]
      · exact hx
    exact SlotState.view_other ha rfl hx hy (Function.update_of_ne (Ne.symm hb) ..) rfl rfl rfl

/-- `new_string` in `_update_string`. -/
theorem SlotState.Kept.alloc (h : s.Kept) {i : Nat} (hi : s.threads[i]? = some .idle)
    (ustr : Bytes) : ∃ s', s.step (.alloc i ustr) = some ((), s') ∧ s'.Kept ∧ s'.threads.length = s.threads.length := by
  obtain ⟨c, hc⟩ := h.cur
  set s' : SlotState := { s with
    w := (s.w.newString ustr).2, threads := s.threads.set i (.fresh s.w.brk) } with hs'
  have hstep : s.step (.alloc i ustr) = some ((), s') := rfl
  have hbrk : s'.w.brk = s.w.brk + 1 := rfl
  refine ⟨s', hstep, h.moved (Nat.le_succ _) ?_ ⟨c, hc⟩, List.length_set ..⟩
  intro b
  by_cases hb : s.w.brk = b
  · left
    subst hb
    -- nothing was known of an address that is not handed out yet
    obtain ⟨r, hr⟩ := h.above s.w.brk (Nat.le_refl _)
    obtain ⟨hh, hm, hd⟩ := SlotState.view_set s' hi rfl s.w.brk
    rw [hr] at hh hm hd
    have hnew : s'.view s.w.brk = ⟨some 1, 0, 1, 0, 0, 0, 0⟩ := by
      apply SlotView.ext
      · show (Function.update s.w.slots s.w.brk _ s.w.brk).map StringSlot.ref = _
        rw [Function.update_self]
        rfl
      · simpa using hh
      · simpa using hm
      · simpa using hd
      · show (s.view s.w.brk).current = 0
        rw [hr]
      · show (s.view s.w.brk).installed = 0
        rw [hr]
      · show (s.view s.w.brk).frees = 0
        rw [hr]
    rw [hnew]
    exact ⟨.made, Nat.lt_succ_self _⟩
  · right
    have hne : (Local.fresh s.w.brk).slot ≠ some b := fun h => hb (Option.some.inj h)
    exact SlotState.view_other hi rfl (by simp [Local.slot]) hne
      (Function.update_of_ne (Ne.symm hb) ..) rfl rfl rfl

/-- The locked region of `_update_string`: the new slot becomes current, and
the old one loses the lstring as a user. -/
theorem SlotState.Kept.swap (h : s.Kept) {i : Nat} (hi : (s.threads[i]?.bind Local.made).isSome)
    (hroom : ∀ a, (s.view a).held ≤ 2147483646) :
    ∃ s', s.step (.swap i) = some ((), s') ∧ s'.Kept ∧ s'.threads.length = s.threads.length := by
  obtain ⟨ns, hns⟩ := Local.of_made hi
  obtain ⟨c, hc⟩ := h.cur
  have hone : (s.view c).current = 1 := by
    rw [SlotState.view_current hc, if_pos rfl]
  obtain ⟨sl, hsl, href⟩ := h.slot (a := c) (by omega)
  obtain ⟨-, hmade, hdead, hinst, hfrees⟩ := (h.ok c).used (by omega)
  have hnew := (h.ok ns).of_made (holders_pos Local.made (List.mem_of_getElem? hns) rfl)
  have hne : c ≠ ns := by
    intro heq
    rw [heq, hnew] at hone
    exact absurd hone (by decide)
  have hle := hroom c
  have hasInt : asInt (sl.ref - 1) = sl.ref - 1 := asInt_of_small (by omega) (by omega)
  set s' : SlotState := { s with
    w := (s.w.putLString s.str { slot := ns }).putSlot c { sl with ref := sl.ref - 1 },
    threads := s.threads.set i (Local.after c (sl.ref - 1)),
    installed := ns :: s.installed } with hs'
  have hstep : s.step (.swap i) = some ((), s') := by
    have hsl' : (s.w.putLString s.str { slot := ns }).slots c = some sl := hsl
    unfold SlotState.step World.swapSlot World.decSlot
    simp only [hns, hc, hsl', Option.bind_eq_bind, Option.bind_some, Local.made_fresh, hasInt,
      Option.pure_def]
    rfl
  have hc' : s'.w.lstrings s'.str = some ⟨ns⟩ := Function.update_self ..
  refine ⟨s', hstep, h.moved (Nat.le_refl _) ?_ ⟨ns, hc'⟩, List.length_set ..⟩
  intro b
  obtain ⟨hh, hm, hd⟩ := SlotState.view_set s' hns rfl b
  simp only [Local.held_after, Local.held_fresh, Local.made_after, Local.made_fresh,
    Local.dead_after, Local.dead_fresh, Option.some.injEq, if_false, reduceCtorEq] at hh hm hd
  have hcurrent := SlotState.view_current hc' b
  have hcount : (s'.view b).installed = (s.view b).installed + if ns = b then 1 else 0 := by
    show (ns :: s.installed).count b = s.installed.count b + _
    rw [List.count_cons]
    simp only [beq_iff_eq]
  by_cases hb : c = b
  · left
    subst hb
    rw [if_neg hne.symm] at hm hcurrent hcount
    refine ⟨SlotView.Ok.of_count ?_ (by omega) ?_ (by omega) hfrees, h.lt_brk (by omega)⟩
    · show (Function.update s.w.slots c _ c).map StringSlot.ref = _
      rw [Function.update_self]
      show some (sl.ref - 1) = _
      congr 1
      omega
    · -- the lstring was the last user exactly when nobody holds the old slot
      have hzero : sl.ref - 1 = 0 ↔ (s'.view c).held + (s'.view c).current = 0 := by omega
      simp only [hzero, and_true] at hd
      omega
  · simp only [hb, and_false, if_false] at hd
    by_cases hbn : ns = b
    · left
      subst hbn
      rw [if_pos rfl] at hm hcurrent hcount
      have hlt := h.lt_brk (a := ns) (by rw [hnew]; decide)
      rw [hnew] at hh hm hd hcount
      have hview : s'.view ns = ⟨some ((0 + 1 : Nat) : Int), 0, 0, 0, 1, 1, 0⟩ := by
        apply SlotView.ext
        · show (Function.update s.w.slots c _ ns).map StringSlot.ref = _
          rw [Function.update_of_ne hne.symm]
          exact congrArg SlotView.ref hnew
        · simpa using hh
        · simpa using hm
        · simpa using hd
        · exact hcurrent
        · exact hcount
        · show (s.view ns).frees = 0
          rw [hnew]
      rw [hview]
      exact ⟨.live 0 1 Nat.one_pos, hlt⟩
    · right
      have hx : (Local.fresh ns).slot ≠ some b := fun h => hbn (Option.some.inj h)
      have hy : (Local.after c (sl.ref - 1)).slot ≠ some b := by
        unfold Local.after
        split
        · simp [Local.slot]
        · exact fun h => hb (Option.some.inj h)
      refine SlotState.view_other hns rfl hx hy (Function.update_of_ne (Ne.symm hb) ..) ?_ ?_ rfl
      · rw [hcurrent, if_neg hbn, SlotState.view_current hc, if_neg hb]
      · rw [hcount, if_neg hbn]
        rfl

/-- `free` in `_release_string` and `delete` in `_update_string`. -/
theorem SlotState.Kept.free (h : s.Kept) {i : Nat} (hi : (s.threads[i]?.bind Local.dead).isSome) :
    ∃ s', s.step (.free i) = some ((), s') ∧ s'.Kept ∧ s'.threads.length = s.threads.length := by
  obtain ⟨a, ha⟩ := Local.of_dead hi
  obtain ⟨c, hc⟩ := h.cur
  -- a slot that a thread has to free is at the end of its life
  have hold := (h.ok a).of_dead (holders_pos Local.dead (List.mem_of_getElem? ha) rfl)
  have href := congrArg SlotView.ref hold
  obtain ⟨sl, hsl, -⟩ := Option.map_eq_some_iff.mp href
  set s' : SlotState := { s with
    w := ({ s.w with slots := Function.update s.w.slots a none } : World).free a,
    threads := s.threads.set i .idle } with hs'
  have hstep : s.step (.free i) = some ((), s') := by
    unfold SlotState.step World.freeSlot
    simp only [ha, hsl, Option.bind_eq_bind, Option.bind_some, Local.dead_freeing]
    rfl
  refine ⟨s', hstep, h.moved (Nat.le_refl _) ?_ ⟨c, hc⟩, List.length_set ..⟩
  intro b
  -- it is freed once more, the others are not
  have hcount : (s'.view b).frees = (s.view b).frees + if a = b then 1 else 0 := by
    show (a :: s.w.freed).count b = s.w.freed.count b + _
    rw [List.count_cons]
    simp only [beq_iff_eq]
  by_cases hb : a = b
  · left
    subst hb
    have hlt := h.lt_brk (a := a) (by rw [hold]; decide)
    obtain ⟨hh, hm, hd⟩ := SlotState.view_set s' ha rfl a
    rw [if_pos rfl] at hcount
    rw [hold] at hh hm hd hcount
    have hview : s'.view a = ⟨none, 0, 0, 0, 0, 1, 1⟩ := by
      apply SlotView.ext
      · show (Function.update s.w.slots a none a).map StringSlot.ref = _
        rw [Function.update_self]
        rfl
      · simpa using hh
      · simpa using hm
      · simpa using hd
      · show (s.view a).current = 0
        rw [hold]
      · show (s.view a).installed = 1
        rw [hold]
      · exact hcount
    rw [hview]
    exact ⟨.gone, hlt⟩
  · right
    have hx : (Local.freeing a).slot ≠ some b := fun h => hb (Option.some.inj h)
    refine SlotState.view_other ha rfl hx (by simp [Local.slot])
      (Function.update_of_ne (Ne.symm hb) ..) rfl rfl ?_
    rw [hcount, if_neg hb]
    rfl

/-! ## §5. Whole runs. -/

/-- A slot has no more holders than there are threads. -/
theorem SlotState.Inv.held_le (h : s.Inv) (a : Addr) : (s.view a).held ≤ 2147483646 := by
  have hroom := h.room
  have hle := s.held_le a
  omega

/-- Every step a thread is ready for goes through and keeps the invariant. -/
theorem SlotState.Inv.step (h : s.Inv) {e : SlotStep} (hready : s.Ready e) :
    ∃ s', s.step e = some ((), s') ∧ s'.Inv := by
  have hroom := h.room
  have hgo : (∃ s', s.step e = some ((), s') ∧ s'.Kept ∧ s'.threads.length = s.threads.length) →
      ∃ s', s.step e = some ((), s') ∧ s'.Inv := by
    intro ⟨s', hstep, hkept, hlen⟩
    exact ⟨s', hstep, hkept, by rw [hlen]; exact hroom⟩
  cases e with
  | grab i =>
    apply hgo
    apply h.toKept.grab hready
    intro a
    have hlt := SlotState.held_lt hready rfl a
    omega
  | callback i => exact ⟨s, h.toKept.callback hready, h⟩
  | release i => exact hgo (h.toKept.release hready h.held_le)
  | alloc i ustr => exact hgo (h.toKept.alloc hready ustr)
  | swap i => exact hgo (h.toKept.swap hready h.held_le)
  | free i => exact hgo (h.toKept.free hready)

theorem SlotState.Inv.run {steps : List SlotStep} :
    ∀ {s : SlotState}, s.Inv → Run.Along SlotState.step SlotState.Ready s steps →
      ∃ outs s', Run.run SlotState.step s steps = some (outs, s') ∧ s'.Inv := by
  induction steps with
  | nil =>
    intro s h _
    exact ⟨[], s, rfl, h⟩
  | cons e steps ih =>
    intro s h hready
    obtain ⟨s₁, h₁, hinv⟩ := h.step hready.1
    obtain ⟨outs, s', hrun, hinv'⟩ := ih hinv (hready.2 () s₁ h₁)
    exact ⟨() :: outs, s', (Run.run_cons_some _).mpr ⟨(), s₁, outs, h₁, hrun, rfl⟩, hinv'⟩

theorem SlotState.installed_pos {a : Addr} (ha : a ∈ s.installed) : 0 < (s.view a).installed :=
  List.count_pos_iff.mpr ha

/-- What the stages of the slots say. -/
theorem SlotState.Inv.safe (h : s.Inv) : s.Safe where
  count := by
    intro a ha sl hsl
    apply (h.ok a).count (SlotState.installed_pos ha)
    show (s.w.slots a).map StringSlot.ref = some sl.ref
    rw [hsl]
    rfl
  held := by
    intro a ha
    have hpos : 0 < (s.view a).held := holders_pos Local.held ha rfl
    -- who is held is in use, and who is in use was not freed
    obtain ⟨href, -, -, -, hfrees⟩ := (h.ok a).used (by omega)
    obtain ⟨sl, hsl, -⟩ := Option.map_eq_some_iff.mp href
    refine ⟨by rw [hsl]; rfl, ?_⟩
    intro hmem
    exact absurd hfrees (Nat.ne_of_gt (List.count_pos_iff.mpr hmem))
  dead := by
    intro a ha
    have hview := (h.ok a).of_dead (holders_pos Local.dead ha rfl)
    refine ⟨?_, ?_⟩
    · show (s.view a).held + (s.view a).current = 0
      rw [hview]
      rfl
    · intro hmem
      have hfrees : 0 < (s.view a).frees := List.count_pos_iff.mpr hmem
      rw [hview] at hfrees
      exact absurd hfrees (by decide)
  freed := by
    intro a ha hmem
    exact ((h.ok a).frees (SlotState.installed_pos ha)).2 (List.count_pos_iff.mpr hmem)
  once := by
    intro a ha
    exact ((h.ok a).frees (SlotState.installed_pos ha)).1
  all := by
    intro hidle a ha hcur
    -- idle threads hold nothing
    have hnone : ∀ f : Local → Option Addr, f .idle = none → holders f s.threads a = 0 := by
      intro f hf
      apply holders_eq_zero
      intro x hx
      rw [hidle x hx, hf]
      simp
    have hheld : (s.view a).held = 0 := hnone Local.held rfl
    have hdead : (s.view a).dead = 0 := hnone Local.dead rfl
    have hcurrent : (s.view a).current = 0 := if_neg hcur
    have hfrees := (h.ok a).all (SlotState.installed_pos ha) (by omega) hdead
    exact List.count_pos_iff.mp hfrees

/-- A new lstring is in order, for any number of threads. -/
theorem SlotState.start_kept {w : World} (hw : w.Spent) (str : Bytes) (n : Nat) :
    (SlotState.start w str n).Kept := by
  have hidle : ∀ (f : Local → Option Addr) (a : Addr), f .idle = none →
      holders f (SlotState.start w str n).threads a = 0 := by
    intro f a hf
    apply holders_eq_zero
    intro x hx
    rw [List.eq_of_mem_replicate hx, hf]
    simp
  have hc : (SlotState.start w str n).w.lstrings w.brk = some ⟨w.brk + 1⟩ :=
    Function.update_self ..
  -- only the new slot has anything to its name
  have hview : ∀ a, (SlotState.start w str n).view a
      = ⟨((SlotState.start w str n).w.slots a).map StringSlot.ref, 0, 0, 0,
          if w.brk + 1 = a then 1 else 0, if w.brk + 1 = a then 1 else 0, w.freed.count a⟩ := by
    intro a
    apply SlotView.ext
    · rfl
    · exact hidle Local.held a rfl
    · exact hidle Local.made a rfl
    · exact hidle Local.dead a rfl
    · exact SlotState.view_current hc a
    · show [w.brk + 1].count a = _
      rw [List.count_singleton]
      simp only [beq_iff_eq]
    · rfl
  have hspent : ∀ a, w.brk ≤ a → w.freed.count a = 0 := by
    intro a ha
    apply List.count_eq_zero.mpr
    intro hmem
    exact absurd (hw a hmem) (Nat.not_lt.mpr ha)
  refine ⟨?_, ?_, ⟨w.brk + 1, hc⟩⟩
  · intro a
    rw [hview]
    by_cases ha : w.brk + 1 = a
    · subst ha
      have hsl : (SlotState.start w str n).w.slots (w.brk + 1)
          = some (LightTable.newString str) := Function.update_self ..
      rw [if_pos rfl, hspent _ (Nat.le_succ _), hsl]
      -- the slot is alive, with no holder
      exact .live 0 1 Nat.one_pos
    · rw [if_neg ha]
      exact .other _ _
  · intro a ha
    have ha : w.brk + 2 ≤ a := ha
    have hne : w.brk + 1 ≠ a := Nat.ne_of_lt ha
    rw [hview, if_neg hne, hspent a (Nat.le_of_add_right_le ha)]
    exact ⟨_, rfl⟩

theorem SlotState.start_inv {w : World} (hw : w.Spent) (str : Bytes) {n : Nat}
    (hn : n ≤ 2147483646) : (SlotState.start w str n).Inv := by
  refine ⟨SlotState.start_kept hw str n, ?_⟩
  show (List.replicate n Local.idle).length ≤ _
  rw [List.length_replicate]
  exact hn

/-- With at most 2147483646 threads, every interleaving of `value_string` and
`_update_string` goes through, and the slots are safe in every state. -/
theorem stringSlots_safe {w : World} (hw : w.Spent) {str : Bytes} {n : Nat}
    (hn : n ≤ 2147483646) {steps : List SlotStep}
    (hready : Run.Along SlotState.step SlotState.Ready (SlotState.start w str n) steps) :
    ∃ outs s', Run.run SlotState.step (SlotState.start w str n) steps = some (outs, s')
      ∧ s'.Safe := by
  obtain ⟨outs, s', hrun, hinv⟩ := (SlotState.start_inv hw str hn).run hready
  exact ⟨outs, s', hrun, hinv.safe⟩

/-- One thread updates the string while another one reads it. -/
theorem stringSlots_safe_two :
    ∃ outs s', Run.run SlotState.step (SlotState.start World.empty [97] 2)
        [.grab 0, .alloc 1 [98], .swap 1, .callback 0, .release 0, .free 0]
          = some (outs, s') ∧ s'.Safe :=
  stringSlots_safe (by intro a ha; exact absurd ha (by simp [World.empty])) (by decide)
    (by decide)

/-! ## §6. More threads than an `int` can count. -/

/-- The first `k` of `n` threads grab the slot. -/
theorem grabs_run (w : World) (str : Bytes) {n : Nat} :
    ∀ k, k ≤ n → k ≤ 2147483646 →
      Run.Along SlotState.step SlotState.Ready (SlotState.start w str n)
          ((List.range k).map .grab)
        ∧ ∃ outs s' sl, Run.run SlotState.step (SlotState.start w str n)
            ((List.range k).map .grab) = some (outs, s')
          ∧ s'.w.lstrings s'.str = some ⟨w.brk + 1⟩ ∧ s'.w.slots (w.brk + 1) = some sl
          ∧ sl.ref = (k : Int) + 1
          ∧ ∀ j, k ≤ j → j < n → s'.threads[j]? = some .idle := by
  intro k
  induction k with
  | zero =>
    intro _ _
    refine ⟨trivial, [], SlotState.start w str n, LightTable.newString str, rfl,
      Function.update_self .., Function.update_self .., rfl, ?_⟩
    intro j _ hj
    exact List.getElem?_replicate_of_lt hj
  | succ k ih =>
    intro hk hmax
    obtain ⟨halong, outs, s', sl, hrun, hls, hsl, href, hidle⟩ := ih (by omega) (by omega)
    have hready : s'.threads[k]? = some .idle := hidle k (Nat.le_refl k) hk
    -- up to here the count has not wrapped
    have hasInt : asInt (sl.ref + 1) = sl.ref + 1 := asInt_of_small (by omega) (by omega)
    have hstep : s'.step (.grab k) = some ((), { s' with
        w := s'.w.putSlot (w.brk + 1) { sl with ref := sl.ref + 1 },
        threads := s'.threads.set k (.holding (w.brk + 1)) }) := by
      unfold SlotState.step World.grabString
      simp only [hls, hsl, Option.bind_eq_bind, Option.bind_some, hasInt]
      rw [if_pos (by omega)]
      rfl
    rw [List.range_succ, List.map_append, List.map_singleton]
    refine ⟨Run.along_snoc _ halong hrun hready, _, _, { sl with ref := sl.ref + 1 },
      (Run.run_snoc_some _).mpr ⟨outs, s', (), hrun, hstep, rfl⟩, hls,
      Function.update_self .., ?_, ?_⟩
    · show sl.ref + 1 = _
      rw [href]
      push_cast
      rfl
    · intro j hj hjn
      show (s'.threads.set k _)[j]? = _
      rw [List.getElem?_set_ne (by omega)]
      exact hidle j (by omega) hjn

/-- One thread more, and a grab can make the count negative, so that the
assertion fails. -/
theorem grabs_stuck (w : World) (str : Bytes) {n : Nat} (hn : 2147483646 < n) :
    ∃ steps, Run.Along SlotState.step SlotState.Ready (SlotState.start w str n) steps
      ∧ Run.run SlotState.step (SlotState.start w str n) steps = none := by
  obtain ⟨k, hk⟩ : ∃ k, k = 2147483646 := ⟨_, rfl⟩
  obtain ⟨halong, outs, s', sl, hrun, hls, hsl, href, hidle⟩ :=
    grabs_run w str (n := n) k (by omega) (by omega)
  have hready : s'.Ready (.grab k) := hidle k (Nat.le_refl k) (by omega)
  have hasInt : asInt (sl.ref + 1) = -2147483648 := by
    rw [href, hk]
    decide
  have hstep : s'.step (.grab k) = none := by
    unfold SlotState.step World.grabString
    simp only [hls, hsl, Option.bind_eq_bind, Option.bind_some, hasInt]
    rfl
  refine ⟨(List.range k).map .grab ++ [.grab k], Run.along_snoc _ halong hrun hready, ?_⟩
  rw [Option.eq_none_iff_forall_ne_some]
  rintro ⟨outs', s''⟩ hrun'
  obtain ⟨outs₁, s₁, o, h₁, h₂, -⟩ := (Run.run_snoc_some _).mp hrun'
  rw [hrun] at h₁
  simp only [Option.some.injEq, Prod.mk.injEq] at h₁
  rw [← h₁.2, hstep] at h₂
  exact absurd h₂ (by simp)

/-- 2147483647 threads are too many. -/
theorem stringSlots_overflow :
    ¬ ∀ steps, Run.Along SlotState.step SlotState.Ready
        (SlotState.start World.empty [] 2147483647) steps →
      ∃ outs s', Run.run SlotState.step (SlotState.start World.empty [] 2147483647) steps
        = some (outs, s') ∧ s'.Safe := by
  intro hall
  obtain ⟨steps, halong, hnone⟩ :=
    grabs_stuck World.empty [] (show 2147483646 < 2147483647 by omega)
  obtain ⟨outs, s', hrun, -⟩ := hall steps halong
  rw [hnone] at hrun
  exact absurd hrun (by simp)

end LightTable
