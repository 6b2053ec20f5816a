/-
  LightTable.Concurrency.SlotLock
  ───────────────────────────────
  The spin lock of an lstring, instruction by instruction.

  `LightTable.Concurrency.StringSlot` takes the locked regions of
  `_grab_string` and `_update_string` as one step each.  Here every
  test-and-set, every load and store of `slot`, every atomic add and every
  unlock is a step of its own, and all threads interleave between any two of
  them; `_release_string` counts down without the lock, also in the middle of
  a locked region.

  The region of `_grab_string` takes effect at its add and that of
  `_update_string` at its decrement: between the store of the new slot and that
  decrement the lstring already names the new slot, while the coarser machine
  still has the old one (`LockState.Shows`).  So every run of instructions is a
  run of the locked regions, and what holds there holds here.
-/
import LightTable.Concurrency.StringSlot
import LightTable.Lib.SpinLock
import Mathlib.Algebra.Ring.Nat

namespace LightTable

open RefCount SpinLock

/-! ## §1. The instructions. -/

/-- The next instruction of a thread, with what its locals hold. -/
inductive Pc where
  /-- between calls -/
  | idle
  /-- `_grab_string`: `while (__sync_lock_test_and_set(&s->lock, 1)) {}` -/
  | grabLock
  /-- the load of `s->slot` for the add -/
  | grabLoad
  /-- `__sync_add_and_fetch(&s->slot->ref, 1)` and the assertion -/
  | grabAdd (p : Addr)
  /-- `ret = s->slot`, after the add on `p` -/
  | grabRet (p : Addr)
  /-- `__sync_lock_release(&s->lock)` -/
  | grabUnlock (ret : Addr)
  /-- `value_string`, up to the decrement of `_release_string` -/
  | holding (s : Addr)
  /-- `_update_string`: the test-and-set, with the new slot -/
  | swapLock (ns : Addr)
  /-- `old = str->slot` -/
  | swapLoad (ns : Addr)
  /-- `str->slot = ns` -/
  | swapStore (ns old : Addr)
  /-- `__sync_sub_and_fetch(&old->ref, 1)`, with the new slot in place -/
  | swapDec (ns old : Addr)
  /-- `__sync_lock_release(&str->lock)` -/
  | swapUnlock (old : Addr) (ref : Int)
  /-- the `free` or `delete` of a slot whose count came to zero -/
  | freeing (s : Addr)
  deriving DecidableEq

/-- The slot that a callback may use. -/
def Pc.held : Pc → Option Addr
  | .holding s => some s
  | _ => none

/-- After a decrement. -/
def Pc.after (s : Addr) (ref : Int) : Pc := if ref ≠ 0 then .idle else .freeing s

/-- The thread is between a test-and-set that found the lock free and the
unlock. -/
def Pc.inside : Pc → Bool
  | .grabLoad => true
  | .grabAdd _ => true
  | .grabRet _ => true
  | .grabUnlock _ => true
  | .swapLoad _ => true
  | .swapStore _ _ => true
  | .swapDec _ _ => true
  | .swapUnlock _ _ => true
  | _ => false

/-- The world, the lstring with its lock, the threads, and the slots that were
ever installed. -/
structure LockState where
  w : World
  str : Addr
  lock : Bool
  threads : List Pc
  installed : List Addr

/-- A step: a thread calls `value_string` or `_update_string`, runs its
callback, or executes its next instruction. -/
inductive LockStep where
  | grab (i : Nat)
  | update (i : Nat) (ustr : Bytes)
  | callback (i : Nat)
  | next (i : Nat)

/-- Thread `i` goes on at `x`. -/
def LockState.goto (s : LockState) (i : Nat) (x : Pc) : LockState :=
  { s with threads := s.threads.set i x }

/-- The next instruction of thread `i`, which is at `x`; `none` is a failed
assertion or an access to a freed slot. -/
def LockState.exec (s : LockState) (i : Nat) : Pc → Option LockState
  | .idle => none
  | .grabLock =>
      if s.lock then some s else some ({ s with lock := true }.goto i .grabLoad)
  | .grabLoad => do
      let ls ← s.w.lstrings s.str
      return s.goto i (.grabAdd ls.slot)
  | .grabAdd p => do
      let sl ← s.w.slots p
      let ref := asInt (sl.ref + 1)
      let w := s.w.putSlot p { sl with ref := ref }
      -- assert(ref > 1)
      if 1 < ref then return { s with w := w }.goto i (.grabRet p) else none
  | .grabRet _ => do
      let ls ← s.w.lstrings s.str
      return s.goto i (.grabUnlock ls.slot)
  | .grabUnlock ret => some ({ s with lock := false }.goto i (.holding ret))
  | .holding a => do
      let (ref, w) ← s.w.decSlot a
      return { s with w := w }.goto i (.after a ref)
  | .swapLock ns =>
      if s.lock then some s else some ({ s with lock := true }.goto i (.swapLoad ns))
  | .swapLoad ns => do
      let ls ← s.w.lstrings s.str
      return s.goto i (.swapStore ns ls.slot)
  | .swapStore ns old => do
      let ls ← s.w.lstrings s.str
      return { s with
        w := s.w.putLString s.str { ls with slot := ns },
        installed := ns :: s.installed }.goto i (.swapDec ns old)
  | .swapDec _ old => do
      let (ref, w) ← s.w.decSlot old
      return { s with w := w }.goto i (.swapUnlock old ref)
  | .swapUnlock old ref => some ({ s with lock := false }.goto i (.after old ref))
  | .freeing a => do
      let w ← s.w.freeSlot a
      return { s with w := w }.goto i .idle

/-- One step. -/
def LockState.step (s : LockState) : LockStep → Option (Unit × LockState)
  | .grab i => some ((), s.goto i .grabLock)
  | .update i ustr =>
      let (ns, w) := s.w.newString ustr
      some ((), { s with w := w }.goto i (.swapLock ns))
  | .callback i => do
      let a ← s.threads[i]?.bind Pc.held
      let _ ← s.w.slots a
      return ((), s)
  | .next i => do
      let x ← s.threads[i]?
      let s ← s.exec i x
      return ((), s)

/-- The thread is at the point of its program where the step comes next. -/
def LockState.Ready (s : LockState) : LockStep → Prop
  | .grab i => s.threads[i]? = some .idle
  | .update i _ => s.threads[i]? = some .idle
  | .callback i => (s.threads[i]?.bind Pc.held).isSome
  | .next i => s.threads[i]? ≠ none ∧ s.threads[i]? ≠ some .idle

instance LockState.decidableReady (s : LockState) : ∀ e : LockStep, Decidable (s.Ready e)
  | .grab _ => inferInstanceAs (Decidable (_ = _))
  | .update _ _ => inferInstanceAs (Decidable (_ = _))
  | .callback _ => inferInstanceAs (Decidable (_ = _))
  | .next _ => inferInstanceAs (Decidable (_ ∧ _))

/-- `set_string` has just built the lstring, and `n` threads know it. -/
def LockState.start (w : World) (str : Bytes) (n : Nat) : LockState :=
  { w := w.withString str, str := w.brk, lock := false, threads := List.replicate n .idle,
    installed := [w.brk + 1] }

/-! ## §2. What the locked regions show of it. -/

/-- Where the coarser machine has a thread: a locked region takes effect at its
add or at its decrement. -/
def Pc.atomic : Pc → Local
  | .grabRet p => .holding p
  | .grabUnlock ret => .holding ret
  | .holding s => .holding s
  | .swapLock ns => .fresh ns
  | .swapLoad ns => .fresh ns
  | .swapStore ns _ => .fresh ns
  | .swapDec ns _ => .fresh ns
  | .swapUnlock old ref => .after old ref
  | .freeing s => .freeing s
  | _ => .idle

/-- What the locals of a thread inside hold, when `c` is the slot of the
coarser machine and `d` the one the lstring names. -/
def Pc.Knows (c d : Addr) : Pc → Prop
  | .grabAdd p => p = c
  | .grabRet p => p = c
  | .grabUnlock ret => ret = c
  | .swapStore _ old => old = c
  | .swapDec ns old => old = c ∧ ns = d
  | _ => True

/-- The thread has stored the new slot and has not counted the old one down. -/
def Pc.torn : Pc → Bool
  | .swapDec _ _ => true
  | _ => false

/-- The coarser machine, with the slot `c`, at the instructions that ran so
far, with the slot `d`: they differ while one thread is torn. -/
structure LockState.Shows (s : LockState) (c d : Addr) (t : SlotState) : Prop where
  str : t.str = s.str
  world : t.w = s.w.putLString s.str { slot := c }
  cur : s.w.lstrings s.str = some { slot := d }
  threads : t.threads = s.threads.map Pc.atomic
  lock : Exclusive Pc.inside s.lock s.threads
  knows : ∀ x ∈ s.threads, x.Knows c d
  slot : (d = c ∧ s.installed = t.installed ∧ ∀ x ∈ s.threads, x.torn = false)
    ∨ (s.installed = d :: t.installed ∧ ∃ k : Nat, s.threads[k]? = some (.swapDec d c))

variable {s s' : LockState} {t t' : SlotState} {c d : Addr} {i : Nat} {x y : Pc}

@[simp] theorem Pc.atomic_after (a : Addr) (r : Int) : (Pc.after a r).atomic = Local.after a r := by
  unfold Pc.after Local.after
  split <;> rfl

@[simp] theorem Pc.inside_after (a : Addr) (r : Int) : (Pc.after a r).inside = false := by
  unfold Pc.after
  split <;> rfl

@[simp] theorem Pc.torn_after (a : Addr) (r : Int) : (Pc.after a r).torn = false := by
  unfold Pc.after
  split <;> rfl

theorem Pc.inside_of_torn (h : x.torn = true) : x.inside = true := by
  cases x <;> first | rfl | exact absurd h Bool.false_ne_true

/-- Outside nothing is relied on. -/
theorem Pc.knows_of_outside (h : x.inside = false) (c d : Addr) : x.Knows c d := by
  cases x <;> trivial

/-- A thread of the coarser machine. -/
theorem LockState.Shows.thread (h : s.Shows c d t) (hi : s.threads[i]? = some x) :
    t.threads[i]? = some x.atomic := by
  rw [h.threads, List.getElem?_map, hi]
  rfl

/-- The slots are the same. -/
theorem LockState.Shows.slots (h : s.Shows c d t) : t.w.slots = s.w.slots := by
  rw [h.world]
  rfl

theorem LockState.Shows.lstring (h : s.Shows c d t) : t.w.lstrings t.str = some { slot := c } := by
  rw [h.world, h.str]
  exact Function.update_self ..

/-- A step that leaves the slot of the lstring alone. -/
theorem LockState.Shows.move (h : s.Shows c d t) (hi : s.threads[i]? = some x)
    (hstr : s'.str = s.str) (htstr : t'.str = t.str) (hs : s'.threads = s.threads.set i y)
    (ht : t'.threads = t.threads.set i y.atomic)
    (hw : t'.w = s'.w.putLString s.str { slot := c })
    (hcur : s'.w.lstrings s.str = s.w.lstrings s.str)
    (hlock : Exclusive Pc.inside s'.lock (s.threads.set i y)) (hy : y.Knows c d)
    (hxt : x.torn = false)
    (hyt : y.torn = false) (hinst : s'.installed = s.installed)
    (hinst' : t'.installed = t.installed) : s'.Shows c d t' where
  str := by rw [htstr, h.str, hstr]
  world := by rw [hw, hstr]
  cur := by rw [hstr, hcur, h.cur]
  threads := by rw [ht, hs, h.threads, List.map_set]
  lock := by rw [hs]; exact hlock
  knows := by
    intro z hz
    rw [hs] at hz
    rcases List.mem_or_eq_of_mem_set hz with hz | rfl
    · exact h.knows z hz
    · exact hy
  slot := by
    rw [hinst, hinst', hs]
    rcases h.slot with ⟨hdc, hsame, hnone⟩ | ⟨hcons, k, hk⟩
    · refine Or.inl ⟨hdc, hsame, ?_⟩
      intro z hz
      rcases List.mem_or_eq_of_mem_set hz with hz | rfl
      · exact hnone z hz
      · exact hyt
    · refine Or.inr ⟨hcons, k, ?_⟩
      -- the torn thread is another one
      have hki : i ≠ k := by
        intro hki
        subst hki
        rw [hi, Option.some.injEq] at hk
        rw [hk] at hxt
        exact absurd hxt (Ne.symm Bool.false_ne_true)
      rw [List.getElem?_set_ne hki]
      exact hk

/-- An instruction that the coarser machine does not see. -/
theorem LockState.Shows.silent (h : s.Shows c d t) (hi : s.threads[i]? = some x) {lock : Bool}
    (hlock : Exclusive Pc.inside lock (s.threads.set i y)) (hxy : y.atomic = x.atomic)
    (hy : y.Knows c d) (hxt : x.torn = false) (hyt : y.torn = false) :
    LockState.Shows ({ s with lock := lock }.goto i y) c d t := by
  refine h.move hi rfl rfl rfl ?_ h.world rfl hlock hy hxt hyt rfl rfl
  rw [hxy]
  obtain ⟨hlt, hx⟩ := List.getElem?_eq_some_iff.mp (h.thread hi)
  rw [← hx, List.set_getElem_self]

/-! ## §3. Step by step. -/

/-- The states of the two machines that belong together. -/
def LockState.Related (s : LockState) (t : SlotState) : Prop :=
  (∃ c d, s.Shows c d t) ∧ t.Inv

/-- A step that goes through, and that the coarser machine can follow. -/
def LockState.Follows (s : LockState) (t : SlotState) (e : LockStep) : Prop :=
  Run.Matches LockState.step SlotState.step LockState.Related SlotState.Ready s t e

theorem LockState.Shows.follows_silent {e : LockStep} (ht : t.Inv) (hx : s.step e = some ((), s'))
    (h : s'.Shows c d t) : s.Follows t e :=
  ⟨(), s', [], [], t, hx, trivial, rfl, ⟨c, d, h⟩, ht⟩

theorem LockState.Shows.follows_one {e : LockStep} {e' : SlotStep} (ht : t.Inv)
    (hready : t.Ready e') (hx : s.step e = some ((), s')) (hx' : t.step e' = some ((), t'))
    (h : s'.Shows c d t') : s.Follows t e := by
  obtain ⟨t₂, ht₂, hinv⟩ := ht.step hready
  rw [hx', Option.some.injEq, Prod.mk.injEq] at ht₂
  obtain ⟨-, rfl⟩ := ht₂
  exact ⟨(), s', [e'], [()], t', hx, ⟨hready, fun _ _ _ => trivial⟩,
    (Run.run_cons_some _).mpr ⟨(), t', [], hx', rfl, rfl⟩, ⟨c, d, h⟩, hinv⟩

theorem LockState.step_next (hi : s.threads[i]? = some x) (hx : s.exec i x = some s') :
    s.step (.next i) = some ((), s') := by
  unfold LockState.step
  simp only [hi, hx, Option.bind_eq_bind, Option.bind_some]
  rfl

/-- The test-and-set of either call: it goes round, or it enters. -/
theorem LockState.Shows.testAndSet (h : s.Shows c d t) (ht : t.Inv)
    (hi : s.threads[i]? = some x) (hx : s.exec i x
      = if s.lock then some s else some ({ s with lock := true }.goto i y))
    (hxy : y.atomic = x.atomic) (hy : y.Knows c d) (hin : y.inside = true)
    (hxt : x.torn = false) (hyt : y.torn = false) : s.Follows t (.next i) := by
  cases hl : s.lock with
  | true =>
    rw [hl, if_pos rfl] at hx
    exact h.follows_silent ht (LockState.step_next hi hx)
  | false =>
    rw [hl, if_neg (by decide)] at hx
    have hlock := h.lock
    rw [hl] at hlock
    exact (h.silent hi (hlock.acquire hi hin) hxy hy hxt hyt).follows_silent ht
      (LockState.step_next hi hx)

/-- A load of `slot`, inside. -/
theorem LockState.Shows.load (h : s.Shows c d t) (ht : t.Inv) (hi : s.threads[i]? = some x)
    (hx : s.exec i x = some (s.goto i y)) (hxy : y.atomic = x.atomic) (hy : y.Knows c d)
    (hin : y.inside = x.inside) (hxt : x.torn = false) (hyt : y.torn = false) :
    s.Follows t (.next i) :=
  (h.silent hi (h.lock.stay hi hin) hxy hy hxt hyt).follows_silent ht (LockState.step_next hi hx)

/-- The unlock of either call. -/
theorem LockState.Shows.unlock (h : s.Shows c d t) (ht : t.Inv) (hi : s.threads[i]? = some x)
    (hx : s.exec i x = some ({ s with lock := false }.goto i y)) (hxy : y.atomic = x.atomic)
    (hin : x.inside = true) (hout : y.inside = false) (hxt : x.torn = false)
    (hyt : y.torn = false) : s.Follows t (.next i) :=
  (h.silent hi (h.lock.release hi hin hout) hxy (Pc.knows_of_outside hout c d) hxt
    hyt).follows_silent ht (LockState.step_next hi hx)

/-- A thread that is inside and not torn sees the slot of the coarser
machine. -/
theorem LockState.Shows.slot_eq (h : s.Shows c d t) (hi : s.threads[i]? = some x)
    (hin : x.inside = true) (hxt : x.torn = false) :
    d = c ∧ s.installed = t.installed ∧ ∀ z ∈ s.threads, z.torn = false := by
  rcases h.slot with hsame | ⟨-, k, hk⟩
  · exact hsame
  · -- the torn thread would be inside as well
    obtain rfl := h.lock.unique hi hin hk rfl
    rw [hi, Option.some.injEq] at hk
    rw [hk] at hxt
    exact absurd hxt (Ne.symm Bool.false_ne_true)

/-- The add of `_grab_string` is the whole locked region. -/
theorem LockState.Shows.add (h : s.Shows c d t) (ht : t.Inv) {p : Addr}
    (hi : s.threads[i]? = some (.grabAdd p)) : s.Follows t (.next i) := by
  have hp : p = c := h.knows _ (List.mem_of_getElem? hi)
  subst hp
  have hready : t.Ready (.grab i) := h.thread hi
  obtain ⟨t', hx', -⟩ := ht.step hready
  have hx := hx'
  unfold SlotState.step World.grabString at hx
  rw [h.lstring, h.slots] at hx
  obtain ⟨⟨a, w'⟩, hgrab, hx⟩ := Option.bind_eq_some_iff.mp hx
  obtain ⟨ls, hls, hgrab⟩ := Option.bind_eq_some_iff.mp hgrab
  obtain rfl : (⟨p⟩ : LString) = ls := Option.some.inj hls
  obtain ⟨sl, hsl, hgrab⟩ := Option.bind_eq_some_iff.mp hgrab
  have hsl : s.w.slots p = some sl := hsl
  have hgrab : (if 1 < asInt (sl.ref + 1) then
      some (p, t.w.putSlot p { sl with ref := asInt (sl.ref + 1) }) else none) = some (a, w') := hgrab
  split at hgrab
  next hassert =>
    simp only [Option.pure_def, Option.some.injEq, Prod.mk.injEq] at hgrab hx
    obtain ⟨rfl, rfl⟩ := hgrab
    obtain ⟨-, rfl⟩ := hx
    have hexec : s.exec i (.grabAdd p) = some ({ s with
        w := s.w.putSlot p { sl with ref := asInt (sl.ref + 1) } }.goto i (.grabRet p)) := by
      unfold LockState.exec
      simp only [hsl, Option.bind_eq_bind, Option.bind_some, if_pos hassert, Option.pure_def]
    refine LockState.Shows.follows_one ht hready (LockState.step_next hi hexec) hx'
      (h.move (y := .grabRet p) hi rfl rfl rfl rfl ?_ rfl (h.lock.stay hi rfl) rfl rfl rfl rfl rfl)
    show t.w.putSlot p _ = _
    rw [h.world]
    rfl
  next hassert => exact absurd hgrab (by simp)

/-- Counting a slot down and naming another one in the lstring commute. -/
theorem World.decSlot_putLString (w : World) (a : Addr) (ls : LString) (p : Addr) :
    (w.putLString a ls).decSlot p = (w.decSlot p).map (fun r => (r.1, r.2.putLString a ls)) := by
  unfold World.decSlot
  show (w.slots p).bind _ = ((w.slots p).bind _).map _
  cases w.slots p <;> rfl

theorem World.freeSlot_putLString (w : World) (a : Addr) (ls : LString) (p : Addr) :
    (w.putLString a ls).freeSlot p = (w.freeSlot p).map (fun v => v.putLString a ls) := by
  unfold World.freeSlot
  show (w.slots p).bind _ = ((w.slots p).bind _).map _
  cases w.slots p <;> rfl

/-- What counting down leaves alone. -/
theorem World.decSlot_same {w w' : World} {p : Addr} {r : Int} (h : w.decSlot p = some (r, w')) :
    w'.lstrings = w.lstrings := by
  unfold World.decSlot at h
  obtain ⟨sl, -, h⟩ := Option.bind_eq_some_iff.mp h
  simp only [Option.pure_def, Option.some.injEq, Prod.mk.injEq] at h
  rw [← h.2]
  rfl

/-- `_release_string`, which takes no lock. -/
theorem LockState.Shows.release (h : s.Shows c d t) (ht : t.Inv) {a : Addr}
    (hi : s.threads[i]? = some (.holding a)) : s.Follows t (.next i) := by
  have hti : t.threads[i]? = some (.holding a) := h.thread hi
  have hready : t.Ready (.release i) := by
    show (t.threads[i]?.bind Local.held).isSome
    rw [hti]
    rfl
  obtain ⟨t', hx', -⟩ := ht.step hready
  have hx := hx'
  unfold SlotState.step at hx
  simp only [hti, Option.bind_eq_bind, Option.bind_some, Local.held_holding, h.world,
    World.decSlot_putLString] at hx
  obtain ⟨v, hdec', hx⟩ := Option.bind_eq_some_iff.mp hx
  obtain ⟨⟨r, w'⟩, hdec, rfl⟩ := Option.map_eq_some_iff.mp hdec'
  simp only [Option.pure_def, Option.some.injEq, Prod.mk.injEq] at hx
  obtain ⟨-, rfl⟩ := hx
  have hexec : s.exec i (.holding a) = some ({ s with w := w' }.goto i (.after a r)) := by
    unfold LockState.exec
    simp only [hdec, Option.bind_eq_bind, Option.bind_some, Option.pure_def]
  refine LockState.Shows.follows_one ht hready (LockState.step_next hi hexec) hx'
    (h.move (y := .after a r) hi rfl rfl rfl ?_ rfl ?_ (h.lock.stay hi ?_)
      (Pc.knows_of_outside (Pc.inside_after a r) c d) rfl (Pc.torn_after a r) rfl rfl)
  · rw [Pc.atomic_after]
  · exact congrFun (World.decSlot_same hdec) s.str
  · rw [Pc.inside_after]
    rfl

/-- The `free` of a slot that nobody uses. -/
theorem LockState.Shows.free (h : s.Shows c d t) (ht : t.Inv) {a : Addr}
    (hi : s.threads[i]? = some (.freeing a)) : s.Follows t (.next i) := by
  have hti : t.threads[i]? = some (.freeing a) := h.thread hi
  have hready : t.Ready (.free i) := by
    show (t.threads[i]?.bind Local.dead).isSome
    rw [hti]
    rfl
  obtain ⟨t', hx', -⟩ := ht.step hready
  have hx := hx'
  unfold SlotState.step at hx
  simp only [hti, Option.bind_eq_bind, Option.bind_some, Local.dead_freeing, h.world,
    World.freeSlot_putLString] at hx
  obtain ⟨v, hfree', hx⟩ := Option.bind_eq_some_iff.mp hx
  obtain ⟨w', hfree, rfl⟩ := Option.map_eq_some_iff.mp hfree'
  simp only [Option.pure_def, Option.some.injEq, Prod.mk.injEq] at hx
  obtain ⟨-, rfl⟩ := hx
  have hexec : s.exec i (.freeing a) = some ({ s with w := w' }.goto i .idle) := by
    unfold LockState.exec
    simp only [hfree, Option.bind_eq_bind, Option.bind_some, Option.pure_def]
  have hls : w'.lstrings = s.w.lstrings := by
    unfold World.freeSlot at hfree
    obtain ⟨sl, -, hfree⟩ := Option.bind_eq_some_iff.mp hfree
    rw [← Option.some.inj hfree]
    rfl
  exact LockState.Shows.follows_one ht hready (LockState.step_next hi hexec) hx'
    (h.move (y := .idle) hi rfl rfl rfl rfl rfl (congrFun hls s.str) (h.lock.stay hi rfl) trivial
      rfl rfl rfl rfl)

/-- `_update_string` makes its slot. -/
theorem LockState.Shows.update (h : s.Shows c d t) (ht : t.Inv)
    (hi : s.threads[i]? = some .idle) (ustr : Bytes) : s.Follows t (.update i ustr) := by
  have hready : t.Ready (.alloc i ustr) := h.thread hi
  obtain ⟨t', hx', -⟩ := ht.step hready
  have hx := hx'
  unfold SlotState.step at hx
  simp only [Option.some.injEq, Prod.mk.injEq] at hx
  obtain ⟨-, rfl⟩ := hx
  have hbrk : t.w.brk = s.w.brk := by
    rw [h.world]
    rfl
  have hstep : s.step (.update i ustr)
      = some ((), { s with w := (s.w.newString ustr).2 }.goto i (.swapLock s.w.brk)) := rfl
  refine LockState.Shows.follows_one (c := c) (d := d) ht hready hstep hx' ?_
  refine h.move (y := .swapLock s.w.brk) hi rfl rfl rfl ?_ ?_ rfl (h.lock.stay hi rfl) trivial rfl
    rfl rfl rfl
  · show t.threads.set i (.fresh t.w.brk) = _
    rw [hbrk]
    rfl
  · show (t.w.newString ustr).2 = _
    rw [h.world]
    rfl

/-- The store of the new slot: the lstring names it, and the coarser machine
does not yet. -/
theorem LockState.Shows.store (h : s.Shows c d t) (ht : t.Inv) {ns old : Addr}
    (hi : s.threads[i]? = some (.swapStore ns old)) : s.Follows t (.next i) := by
  have hold : old = c := h.knows _ (List.mem_of_getElem? hi)
  obtain ⟨hdc, hinst, hnone⟩ := h.slot_eq hi rfl rfl
  subst hold hdc
  have hexec : s.exec i (.swapStore ns d) = some ({ s with
      w := s.w.putLString s.str { slot := ns },
      installed := ns :: s.installed }.goto i (.swapDec ns d)) := by
    unfold LockState.exec
    simp only [h.cur, Option.bind_eq_bind, Option.bind_some, Option.pure_def]
  refine LockState.Shows.follows_silent (c := d) (d := ns) ht (LockState.step_next hi hexec) ?_
  refine ⟨h.str, ?_, Function.update_self .., ?_, h.lock.stay hi rfl, ?_, Or.inr ⟨?_, i, ?_⟩⟩
  · rw [h.world]
    show _ = (s.w.putLString s.str _).putLString s.str _
    unfold World.putLString
    rw [Function.update_idem]
  · show t.threads = (s.threads.set i _).map Pc.atomic
    obtain ⟨hlt, hx⟩ := List.getElem?_eq_some_iff.mp (h.thread hi)
    have hset := List.set_getElem_self hlt
    rw [hx] at hset
    rw [List.map_set, ← h.threads]
    exact hset.symm
  · intro z hz
    rcases h.lock.others hi rfl hz with rfl | hz
    · exact ⟨rfl, rfl⟩
    · exact Pc.knows_of_outside hz _ _
  · show ns :: s.installed = ns :: t.installed
    rw [hinst]
  · exact List.getElem?_set_self (List.getElem?_eq_some_iff.mp hi).1

/-- The decrement of `_update_string` is the whole locked region. -/
theorem LockState.Shows.dec (h : s.Shows c d t) (ht : t.Inv) {ns old : Addr}
    (hi : s.threads[i]? = some (.swapDec ns old)) : s.Follows t (.next i) := by
  obtain ⟨hold, hns⟩ : old = c ∧ ns = d := h.knows _ (List.mem_of_getElem? hi)
  subst hold hns
  have hinst : s.installed = ns :: t.installed := by
    rcases h.slot with ⟨-, -, hnone⟩ | ⟨hcons, -⟩
    · exact absurd (hnone _ (List.mem_of_getElem? hi)) (Ne.symm Bool.false_ne_true)
    · exact hcons
  have hti : t.threads[i]? = some (.fresh ns) := h.thread hi
  have hready : t.Ready (.swap i) := by
    show (t.threads[i]?.bind Local.made).isSome
    rw [hti]
    rfl
  obtain ⟨t', hx', -⟩ := ht.step hready
  have hx := hx'
  -- the store of the coarser machine gives the world that is already there
  have hstore : t.w.putLString t.str { slot := ns } = s.w := by
    rw [h.world, h.str]
    unfold World.putLString
    rw [Function.update_idem, ← h.cur, Function.update_eq_self]
  unfold SlotState.step World.swapSlot at hx
  simp only [hti, h.lstring, hstore, Option.bind_eq_bind, Option.bind_some, Local.made_fresh] at hx
  obtain ⟨⟨q, v⟩, hdec', hx⟩ := Option.bind_eq_some_iff.mp hx
  obtain ⟨⟨r, w'⟩, hdec, heq⟩ := Option.bind_eq_some_iff.mp hdec'
  simp only [Option.pure_def, Option.some.injEq, Prod.mk.injEq] at heq hx
  obtain ⟨rfl, rfl⟩ := heq
  obtain ⟨-, rfl⟩ := hx
  have hexec : s.exec i (.swapDec ns old)
      = some ({ s with w := w' }.goto i (.swapUnlock old r)) := by
    unfold LockState.exec
    simp only [hdec, Option.bind_eq_bind, Option.bind_some, Option.pure_def]
  have hcur : w'.lstrings s.str = some { slot := ns } := by
    rw [World.decSlot_same hdec, h.cur]
  refine LockState.Shows.follows_one (c := ns) (d := ns) ht hready (LockState.step_next hi hexec)
    hx' ⟨h.str, ?_, hcur, ?_, h.lock.stay hi rfl, ?_, Or.inl ⟨rfl, hinst, ?_⟩⟩
  · show w' = w'.putLString s.str _
    unfold World.putLString
    rw [← hcur, Function.update_eq_self]
  · show t.threads.set i _ = (s.threads.set i _).map Pc.atomic
    rw [List.map_set, ← h.threads]
    rfl
  · intro z hz
    rcases h.lock.others hi rfl hz with rfl | hz
    · trivial
    · exact Pc.knows_of_outside hz _ _
  · intro z hz
    rcases h.lock.others hi rfl hz with rfl | hz
    · rfl
    · cases htorn : z.torn with
      | false => rfl
      | true => exact absurd (Pc.inside_of_torn htorn) (by rw [hz]; exact Bool.false_ne_true)

/-- A callback reads its slot. -/
theorem LockState.Shows.callback (h : s.Shows c d t) (ht : t.Inv)
    (hi : (s.threads[i]?.bind Pc.held).isSome) : s.Follows t (.callback i) := by
  obtain ⟨a, ha⟩ := Option.isSome_iff_exists.mp hi
  obtain ⟨x, hx, hxa⟩ := Option.bind_eq_some_iff.mp ha
  obtain rfl : x = .holding a := by
    cases x <;> first | exact congrArg Pc.holding (Option.some.inj hxa) | exact absurd hxa (by simp [Pc.held])
  have hti : t.threads[i]? = some (.holding a) := h.thread hx
  have hready : t.Ready (.callback i) := by
    show (t.threads[i]?.bind Local.held).isSome
    rw [hti]
    rfl
  have hx' := ht.toKept.callback hready
  have hslot := hx'
  unfold SlotState.step at hslot
  simp only [hti, Option.bind_eq_bind, Option.bind_some, Local.held_holding, h.slots] at hslot
  obtain ⟨sl, hsl, -⟩ := Option.bind_eq_some_iff.mp hslot
  refine LockState.Shows.follows_one ht hready ?_ hx' h
  unfold LockState.step
  simp only [ha, hsl, Option.bind_eq_bind, Option.bind_some]
  rfl

/-- Every step that comes next goes through, and the coarser machine follows. -/
theorem LockState.Related.step (h : s.Related t) {e : LockStep} (hready : s.Ready e) :
    s.Follows t e := by
  obtain ⟨⟨c, d, h⟩, ht⟩ := h
  cases e with
  | grab i =>
    have hready : s.threads[i]? = some .idle := hready
    exact (h.silent (y := .grabLock) hready (h.lock.stay hready rfl) rfl trivial rfl
      rfl).follows_silent ht rfl
  | update i ustr => exact h.update ht hready ustr
  | callback i => exact h.callback ht hready
  | next i =>
    obtain ⟨hsome, hidle⟩ : s.threads[i]? ≠ none ∧ s.threads[i]? ≠ some .idle := hready
    obtain ⟨x, hi⟩ := Option.ne_none_iff_exists'.mp hsome
    cases x with
    | idle => exact absurd hi hidle
    | grabLock => exact h.testAndSet (y := .grabLoad) ht hi rfl rfl trivial rfl rfl rfl
    | grabLoad =>
      -- inside and not torn, it loads the slot of the coarser machine
      obtain ⟨rfl, -⟩ := h.slot_eq hi rfl rfl
      have hx : s.exec i .grabLoad = some (s.goto i (.grabAdd d)) := by
        unfold LockState.exec
        rw [h.cur]
        rfl
      exact h.load ht hi hx rfl rfl rfl rfl rfl
    | grabAdd p => exact h.add ht hi
    | grabRet p =>
      have hp : p = c := h.knows _ (List.mem_of_getElem? hi)
      obtain ⟨rfl, -⟩ := h.slot_eq hi rfl rfl
      have hx : s.exec i (.grabRet p) = some (s.goto i (.grabUnlock d)) := by
        unfold LockState.exec
        rw [h.cur]
        rfl
      exact h.load ht hi hx (by rw [hp]; rfl) rfl rfl rfl rfl
    | grabUnlock ret => exact h.unlock (y := .holding ret) ht hi rfl rfl rfl rfl rfl rfl
    | holding a => exact h.release ht hi
    | swapLock ns => exact h.testAndSet (y := .swapLoad ns) ht hi rfl rfl trivial rfl rfl rfl
    | swapLoad ns =>
      obtain ⟨rfl, -⟩ := h.slot_eq hi rfl rfl
      have hx : s.exec i (.swapLoad ns) = some (s.goto i (.swapStore ns d)) := by
        unfold LockState.exec
        rw [h.cur]
        rfl
      exact h.load ht hi hx rfl rfl rfl rfl rfl
    | swapStore ns old => exact h.store ht hi
    | swapDec ns old => exact h.dec ht hi
    | swapUnlock old ref =>
      exact h.unlock (y := .after old ref) ht hi rfl (Pc.atomic_after old ref) rfl
        (Pc.inside_after old ref) rfl (Pc.torn_after old ref)
    | freeing a => exact h.free ht hi

/-! ## §4. Runs of instructions are runs of locked regions. -/

/-- With the lock free nobody is torn: both machines are in the same world. -/
theorem LockState.Shows.free_lock (h : s.Shows c d t) (hlock : s.lock = false) :
    t.w = s.w ∧ t.installed = s.installed ∧ ∀ x ∈ s.threads, x.inside = false := by
  have hex := h.lock
  rw [hlock] at hex
  have hout : ∀ x ∈ s.threads, x.inside = false := fun x hx => hex.outside hx
  rcases h.slot with ⟨rfl, hinst, -⟩ | ⟨-, k, hk⟩
  · refine ⟨?_, hinst.symm, hout⟩
    rw [h.world]
    unfold World.putLString
    rw [← h.cur, Function.update_eq_self]
  · exact absurd (hout _ (List.mem_of_getElem? hk)) (Ne.symm Bool.false_ne_true)

theorem LockState.start_related {w : World} (hw : w.Spent) (str : Bytes) {n : Nat}
    (hn : n ≤ 2147483646) :
    (LockState.start w str n).Related (SlotState.start w str n) := by
  have hidle : ∀ x ∈ (LockState.start w str n).threads, x = .idle :=
    fun x hx => List.eq_of_mem_replicate hx
  have hcur : (LockState.start w str n).w.lstrings w.brk = some ⟨w.brk + 1⟩ :=
    Function.update_self ..
  refine ⟨⟨w.brk + 1, w.brk + 1, rfl, ?_, hcur, ?_, .start ?_, ?_, Or.inl ⟨rfl, rfl, ?_⟩⟩,
    SlotState.start_inv hw str hn⟩
  · show w.withString str = (w.withString str).putLString w.brk _
    conv_rhs => unfold World.putLString
    rw [← hcur]
    exact (congrArg (fun f => { w.withString str with lstrings := f })
      (Function.update_eq_self w.brk (w.withString str).lstrings)).symm
  · show List.replicate n Local.idle = (List.replicate n Pc.idle).map Pc.atomic
    rw [List.map_replicate]
    rfl
  · intro x hx
    rw [hidle x hx]
    rfl
  · intro x hx
    rw [hidle x hx]
    trivial
  · intro x hx
    rw [hidle x hx]
    rfl

/-- Every run of instructions goes through, and is a run of the locked regions;
whenever the lock is free the two machines are in the same world. -/
theorem lockRuns_refine {w : World} (hw : w.Spent) {str : Bytes} {n : Nat}
    (hn : n ≤ 2147483646) {steps : List LockStep}
    (hready : Run.Along LockState.step LockState.Ready (LockState.start w str n) steps) :
    ∃ outs s es os t, Run.run LockState.step (LockState.start w str n) steps = some (outs, s)
      ∧ Run.Along SlotState.step SlotState.Ready (SlotState.start w str n) es
      ∧ Run.run SlotState.step (SlotState.start w str n) es = some (os, t)
      ∧ t.threads = s.threads.map Pc.atomic
      ∧ (s.lock = false → t.w = s.w ∧ t.installed = s.installed) := by
  obtain ⟨outs, s, es, os, t, hrun, hes, hrun', ⟨c, d, h⟩, -⟩ :=
    Run.run_sim_many LockState.step SlotState.step (fun s t e h hr => LockState.Related.step h hr)
      (LockState.start_related hw str hn) hready
  refine ⟨outs, s, es, os, t, hrun, hes, hrun', h.threads, ?_⟩
  intro hlock
  obtain ⟨hworld, hinst, -⟩ := h.free_lock hlock
  exact ⟨hworld, hinst⟩

/-- A reader and a writer whose locked regions meet: the reader waits, and then
holds the new slot. -/
theorem lockRuns_refine_two :
    ∃ outs s es os t, Run.run LockState.step (LockState.start World.empty [97] 2)
        [.update 0 [98], .grab 1, .next 0, .next 0, .next 1, .next 0, .next 1, .next 0, .next 0,
          .next 1, .next 0, .next 1, .next 1, .next 1, .next 1, .callback 1] = some (outs, s)
      ∧ Run.Along SlotState.step SlotState.Ready (SlotState.start World.empty [97] 2) es
      ∧ Run.run SlotState.step (SlotState.start World.empty [97] 2) es = some (os, t)
      ∧ t.threads = s.threads.map Pc.atomic
      ∧ (s.lock = false → t.w = s.w ∧ t.installed = s.installed) :=
  lockRuns_refine (by intro a ha; exact absurd ha (by simp [World.empty])) (by decide) (by decide)

/-! ## §5. Safety, instruction by instruction. -/

/-- The callbacks that use a slot, plus one if the lstring names it. -/
def LockState.users (s : LockState) (a : Addr) : Nat :=
  holders Pc.held s.threads a + if s.w.lstrings s.str = some { slot := a } then 1 else 0

/-- One thread is inside at most; what callbacks use and what the lstring names
is there; the counts are right whenever the lock is free; and slots are freed
once, and all of them. -/
structure LockState.Safe (s : LockState) : Prop where
  exclusive : Exclusive Pc.inside s.lock s.threads
  held : ∀ a, Pc.holding a ∈ s.threads → (s.w.slots a).isSome ∧ a ∉ s.w.freed
  named : ∀ a, s.w.lstrings s.str = some { slot := a } → (s.w.slots a).isSome ∧ a ∉ s.w.freed
  count : s.lock = false → ∀ a ∈ s.installed, ∀ sl, s.w.slots a = some sl → sl.ref = s.users a
  once : ∀ a ∈ s.installed, s.w.freed.count a ≤ 1
  all : (∀ x ∈ s.threads, x = .idle) → ∀ a ∈ s.installed,
    s.w.lstrings s.str ≠ some { slot := a } → s.w.freed.count a = 1

/-- A slot that was made and not installed is there and was not freed. -/
theorem SlotState.Inv.made (h : t.Inv) {k : Nat} {a : Addr}
    (hk : t.threads[k]? = some (.fresh a)) : (t.w.slots a).isSome ∧ t.w.freed.count a = 0 := by
  have hview := (h.ok a).of_made (holders_pos Local.made (List.mem_of_getElem? hk) rfl)
  have href : (t.w.slots a).map StringSlot.ref = some 1 := congrArg SlotView.ref hview
  obtain ⟨sl, hsl, -⟩ := Option.map_eq_some_iff.mp href
  exact ⟨by rw [hsl]; rfl, congrArg SlotView.frees hview⟩

/-- The current slot is there and was not freed. -/
theorem SlotState.Inv.current (h : t.Inv) {a : Addr} (ha : t.w.lstrings t.str = some ⟨a⟩) :
    (t.w.slots a).isSome ∧ t.w.freed.count a = 0 := by
  have hone : (t.view a).current = 1 := by
    rw [SlotState.view_current ha, if_pos rfl]
  obtain ⟨sl, hsl, -⟩ := h.toKept.slot (a := a) (by omega)
  obtain ⟨-, -, -, -, hfrees⟩ := (h.ok a).used (by omega)
  exact ⟨by rw [hsl]; rfl, hfrees⟩

theorem LockState.Shows.freed (h : s.Shows c d t) : t.w.freed = s.w.freed := by
  rw [h.world]
  rfl

/-- Outside, the coarser machine has a thread where it is. -/
theorem Pc.held_atomic (h : x.inside = false) : x.atomic.held = x.held := by
  cases x <;> first | rfl | exact absurd h (Ne.symm Bool.false_ne_true)

theorem LockState.Shows.safe (h : s.Shows c d t) (ht : t.Inv) : s.Safe where
  exclusive := h.lock
  held := by
    intro a ha
    have hmem : Local.holding a ∈ t.threads := by
      rw [h.threads]
      exact List.mem_map_of_mem (f := Pc.atomic) ha
    rw [← h.slots, ← h.freed]
    exact ht.safe.held a hmem
  named := by
    intro a ha
    rw [h.cur, Option.some.injEq, LString.mk.injEq] at ha
    subst ha
    have hgo : (t.w.slots d).isSome ∧ t.w.freed.count d = 0 := by
      rcases h.slot with ⟨rfl, -, -⟩ | ⟨-, k, hk⟩
      · exact ht.current h.lstring
      · -- a torn lstring names a slot that is not installed yet
        exact ht.made (h.thread hk)
    rw [← h.slots, ← h.freed]
    exact ⟨hgo.1, List.count_eq_zero.mp hgo.2⟩
  count := by
    intro hlock a ha sl hsl
    obtain ⟨hworld, hinst, hout⟩ := h.free_lock hlock
    rw [ht.safe.count a (by rw [hinst]; exact ha) sl (by rw [h.slots]; exact hsl)]
    congr 1
    unfold SlotState.refs LockState.users SlotState.cur
    rw [hworld, h.str, h.threads, h.cur]
    congr 1
    · unfold holders
      rw [List.countP_map]
      refine List.countP_congr ?_
      intro x hx
      show decide (x.atomic.held = some a) = true ↔ _
      rw [Pc.held_atomic (hout x hx)]
    · simp only [Option.map_some, Option.some.injEq, LString.mk.injEq]
  once := by
    intro a ha
    rw [← h.freed]
    rcases h.slot with ⟨-, hinst, -⟩ | ⟨hinst, k, hk⟩
    · exact ht.safe.once a (by rw [← hinst]; exact ha)
    · rw [hinst] at ha
      rcases List.mem_cons.mp ha with rfl | ha
      · rw [(ht.made (h.thread hk)).2]
        exact Nat.zero_le 1
      · exact ht.safe.once a ha
  all := by
    intro hidle a ha hcur
    have hnone : ∀ x ∈ s.threads, x.torn = false := by
      intro x hx
      rw [hidle x hx]
      rfl
    rcases h.slot with ⟨rfl, hinst, -⟩ | ⟨-, k, hk⟩
    · have ha' : a ∈ t.installed := by
        rw [← hinst]
        exact ha
      have hmem : a ∈ t.w.freed := by
        refine ht.safe.all ?_ a ha' ?_
        · intro x hx
          rw [h.threads] at hx
          obtain ⟨y, hy, rfl⟩ := List.mem_map.mp hx
          rw [hidle y hy]
          rfl
        · intro hcur'
          apply hcur
          rw [SlotState.cur_eq h.lstring, Option.some.injEq] at hcur'
          rw [h.cur, hcur']
      have hpos := List.count_pos_iff.mpr hmem
      have hle := ht.safe.once a ha'
      rw [← h.freed]
      omega
    · exact absurd (hnone _ (List.mem_of_getElem? hk)) (Ne.symm Bool.false_ne_true)

/-- Every run of instructions goes through, without a failed assertion or an
access to a freed slot, and ends in a safe state. -/
theorem lockRuns_safe {w : World} (hw : w.Spent) {str : Bytes} {n : Nat}
    (hn : n ≤ 2147483646) {steps : List LockStep}
    (hready : Run.Along LockState.step LockState.Ready (LockState.start w str n) steps) :
    ∃ outs s, Run.run LockState.step (LockState.start w str n) steps = some (outs, s)
      ∧ s.Safe := by
  obtain ⟨outs, s, es, os, t, hrun, -, -, ⟨c, d, h⟩, ht⟩ :=
    Run.run_sim_many LockState.step SlotState.step (fun s t e h hr => LockState.Related.step h hr)
      (LockState.start_related hw str hn) hready
  exact ⟨outs, s, hrun, h.safe ht⟩

/-- Two threads replace the string while a third one reads it. -/
theorem lockRuns_safe_three :
    ∃ outs s, Run.run LockState.step (LockState.start World.empty [97] 3)
        [.update 0 [98], .update 1 [99], .grab 2, .next 2, .next 2, .next 0, .next 2, .next 2,
          .next 2, .callback 2, .next 1, .next 0, .next 1, .next 1, .next 1, .next 2, .next 1,
          .next 2] = some (outs, s) ∧ s.Safe :=
  lockRuns_safe (by intro a ha; exact absurd ha (by simp [World.empty])) (by decide) (by decide)

/-! ## §6. No deadlock. -/

/-- How many instructions a call still has to go. -/
def Pc.left : Pc → Nat
  | .idle => 0
  | .freeing _ => 1
  | .holding _ => 2
  | .grabUnlock _ => 3
  | .grabRet _ => 4
  | .grabAdd _ => 5
  | .grabLoad => 6
  | .grabLock => 7
  | .swapUnlock _ _ => 2
  | .swapDec _ _ => 3
  | .swapStore _ _ => 4
  | .swapLoad _ => 5
  | .swapLock _ => 6

/-- How many instructions all calls together still have to go. -/
def LockState.left (s : LockState) : Nat := (s.threads.map Pc.left).sum

theorem sum_map_set {P : Type} (f : P → Nat) : ∀ {pool : List P} {i : Nat} {x : P},
    pool[i]? = some x → ∀ y : P, ((pool.set i y).map f).sum + f x = (pool.map f).sum + f y
  | [], _, _, h, _ => by simp at h
  | z :: pool, 0, x, h, y => by
      obtain rfl : z = x := by simpa using h
      simp only [List.set_cons_zero, List.map_cons, List.sum_cons]
      omega
  | z :: pool, i + 1, x, h, y => by
      have hi : pool[i]? = some x := by simpa using h
      have ih := sum_map_set f hi y
      simp only [List.set_cons_succ, List.map_cons, List.sum_cons]
      omega

theorem Pc.left_after (a : Addr) (r : Int) : (Pc.after a r).left ≤ 1 := by
  unfold Pc.after
  split
  · exact Nat.zero_le 1
  · exact Nat.le_refl 1

/-- The thread is at its test-and-set. -/
def Pc.waits : Pc → Bool
  | .grabLock => true
  | .swapLock _ => true
  | _ => false

/-- An instruction brings its call on, unless it is a test-and-set that found
the lock taken. -/
theorem LockState.exec_left (hi : s.threads[i]? = some x) (hx : s.exec i x = some s')
    (hgo : x.waits = true → s.lock = false) : s'.left < s.left := by
  have hmove : ∀ y : Pc, s'.threads = s.threads.set i y → y.left < x.left → s'.left < s.left := by
    intro y hs' hlt
    have hsum := sum_map_set Pc.left hi y
    unfold LockState.left
    rw [hs']
    omega
  cases x with
  | idle => exact absurd hx (by simp [LockState.exec])
  | grabLock =>
    have hlock := hgo rfl
    unfold LockState.exec at hx
    rw [hlock] at hx
    obtain rfl := Option.some.inj hx
    exact hmove .grabLoad rfl (by decide)
  | grabLoad =>
    obtain ⟨ls, -, hx⟩ := Option.bind_eq_some_iff.mp hx
    obtain rfl := Option.some.inj hx
    exact hmove (.grabAdd ls.slot) rfl (Nat.lt_succ_self 5)
  | grabAdd p =>
    obtain ⟨sl, -, hx⟩ := Option.bind_eq_some_iff.mp hx
    have hx : (if 1 < asInt (sl.ref + 1) then
        some ({ s with w := s.w.putSlot p { sl with ref := asInt (sl.ref + 1) } }.goto i (.grabRet p))
        else none) = some s' := hx
    split at hx
    · obtain rfl := Option.some.inj hx
      exact hmove (.grabRet p) rfl (Nat.lt_succ_self 4)
    · exact absurd hx (by simp)
  | grabRet p =>
    obtain ⟨ls, -, hx⟩ := Option.bind_eq_some_iff.mp hx
    obtain rfl := Option.some.inj hx
    exact hmove (.grabUnlock ls.slot) rfl (Nat.lt_succ_self 3)
  | grabUnlock ret =>
    obtain rfl := Option.some.inj hx
    exact hmove (.holding ret) rfl (Nat.lt_succ_self 2)
  | holding a =>
    obtain ⟨⟨r, w'⟩, -, hx⟩ := Option.bind_eq_some_iff.mp hx
    obtain rfl := Option.some.inj hx
    exact hmove (.after a r) rfl (Nat.lt_succ_of_le (Pc.left_after a r))
  | swapLock ns =>
    have hlock := hgo rfl
    unfold LockState.exec at hx
    rw [hlock] at hx
    obtain rfl := Option.some.inj hx
    exact hmove (.swapLoad ns) rfl (Nat.lt_succ_self 5)
  | swapLoad ns =>
    obtain ⟨ls, -, hx⟩ := Option.bind_eq_some_iff.mp hx
    obtain rfl := Option.some.inj hx
    exact hmove (.swapStore ns ls.slot) rfl (Nat.lt_succ_self 4)
  | swapStore ns old =>
    obtain ⟨ls, -, hx⟩ := Option.bind_eq_some_iff.mp hx
    obtain rfl := Option.some.inj hx
    exact hmove (.swapDec ns old) rfl (Nat.lt_succ_self 3)
  | swapDec ns old =>
    obtain ⟨⟨r, w'⟩, -, hx⟩ := Option.bind_eq_some_iff.mp hx
    obtain rfl := Option.some.inj hx
    exact hmove (.swapUnlock old r) rfl (Nat.lt_succ_self 2)
  | swapUnlock old ref =>
    obtain rfl := Option.some.inj hx
    exact hmove (.after old ref) rfl (Nat.lt_succ_of_le (Pc.left_after old ref))
  | freeing a =>
    obtain ⟨w', -, hx⟩ := Option.bind_eq_some_iff.mp hx
    obtain rfl := Option.some.inj hx
    exact hmove .idle rfl (Nat.lt_succ_self 0)

/-- Unless every thread is between calls, some thread can go on: the one that
has the lock, or anyone when nobody has it. -/
theorem LockState.Shows.can_go (h : s.Shows c d t) (hbusy : ¬ ∀ x ∈ s.threads, x = .idle) :
    ∃ (i : Nat) (x : Pc), s.threads[i]? = some x ∧ x ≠ .idle ∧ (x.waits = true → s.lock = false) := by
  cases hl : s.lock with
  | true =>
    have hlock := h.lock
    rw [hl] at hlock
    obtain ⟨i, x, hi, hx⟩ := hlock.holder
    refine ⟨i, x, hi, ?_, ?_⟩
    · intro hidle
      rw [hidle] at hx
      exact absurd hx Bool.false_ne_true
    · intro hw
      cases x <;> first | exact absurd hw Bool.false_ne_true | exact absurd hx Bool.false_ne_true
  | false =>
    obtain ⟨x, hx⟩ := not_forall.mp hbusy
    obtain ⟨hmem, hidle⟩ := Classical.not_imp.mp hx
    obtain ⟨i, hi⟩ := List.getElem?_of_mem hmem
    exact ⟨i, x, hi, hidle, fun _ => rfl⟩

/-- From related states the calls can be run to their ends. -/
theorem LockState.Related.finish (h : s.Related t) :
    ∃ more outs s' t', (∀ e ∈ more, ∃ i, e = .next i)
      ∧ Run.Along LockState.step LockState.Ready s more
      ∧ Run.run LockState.step s more = some (outs, s') ∧ s'.Related t'
      ∧ ∀ x ∈ s'.threads, x = .idle := by
  induction hn : s.left using Nat.strongRecOn generalizing s t with
  | ind n ih =>
    by_cases hidle : ∀ x ∈ s.threads, x = .idle
    · exact ⟨[], [], s, t, fun e he => absurd he (by simp), trivial, rfl, h, hidle⟩
    · obtain ⟨⟨c, d, hshows⟩, -⟩ := id h
      obtain ⟨i, x, hi, hne, hgo⟩ := hshows.can_go hidle
      have hready : s.Ready (.next i) := by
        refine ⟨by rw [hi]; simp, ?_⟩
        rw [hi]
        exact fun heq => hne (Option.some.inj heq)
      obtain ⟨o, s₁, es, os, t₁, hstep, -, -, hrel⟩ := h.step hready
      have hexec : s.exec i x = some s₁ := by
        unfold LockState.step at hstep
        simp only [hi, Option.bind_eq_bind, Option.bind_some] at hstep
        obtain ⟨s₂, hs₂, hstep⟩ := Option.bind_eq_some_iff.mp hstep
        simp only [Option.pure_def, Option.some.injEq, Prod.mk.injEq] at hstep
        rw [hs₂, hstep.2]
      have hlt := LockState.exec_left hi hexec hgo
      obtain ⟨more, outs, s', t', hnext, halong, hrun, hrel', hdone⟩ :=
        ih s₁.left (by omega) hrel rfl
      refine ⟨.next i :: more, o :: outs, s', t', ?_, ⟨hready, ?_⟩,
        (Run.run_cons_some _).mpr ⟨o, s₁, outs, hstep, hrun, rfl⟩, hrel', hdone⟩
      · intro e he
        rcases List.mem_cons.mp he with rfl | he
        · exact ⟨i, rfl⟩
        · exact hnext e he
      · intro o' s₂ hs₂
        rw [hstep, Option.some.injEq, Prod.mk.injEq] at hs₂
        rw [← hs₂.2]
        exact halong

/-- No interleaving gets stuck: from every state that is reached, the calls
under way can be run to their ends, and then the lock is free and every slot
that was replaced is freed exactly once. -/
theorem lockRuns_finish {w : World} (hw : w.Spent) {str : Bytes} {n : Nat}
    (hn : n ≤ 2147483646) {steps : List LockStep}
    (hready : Run.Along LockState.step LockState.Ready (LockState.start w str n) steps) :
    ∃ outs s more outs' s', Run.run LockState.step (LockState.start w str n) steps = some (outs, s)
      ∧ (∀ e ∈ more, ∃ i, e = .next i) ∧ Run.Along LockState.step LockState.Ready s more
      ∧ Run.run LockState.step s more = some (outs', s') ∧ (∀ x ∈ s'.threads, x = .idle)
      ∧ s'.lock = false ∧ ∀ a ∈ s'.installed, s'.w.lstrings s'.str ≠ some { slot := a } →
        s'.w.freed.count a = 1 := by
  obtain ⟨outs, s, es, os, t, hrun, -, -, hrel⟩ :=
    Run.run_sim_many LockState.step SlotState.step (fun s t e h hr => LockState.Related.step h hr)
      (LockState.start_related hw str hn) hready
  obtain ⟨more, outs', s', t', hnext, halong, hrun', ⟨⟨c, d, h⟩, ht⟩, hidle⟩ := hrel.finish
  refine ⟨outs, s, more, outs', s', hrun, hnext, halong, hrun', hidle, ?_, (h.safe ht).all hidle⟩
  cases hl : s'.lock with
  | false => rfl
  | true =>
    have hlock := h.lock
    rw [hl] at hlock
    obtain ⟨i, x, hi, hx⟩ := hlock.holder
    rw [hidle x (List.mem_of_getElem? hi)] at hx
    exact absurd hx Bool.false_ne_true

/-- In the middle of two locked regions. -/
theorem lockRuns_finish_two :
    ∃ outs s more outs' s', Run.run LockState.step (LockState.start World.empty [97] 2)
        [.update 0 [98], .grab 1, .next 0, .next 1, .next 0, .next 1, .next 0] = some (outs, s)
      ∧ (∀ e ∈ more, ∃ i, e = .next i) ∧ Run.Along LockState.step LockState.Ready s more
      ∧ Run.run LockState.step s more = some (outs', s') ∧ (∀ x ∈ s'.threads, x = .idle)
      ∧ s'.lock = false ∧ ∀ a ∈ s'.installed, s'.w.lstrings s'.str ≠ some { slot := a } →
        s'.w.freed.count a = 1 :=
  lockRuns_finish (by intro a ha; exact absurd ha (by simp [World.empty])) (by decide) (by decide)

end LightTable
