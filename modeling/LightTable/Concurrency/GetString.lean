/-
  LightTable.Concurrency.GetString
  ────────────────────────────────
  `get_string` beside `set_string` on one key.

  `get_string` grabs the slot, takes the address of its buffer, releases the
  slot and returns the address.  While it holds the slot nobody frees it.  But
  a `set_string` that replaced the slot meanwhile makes the release the last
  one, so that `get_string` frees the slot itself; and one that replaces it
  after the release frees it at once (`Overtaken`).  Only without either is the
  buffer still there when `get_string` returns (`getString_live_iff`).

  The system is the one of `LightTable.Concurrency.StringSlot`.
-/
import LightTable.Concurrency.StringSlot

namespace LightTable

open RefCount

variable {s s' : SlotState} {e : SlotStep} {i j : Nat} {a : Addr}

/-! ## §1. One reader and its writers. -/

/-- The thread that takes the step. -/
def SlotStep.thread : SlotStep → Nat
  | .grab i => i
  | .callback i => i
  | .release i => i
  | .alloc i _ => i
  | .swap i => i
  | .free i => i

/-- A step of `set_string`, by another thread than `i`. -/
def SlotStep.Sets (i : Nat) : SlotStep → Prop
  | .alloc j _ => j ≠ i
  | .swap j => j ≠ i
  | .free j => j ≠ i
  | _ => False

/-- A step of the `set_string` calls or of the one `get_string` call, which is
thread `i`'s. -/
def SlotStep.Takes (i : Nat) (e : SlotStep) : Prop :=
  e.Sets i ∨ e = .grab i ∨ e = .release i ∨ e = .free i

/-- What one step of `get_string` or `set_string` can do to the threads, to the
lstring and to the log of what was freed. -/
structure SlotState.Moved (s : SlotState) (e : SlotStep) (s' : SlotState) : Prop where
  threads : ∃ y, s'.threads = s.threads.set e.thread y ∧ ∀ a, y = .holding a → ∃ k, e = .grab k
  freed : ∀ a ∈ s.w.freed, a ∈ s'.w.freed
  cur : (∀ k, e ≠ .swap k) → s'.cur = s.cur
  installed : ∀ a ∈ s.installed, a ∈ s'.installed
  grabbed : ∀ k a, e = .grab k → s.cur = some a → s'.threads = s.threads.set k (.holding a)
  released : ∀ k a sl, e = .release k → s.threads[k]? = some (.holding a) →
    s.w.slots a = some sl → s'.threads = s.threads.set k (Local.after a (asInt (sl.ref - 1)))
  swapped : ∀ k ns a sl, e = .swap k → s.threads[k]? = some (.fresh ns) → s.cur = some a →
    s.w.slots a = some sl →
    s'.cur = some ns ∧ s'.threads = s.threads.set k (Local.after a (asInt (sl.ref - 1)))
  gone : ∀ k a, e = .free k → s.threads[k]? = some (.freeing a) → a ∈ s'.w.freed

theorem Local.after_ne_holding (b : Addr) (r : Int) (a : Addr) : Local.after b r ≠ .holding a := by
  unfold Local.after
  split <;> simp

theorem SlotState.moved_of_step (hx : s.step e = some ((), s')) (hcb : ∀ k, e ≠ .callback k) :
    s.Moved e s' := by
  cases e with
  | callback k => exact absurd rfl (hcb k)
  | grab k =>
    obtain ⟨⟨b, w⟩, hgrab, hx⟩ := Option.bind_eq_some_iff.mp hx
    cases hx
    obtain ⟨⟨slot⟩, hls, hgrab⟩ := Option.bind_eq_some_iff.mp hgrab
    obtain ⟨sl, hsl, hgrab⟩ := Option.bind_eq_some_iff.mp hgrab
    -- the assertion of `_grab_string` held, or there would be no step
    have hw : b = slot ∧ w = s.w.putSlot slot { sl with ref := asInt (sl.ref + 1) } := by
      by_cases href : 1 < asInt (sl.ref + 1)
      · simp only [if_pos href] at hgrab
        cases hgrab
        exact ⟨rfl, rfl⟩
      · simp only [if_neg href] at hgrab
        exact absurd hgrab (by simp)
    obtain ⟨rfl, rfl⟩ := hw
    exact {
      threads := ⟨_, rfl, fun _ _ => ⟨k, rfl⟩⟩
      freed := fun _ ha => ha
      cur := fun _ => rfl
      installed := fun _ ha => ha
      grabbed := by
        intro k' a hk ha
        cases hk
        rw [SlotState.cur_eq hls] at ha
        cases ha
        rfl
      released := fun _ _ _ he => nomatch he
      swapped := fun _ _ _ _ he => nomatch he
      gone := fun _ _ he => nomatch he }
  | release k =>
    obtain ⟨b, hb, hx⟩ := Option.bind_eq_some_iff.mp hx
    obtain ⟨⟨ref, w⟩, hdec, hx⟩ := Option.bind_eq_some_iff.mp hx
    cases hx
    obtain ⟨sl, hsl, hdec⟩ := Option.bind_eq_some_iff.mp hdec
    cases hdec
    exact {
      threads := ⟨_, rfl, fun a ha => absurd ha (Local.after_ne_holding _ _ a)⟩
      freed := fun _ ha => ha
      cur := fun _ => rfl
      installed := fun _ ha => ha
      grabbed := fun _ _ he => nomatch he
      -- the reader lets go of the slot it was holding
      released := by
        intro k' a sl' hk ha hsl'
        cases hk
        rw [ha] at hb
        cases hb
        rw [hsl] at hsl'
        cases hsl'
        rfl
      swapped := fun _ _ _ _ he => nomatch he
      gone := fun _ _ he => nomatch he }
  | alloc k ustr =>
    cases hx
    exact {
      threads := ⟨_, rfl, fun a ha => absurd ha (by simp)⟩
      freed := fun _ ha => ha
      cur := fun _ => rfl
      installed := fun _ ha => ha
      grabbed := fun _ _ he => nomatch he
      released := fun _ _ _ he => nomatch he
      swapped := fun _ _ _ _ he => nomatch he
      gone := fun _ _ he => nomatch he }
  | swap k =>
    obtain ⟨ns, hns, hx⟩ := Option.bind_eq_some_iff.mp hx
    obtain ⟨⟨⟨old, ref⟩, w⟩, hswap, hx⟩ := Option.bind_eq_some_iff.mp hx
    cases hx
    obtain ⟨⟨slot⟩, hls, hswap⟩ := Option.bind_eq_some_iff.mp hswap
    obtain ⟨⟨ref', w'⟩, hdec, hswap⟩ := Option.bind_eq_some_iff.mp hswap
    cases hswap
    obtain ⟨sl, hsl, hdec⟩ := Option.bind_eq_some_iff.mp hdec
    cases hdec
    have hsl : s.w.slots slot = some sl := hsl
    exact {
      threads := ⟨_, rfl, fun a ha => absurd ha (Local.after_ne_holding _ _ a)⟩
      freed := fun _ ha => ha
      cur := fun hne => absurd rfl (hne k)
      installed := fun _ ha => List.mem_cons_of_mem ns ha
      grabbed := fun _ _ he => nomatch he
      released := fun _ _ _ he => nomatch he
      -- the lstring gets the fresh slot, and the old one loses the lstring
      swapped := by
        intro k' ns' a sl' hk hns' ha hsl'
        cases hk
        rw [hns'] at hns
        cases hns
        rw [SlotState.cur_eq hls] at ha
        cases ha
        rw [hsl] at hsl'
        cases hsl'
        refine ⟨?_, rfl⟩
        show (Function.update s.w.lstrings s.str (some { slot := ns }) s.str).map LString.slot = _
        rw [Function.update_self]
        rfl
      gone := fun _ _ he => nomatch he }
  | free k =>
    obtain ⟨b, hb, hx⟩ := Option.bind_eq_some_iff.mp hx
    obtain ⟨w, hfree, hx⟩ := Option.bind_eq_some_iff.mp hx
    cases hx
    obtain ⟨sl, hsl, hfree⟩ := Option.bind_eq_some_iff.mp hfree
    cases hfree
    exact {
      threads := ⟨_, rfl, fun a ha => absurd ha (by simp)⟩
      freed := fun _ ha => List.mem_cons_of_mem b ha
      cur := fun _ => rfl
      installed := fun _ ha => ha
      grabbed := fun _ _ he => nomatch he
      released := fun _ _ _ he => nomatch he
      swapped := fun _ _ _ _ he => nomatch he
      gone := by
        intro k' a hk ha
        cases hk
        rw [ha] at hb
        cases hb
        exact List.mem_cons_self }

/-- In order, and no thread but `i` holds a slot. -/
structure SlotState.OneReader (s : SlotState) (i : Nat) : Prop where
  kept : s.Kept
  alone : ∀ j a, s.threads[j]? = some (.holding a) → j = i

/-- One reader is at most one holder. -/
theorem SlotState.OneReader.held_le (h : s.OneReader i) (a : Addr) : (s.view a).held ≤ 1 := by
  -- without the reader nobody holds anything
  have hrest : holders Local.held (s.threads.set i .idle) a = 0 := by
    apply holders_eq_zero
    intro x hx
    obtain ⟨j, hj⟩ := List.mem_iff_getElem?.mp hx
    rw [List.getElem?_set] at hj
    split at hj
    next heq =>
      split at hj
      next => cases hj; simp
      next => exact absurd hj (by simp)
    next hne =>
      cases x with
      | holding b => exact absurd (h.alone j b hj) (Ne.symm hne)
      | idle => simp
      | fresh b => simp
      | freeing b => simp
  show holders Local.held s.threads a ≤ 1
  cases hi : s.threads[i]? with
  | none =>
    have hsame : s.threads.set i .idle = s.threads := by
      apply List.set_eq_of_length_le
      exact List.getElem?_eq_none_iff.mp hi
    rw [hsame] at hrest
    omega
  | some x =>
    have hset := holders_set Local.held hi .idle a
    have hnone : ¬ ((none : Option Addr) = some a) := by simp
    rw [hrest, Local.held_idle, if_neg hnone] at hset
    split at hset <;> omega

/-- The steps go through and keep to one reader. -/
theorem SlotState.OneReader.step (h : s.OneReader i) (he : e.Takes i) (hready : s.Ready e) :
    ∃ s', s.step e = some ((), s') ∧ s'.OneReader i ∧ s.Moved e s' := by
  have hfew : ∀ a, (s.view a).held ≤ 2147483646 := by
    intro a
    have := h.held_le a
    omega
  have hgo : ∃ s', s.step e = some ((), s') ∧ s'.Kept ∧ s'.threads.length = s.threads.length := by
    cases e with
    | callback k => rcases he with he | he | he | he <;> exact nomatch he
    | grab k =>
      apply h.kept.grab hready
      intro a
      have := h.held_le a
      omega
    | release k => exact h.kept.release hready hfew
    | alloc k ustr => exact h.kept.alloc hready ustr
    | swap k => exact h.kept.swap hready hfew
    | free k => exact h.kept.free hready
  obtain ⟨s', hstep, hkept, -⟩ := hgo
  have hcb : ∀ k, e ≠ .callback k := by
    rintro k rfl
    rcases he with he | he | he | he <;> exact nomatch he
  have hmoved := SlotState.moved_of_step hstep hcb
  refine ⟨s', hstep, ⟨hkept, ?_⟩, hmoved⟩
  intro j a hj
  obtain ⟨y, hthreads, hy⟩ := hmoved.threads
  rw [hthreads, List.getElem?_set] at hj
  split at hj
  next heq =>
    split at hj
    next =>
      -- only a grab makes a holder, and only thread `i` grabs
      cases hj
      obtain ⟨k, hk⟩ := hy a rfl
      subst hk
      rcases he with he | he | he | he
      · exact he.elim
      · cases he
        exact heq.symm
      · exact nomatch he
      · exact nomatch he
    next => exact absurd hj (by simp)
  next => exact h.alone j a hj

/-! ## §2. Runs. -/

theorem SlotState.OneReader.run {steps : List SlotStep} :
    ∀ {s : SlotState}, s.OneReader i → (∀ e ∈ steps, e.Takes i) →
      Run.Along SlotState.step SlotState.Ready s steps →
      ∃ outs s', Run.run SlotState.step s steps = some (outs, s') ∧ s'.OneReader i := by
  induction steps with
  | nil =>
    intro s h _ _
    exact ⟨[], s, rfl, h⟩
  | cons e steps ih =>
    intro s h he hready
    obtain ⟨s₁, h₁, hone, -⟩ := h.step (he e List.mem_cons_self) hready.1
    obtain ⟨outs, s', hrun, hone'⟩ :=
      ih hone (fun x hx => he x (List.mem_cons_of_mem e hx)) (hready.2 () s₁ h₁)
    exact ⟨() :: outs, s', (Run.run_cons_some _).mpr ⟨(), s₁, outs, h₁, hrun, rfl⟩, hone'⟩

/-- What every step of a kind keeps, a run of such steps keeps. -/
theorem SlotState.OneReader.run_keeps {I : SlotState → Prop} {Q : SlotStep → Prop}
    {steps : List SlotStep} {outs : List Unit} (h : s.OneReader i)
    (hkeep : ∀ s e s', s.OneReader i → I s → s.Ready e → Q e → s.Moved e s' → I s')
    (hI : I s) (hsteps : ∀ e ∈ steps, e.Takes i ∧ Q e)
    (hready : Run.Along SlotState.step SlotState.Ready s steps)
    (hrun : Run.run SlotState.step s steps = some (outs, s')) : I s' := by
  refine (Run.run_inv_along SlotState.step (I := fun s => s.OneReader i ∧ I s)
    (G := fun s e => s.Ready e ∧ e.Takes i ∧ Q e) ?_ ⟨h, hI⟩
    (Run.along_and_mem _ hready hsteps) hrun).2
  intro s e o s' ⟨hone, hi⟩ ⟨hr, htakes, hq⟩ hstep
  obtain ⟨s₁, h₁, hone', hmoved⟩ := hone.step htakes hr
  have hstep : s.step e = some ((), s') := hstep
  rw [h₁, Option.some.injEq] at hstep
  cases hstep
  exact ⟨hone', hkeep s e _ hone hi hr hq hmoved⟩

/-- Without a swap the slot stays current. -/
theorem SlotState.OneReader.run_cur {steps : List SlotStep} {outs : List Unit} (h : s.OneReader i)
    (hsteps : ∀ e ∈ steps, e.Takes i ∧ ∀ k, e ≠ .swap k) (ha : s.cur = some a)
    (hready : Run.Along SlotState.step SlotState.Ready s steps)
    (hrun : Run.run SlotState.step s steps = some (outs, s')) : s'.cur = some a := by
  refine h.run_keeps (I := fun s => s.cur = some a) ?_ ha hsteps hready hrun
  intro s e s' _ hcur _ hne hmoved
  rw [hmoved.cur hne]
  exact hcur

/-- What was freed stays freed. -/
theorem SlotState.OneReader.run_freed {steps : List SlotStep} {outs : List Unit}
    (h : s.OneReader i) (hsteps : ∀ e ∈ steps, e.Takes i) (ha : a ∈ s.w.freed)
    (hready : Run.Along SlotState.step SlotState.Ready s steps)
    (hrun : Run.run SlotState.step s steps = some (outs, s')) : a ∈ s'.w.freed := by
  refine h.run_keeps (I := fun s => a ∈ s.w.freed) (Q := fun _ => True) ?_ ha
    (fun e he => ⟨hsteps e he, trivial⟩) hready hrun
  intro s e s' _ hfreed _ _ hmoved
  exact hmoved.freed a hfreed

/-- The threads that take no step are where they were. -/
theorem SlotState.Moved.thread_ne (h : s.Moved e s') (hj : e.thread ≠ j) :
    s'.threads[j]? = s.threads[j]? := by
  obtain ⟨y, hthreads, -⟩ := h.threads
  rw [hthreads]
  exact List.getElem?_set_ne hj

/-- A thread that has a slot to free takes no other step. -/
theorem SlotState.Moved.freeing (h : s.Moved e s') (htakes : e.Takes i) (hready : s.Ready e)
    (hj : s.threads[j]? = some (.freeing a)) (he : e ≠ .free j) :
    s'.threads[j]? = some (.freeing a) := by
  rw [h.thread_ne, hj]
  rintro rfl
  cases e with
  | callback k => rcases htakes with he | he | he | he <;> exact nomatch he
  | grab k => exact absurd (hj.symm.trans hready) (by simp)
  | release k =>
    have hready : (s.threads[k]?.bind Local.held).isSome := hready
    have hj : s.threads[k]? = some (.freeing a) := hj
    rw [hj] at hready
    exact absurd hready (by simp)
  | alloc k ustr => exact absurd (hj.symm.trans hready) (by simp)
  | swap k =>
    have hready : (s.threads[k]?.bind Local.made).isSome := hready
    have hj : s.threads[k]? = some (.freeing a) := hj
    rw [hj] at hready
    exact absurd hready (by simp)
  | free k => exact he rfl

/-- A slot that a thread has to free is freed by the end of a run exactly when
the thread gets to its `free`. -/
theorem SlotState.OneReader.run_freeing {steps : List SlotStep} :
    ∀ {s : SlotState} {outs : List Unit}, s.OneReader i → (∀ e ∈ steps, e.Takes i) →
      s.threads[j]? = some (.freeing a) →
      Run.Along SlotState.step SlotState.Ready s steps →
      Run.run SlotState.step s steps = some (outs, s') →
      (.free j ∈ steps → a ∈ s'.w.freed)
        ∧ (.free j ∉ steps → s'.threads[j]? = some (.freeing a)) := by
  induction steps with
  | nil =>
    intro s outs _ _ hj _ hrun
    simp only [Run.run_nil, Option.some.injEq, Prod.mk.injEq] at hrun
    rw [← hrun.2]
    exact ⟨fun hmem => absurd hmem (by simp), fun _ => hj⟩
  | cons e steps ih =>
    intro s outs h he hj hready hrun
    obtain ⟨s₁, h₁, hone, hmoved⟩ := h.step (he e List.mem_cons_self) hready.1
    obtain ⟨o, s₂, outs', h₂, hrest, -⟩ := (Run.run_cons_some _).mp hrun
    rw [h₁, Option.some.injEq, Prod.mk.injEq] at h₂
    obtain ⟨-, rfl⟩ := h₂
    have hsteps : ∀ x ∈ steps, x.Takes i := fun x hx => he x (List.mem_cons_of_mem e hx)
    by_cases hfree : e = .free j
    · -- the thread frees now, and a freed slot stays freed
      refine ⟨fun _ => ?_, fun hmem => absurd (by rw [hfree]; exact List.mem_cons_self) hmem⟩
      exact hone.run_freed hsteps (hmoved.gone j a hfree hj) (hready.2 () s₁ h₁) hrest
    · -- another step leaves the thread where it is
      have hj₁ := hmoved.freeing (he e List.mem_cons_self) hready.1 hj hfree
      obtain ⟨hyes, hno⟩ := ih hone hsteps hj₁ (hready.2 () s₁ h₁) hrest
      refine ⟨fun hmem => hyes ?_, fun hmem => hno ?_⟩
      · exact (List.mem_cons.mp hmem).resolve_left (Ne.symm hfree)
      · exact fun hmem' => hmem (List.mem_cons_of_mem e hmem')

/-- A slot that was replaced is not installed again. -/
theorem SlotState.OneReader.run_replaced {steps : List SlotStep} {outs : List Unit}
    (h : s.OneReader i) (hsteps : ∀ e ∈ steps, e.Takes i)
    (ha : a ∈ s.installed ∧ s.cur ≠ some a)
    (hready : Run.Along SlotState.step SlotState.Ready s steps)
    (hrun : Run.run SlotState.step s steps = some (outs, s')) :
    a ∈ s'.installed ∧ s'.cur ≠ some a := by
  refine h.run_keeps (I := fun s => a ∈ s.installed ∧ s.cur ≠ some a) (Q := fun _ => True) ?_ ha
    (fun e he => ⟨hsteps e he, trivial⟩) hready hrun
  intro s e s' hone ⟨hinst, hcur⟩ hr _ hmoved
  refine ⟨hmoved.installed a hinst, ?_⟩
  by_cases hswap : ∃ k, e = .swap k
  · obtain ⟨k, rfl⟩ := hswap
    obtain ⟨ns, hns⟩ := Local.of_made hr
    obtain ⟨c, hc⟩ := hone.kept.cur
    obtain ⟨sl, hsl, -⟩ := hone.kept.slot (a := c) (by rw [SlotState.view_current hc]; simp)
    obtain ⟨hnew, -⟩ := hmoved.swapped k ns c sl rfl hns (SlotState.cur_eq hc) hsl
    -- the slot that is swapped in was never installed
    have hview := (hone.kept.ok ns).of_made (holders_pos Local.made (List.mem_of_getElem? hns) rfl)
    have hzero : s.installed.count ns = 0 := congrArg SlotView.installed hview
    rw [hnew]
    intro heq
    cases heq
    exact absurd hinst (List.count_eq_zero.mp hzero)
  · rw [hmoved.cur (fun k hk => hswap ⟨k, hk⟩)]
    exact hcur

/-! ## §3. The interleaving. -/

/-- One `get_string` call of thread `i` among `set_string` calls of the others:
what happens before its grab, between its grab and its decrement, and from
there until it returns. -/
structure GetCall (i : Nat) (before between after : List SlotStep) : Prop where
  before : ∀ e ∈ before, e.Sets i
  between : ∀ e ∈ between, e.Sets i
  after : ∀ e ∈ after, e.Sets i ∨ e = .free i

/-- The whole interleaving. -/
def getSteps (i : Nat) (before between after : List SlotStep) : List SlotStep :=
  before ++ .grab i :: (between ++ .release i :: after)

/-- The thread of the first swap, and the steps behind it. -/
def firstSwap : List SlotStep → Option (Nat × List SlotStep)
  | [] => none
  | .swap j :: rest => some (j, rest)
  | _ :: rest => firstSwap rest

/-- A `set_string` replaced the slot while `get_string` held it, or replaced it
later and got to its `free`. -/
def Overtaken (between after : List SlotStep) : Prop :=
  (firstSwap between).isSome ∨ ∃ j rest, firstSwap after = some (j, rest) ∧ .free j ∈ rest

theorem firstSwap_none {steps : List SlotStep} (h : firstSwap steps = none) :
    ∀ e ∈ steps, ∀ k, e ≠ .swap k := by
  induction steps with
  | nil => exact fun e he => absurd he (by simp)
  | cons x steps ih =>
    intro e he k
    cases x with
    | swap j => exact absurd h (by simp [firstSwap])
    | _ =>
      rcases List.mem_cons.mp he with rfl | he
      · exact fun heq => nomatch heq
      · exact ih h e he k

theorem firstSwap_some {steps : List SlotStep} {rest : List SlotStep}
    (h : firstSwap steps = some (j, rest)) :
    ∃ front, steps = front ++ .swap j :: rest ∧ ∀ e ∈ front, ∀ k, e ≠ .swap k := by
  induction steps with
  | nil => exact absurd h (by simp [firstSwap])
  | cons x steps ih =>
    cases x with
    | swap j' =>
      cases h
      exact ⟨[], rfl, fun e he => absurd he (by simp)⟩
    | _ =>
      obtain ⟨front, rfl, hfront⟩ := ih h
      refine ⟨_ :: front, rfl, ?_⟩
      intro e he k
      rcases List.mem_cons.mp he with rfl | he
      · exact fun heq => nomatch heq
      · exact hfront e he k

/-! ## §4. The call, part by part. -/

theorem SlotStep.Sets.takes (h : e.Sets i) : e.Takes i := Or.inl h

theorem SlotStep.Sets.thread_ne (h : e.Sets i) : e.thread ≠ i := by
  cases e with
  | alloc j ustr => exact h
  | swap j => exact h
  | free j => exact h
  | grab j => exact h.elim
  | callback j => exact h.elim
  | release j => exact h.elim

/-- While it holds the slot, the other threads leave it the holder. -/
theorem SlotState.OneReader.run_thread {steps : List SlotStep} {outs : List Unit} {x : Local}
    (h : s.OneReader i) (hsteps : ∀ e ∈ steps, e.Sets i) (hi : s.threads[i]? = some x)
    (hready : Run.Along SlotState.step SlotState.Ready s steps)
    (hrun : Run.run SlotState.step s steps = some (outs, s')) : s'.threads[i]? = some x := by
  refine h.run_keeps (I := fun s => s.threads[i]? = some x) (Q := fun e => e.Sets i) ?_ hi
    (fun e he => ⟨(hsteps e he).takes, hsteps e he⟩) hready hrun
  intro s e s' _ hx _ hsets hmoved
  rw [hmoved.thread_ne hsets.thread_ne]
  exact hx

/-- Once it let go, the reader stays between calls. -/
theorem SlotState.OneReader.run_idle {steps : List SlotStep} {outs : List Unit}
    (h : s.OneReader i) (hsteps : ∀ e ∈ steps, e.Sets i ∨ e = .free i)
    (hi : s.threads[i]? = some .idle)
    (hready : Run.Along SlotState.step SlotState.Ready s steps)
    (hrun : Run.run SlotState.step s steps = some (outs, s')) : s'.threads[i]? = some .idle := by
  refine h.run_keeps (I := fun s => s.threads[i]? = some .idle)
    (Q := fun e => e.Sets i ∨ e = .free i) ?_ hi
    (fun e he => ⟨(hsteps e he).elim Or.inl (fun hf => Or.inr (Or.inr (Or.inr hf))), hsteps e he⟩)
    hready hrun
  intro s e s' _ hx hr hq hmoved
  rcases hq with hsets | rfl
  · rw [hmoved.thread_ne hsets.thread_ne]
    exact hx
  · have hr : (s.threads[i]?.bind Local.dead).isSome := hr
    rw [hx] at hr
    exact absurd hr (by simp)

/-- The decrement: the reader is done while the slot is current, and has it to
free when it was replaced. -/
theorem SlotState.OneReader.release (h : s.OneReader i) (hi : s.threads[i]? = some (.holding a))
    (hmoved : s.Moved (.release i) s') :
    s'.threads[i]? = some (if s.cur = some a then .idle else .freeing a) := by
  have hlt : i < s.threads.length := (List.getElem?_eq_some_iff.mp hi).1
  have hpos := SlotState.held_pos hi
  have hle := h.held_le a
  obtain ⟨sl, hsl, href⟩ := h.kept.slot (a := a) (by omega)
  have hheld : (s.view a).held = 1 := by omega
  have hcur : (s.view a).current = if s.cur = some a then 1 else 0 := rfl
  rw [hmoved.released i a sl rfl hi hsl, List.getElem?_set_self hlt, href, hheld, hcur]
  by_cases hc : s.cur = some a
  · rw [if_pos hc, if_pos hc]
    rfl
  · rw [if_neg hc, if_neg hc]
    rfl

/-- A swap of a slot that nobody holds leaves it to the swapping thread. -/
theorem SlotState.OneReader.swap (h : s.OneReader i) (hi : s.threads[i]? = some .idle)
    (ha : s.cur = some a) (hready : s.Ready (.swap j)) (hmoved : s.Moved (.swap j) s') :
    s'.threads[j]? = some (.freeing a) := by
  obtain ⟨ns, hns⟩ := Local.of_made hready
  have hlt : j < s.threads.length := (List.getElem?_eq_some_iff.mp hns).1
  have hzero : (s.view a).held = 0 := by
    apply holders_eq_zero
    intro x hx
    obtain ⟨k, hk⟩ := List.mem_iff_getElem?.mp hx
    cases x with
    | holding b =>
      have hki : k = i := h.alone k b hk
      rw [hki, hi] at hk
      exact absurd hk (by simp)
    | idle => simp
    | fresh b => simp
    | freeing b => simp
  have hcur : (s.view a).current = 1 := if_pos ha
  obtain ⟨sl, hsl, href⟩ := h.kept.slot (a := a) (by omega)
  rw [(hmoved.swapped j ns a sl rfl hns ha hsl).2, List.getElem?_set_self hlt, href, hzero, hcur]
  rfl

/-- A run with a swap in it replaces the slot for good. -/
theorem SlotState.OneReader.run_swapped {steps rest : List SlotStep} {outs : List Unit}
    (h : s.OneReader i) (hsteps : ∀ e ∈ steps, e.Takes i)
    (hswap : firstSwap steps = some (j, rest)) (ha : s.cur = some a)
    (hready : Run.Along SlotState.step SlotState.Ready s steps)
    (hrun : Run.run SlotState.step s steps = some (outs, s')) : s'.cur ≠ some a := by
  obtain ⟨front, rfl, hfront⟩ := firstSwap_some hswap
  obtain ⟨outs₁, s₁, outs₂, hrun₁, hrun₂, -⟩ := (Run.run_append_some _).mp hrun
  have hready₁ := Run.along_take _ hready
  have hready₂ := Run.along_drop _ hready hrun₁
  have hmem₁ : ∀ e ∈ front, e.Takes i := fun e he => hsteps e (List.mem_append.mpr (Or.inl he))
  obtain ⟨_, s₁', hrun₁', hone₁⟩ := h.run hmem₁ hready₁
  rw [hrun₁, Option.some.injEq, Prod.mk.injEq] at hrun₁'
  obtain ⟨-, rfl⟩ := hrun₁'
  have hcur₁ := h.run_cur (fun e he => ⟨hmem₁ e he, hfront e he⟩) ha hready₁ hrun₁
  have hone : (s₁.view a).current = 1 := if_pos hcur₁
  obtain ⟨sl, hsl, -⟩ := hone₁.kept.slot (a := a) (by omega)
  obtain ⟨-, -, -, hinst, -⟩ := (hone₁.kept.ok a).used (by omega)
  have hmem : a ∈ s₁.installed := by
    apply List.count_pos_iff.mp
    show 0 < (s₁.view a).installed
    omega
  -- the swap puts in a slot that was never installed, and the rest keeps `a` out
  obtain ⟨s₂, hstep, hone₂, hmoved⟩ := hone₁.step (hsteps (.swap j) (by simp)) hready₂.1
  obtain ⟨o, s₂', outs₃, h₂, hrest, -⟩ := (Run.run_cons_some _).mp hrun₂
  rw [hstep, Option.some.injEq, Prod.mk.injEq] at h₂
  obtain ⟨-, rfl⟩ := h₂
  obtain ⟨ns, hns⟩ := Local.of_made hready₂.1
  have hview := (hone₁.kept.ok ns).of_made (holders_pos Local.made (List.mem_of_getElem? hns) rfl)
  have hzero : s₁.installed.count ns = 0 := congrArg SlotView.installed hview
  have hne : s₂.cur ≠ some a := by
    rw [(hmoved.swapped j ns a sl rfl hns hcur₁ hsl).1]
    intro heq
    cases heq
    exact absurd hmem (List.count_eq_zero.mp hzero)
  exact (hone₂.run_replaced (fun e he => hsteps e (by simp [he]))
    ⟨hmoved.installed a hmem, hne⟩ (hready₂.2 () s₂ hstep) hrest).2

/-- After the decrement on a slot that is still current. -/
theorem SlotState.OneReader.freed_after {after : List SlotStep} {outs : List Unit}
    (h : s.OneReader i) (hafter : ∀ e ∈ after, e.Sets i ∨ e = .free i)
    (hi : s.threads[i]? = some .idle) (ha : s.cur = some a)
    (hready : Run.Along SlotState.step SlotState.Ready s after)
    (hrun : Run.run SlotState.step s after = some (outs, s')) (hone : s'.OneReader i) :
    a ∈ s'.w.freed ↔ ∃ j rest, firstSwap after = some (j, rest) ∧ .free j ∈ rest := by
  have htakes : ∀ e ∈ after, e.Takes i :=
    fun e he => (hafter e he).elim Or.inl (fun hf => Or.inr (Or.inr (Or.inr hf)))
  cases hswap : firstSwap after with
  | none =>
    -- nobody replaced the slot, which is still the current one
    have hcur := h.run_cur (fun e he => ⟨htakes e he, firstSwap_none hswap e he⟩) ha hready hrun
    have hone' : (s'.view a).current = 1 := if_pos hcur
    have hfrees := ((hone.kept.ok a).used (by omega)).2.2.2.2
    constructor
    · intro hmem
      have hpos : 0 < (s'.view a).frees := List.count_pos_iff.mpr hmem
      omega
    · intro ⟨j, rest, hsome, _⟩
      exact absurd hsome (by simp)
  | some p =>
    obtain ⟨j, rest⟩ := p
    obtain ⟨front, rfl, hfront⟩ := firstSwap_some hswap
    obtain ⟨outs₁, s₁, outs₂, hrun₁, hrun₂, -⟩ := (Run.run_append_some _).mp hrun
    have hready₁ := Run.along_take _ hready
    have hready₂ := Run.along_drop _ hready hrun₁
    have hmem₁ : ∀ e ∈ front, e ∈ front ++ .swap j :: rest :=
      fun e he => List.mem_append.mpr (Or.inl he)
    obtain ⟨_, s₁', hrun₁', hone₁⟩ := h.run (fun e he => htakes e (hmem₁ e he)) hready₁
    rw [hrun₁, Option.some.injEq, Prod.mk.injEq] at hrun₁'
    obtain ⟨-, rfl⟩ := hrun₁'
    have hcur₁ := h.run_cur (fun e he => ⟨htakes e (hmem₁ e he), hfront e he⟩) ha hready₁ hrun₁
    have hidle₁ := h.run_idle (fun e he => hafter e (hmem₁ e he)) hi hready₁ hrun₁
    -- the first swap leaves the slot to its own thread
    obtain ⟨s₂, hstep, hone₂, hmoved⟩ := hone₁.step (htakes (.swap j) (by simp)) hready₂.1
    obtain ⟨o, s₂', outs₃, h₂, hrest, -⟩ := (Run.run_cons_some _).mp hrun₂
    rw [hstep, Option.some.injEq, Prod.mk.injEq] at h₂
    obtain ⟨-, rfl⟩ := h₂
    have hfreeing := hone₁.swap hidle₁ hcur₁ hready₂.1 hmoved
    have hmem₂ : ∀ e ∈ rest, e.Takes i := fun e he => htakes e (by simp [he])
    obtain ⟨hyes, hno⟩ := hone₂.run_freeing hmem₂ hfreeing (hready₂.2 () s₂ hstep) hrest
    constructor
    · intro hmem
      refine ⟨j, rest, rfl, ?_⟩
      by_contra hnot
      have hview := (hone.kept.ok a).of_dead
        (holders_pos Local.dead (List.mem_of_getElem? (hno hnot)) rfl)
      have hfrees : s'.w.freed.count a = 0 := congrArg SlotView.frees hview
      exact absurd hmem (List.count_eq_zero.mp hfrees)
    · intro ⟨j', rest', hsome, hmem⟩
      cases hsome
      exact hyes hmem

/-- The slot whose buffer `get_string` returns was not freed by then exactly
when no `set_string` overtook the call. -/
theorem getString_live_iff {w : World} (hw : w.Spent) (str : Bytes) (n : Nat)
    {before between after : List SlotStep} (hcall : GetCall i before between after)
    (hready : Run.Along SlotState.step SlotState.Ready (SlotState.start w str n)
      (getSteps i before between after)) :
    ∃ outs₀ s₀ a outs s', Run.run SlotState.step (SlotState.start w str n) before = some (outs₀, s₀)
      ∧ s₀.cur = some a
      ∧ Run.run SlotState.step (SlotState.start w str n) (getSteps i before between after)
          = some (outs, s')
      ∧ (s'.threads[i]? = some .idle → (a ∉ s'.w.freed ↔ ¬ Overtaken between after)) := by
  have hstart : (SlotState.start w str n).OneReader i := by
    refine ⟨SlotState.start_kept hw str n, ?_⟩
    intro j a hj
    have hmem : Local.holding a ∈ List.replicate n Local.idle := List.mem_of_getElem? hj
    exact absurd (List.eq_of_mem_replicate hmem) (by simp)
  have hafter : ∀ e ∈ after, e.Takes i :=
    fun e he => (hcall.after e he).elim Or.inl (fun hf => Or.inr (Or.inr (Or.inr hf)))
  -- before the grab
  have hready₀ : Run.Along SlotState.step SlotState.Ready (SlotState.start w str n) before :=
    Run.along_take _ hready
  obtain ⟨outs₀, s₀, hrun₀, hone₀⟩ := hstart.run (fun e he => (hcall.before e he).takes) hready₀
  have hready₁ := Run.along_drop _ hready hrun₀
  obtain ⟨a, ha⟩ := hone₀.kept.cur
  have hcur₀ : s₀.cur = some a := SlotState.cur_eq ha
  -- the grab
  obtain ⟨s₁, hgrab, hone₁, hmoved₁⟩ := hone₀.step (Or.inr (Or.inl rfl)) hready₁.1
  have hlt : i < s₀.threads.length := (List.getElem?_eq_some_iff.mp hready₁.1).1
  have hhold₁ : s₁.threads[i]? = some (.holding a) := by
    rw [hmoved₁.grabbed i a rfl hcur₀]
    exact List.getElem?_set_self hlt
  have hcur₁ : s₁.cur = some a := (hmoved₁.cur (fun k hk => nomatch hk)).trans hcur₀
  have hready₁' := hready₁.2 () s₁ hgrab
  -- while the slot is held
  obtain ⟨outs₂, s₂, hrun₂, hone₂⟩ :=
    hone₁.run (fun e he => (hcall.between e he).takes) (Run.along_take _ hready₁')
  have hready₂ := Run.along_drop _ hready₁' hrun₂
  have hhold₂ := hone₁.run_thread hcall.between hhold₁ (Run.along_take _ hready₁') hrun₂
  -- the decrement, and what follows
  obtain ⟨s₃, hrel, hone₃, hmoved₃⟩ := hone₂.step (Or.inr (Or.inr (Or.inl rfl))) hready₂.1
  have hthread₃ := hone₂.release hhold₂ hmoved₃
  have hready₃ := hready₂.2 () s₃ hrel
  obtain ⟨outs₃, s', hrun₃, hone'⟩ := hone₃.run hafter hready₃
  have hheld : Run.run SlotState.step s₁ (between ++ .release i :: after)
      = some (outs₂ ++ () :: outs₃, s') := (Run.run_append_some _).mpr
    ⟨outs₂, s₂, _, hrun₂, (Run.run_cons_some _).mpr ⟨(), s₃, outs₃, hrel, hrun₃, rfl⟩, rfl⟩
  have hall : Run.run SlotState.step (SlotState.start w str n) (getSteps i before between after)
      = some (outs₀ ++ () :: (outs₂ ++ () :: outs₃), s') := (Run.run_append_some _).mpr
    ⟨outs₀, s₀, _, hrun₀, (Run.run_cons_some _).mpr ⟨(), s₁, _, hgrab, hheld, rfl⟩, rfl⟩
  refine ⟨outs₀, s₀, a, _, s', hrun₀, hcur₀, hall, ?_⟩
  intro hret
  cases hswap : firstSwap between with
  | none =>
    have hcur₂ : s₂.cur = some a := hone₁.run_cur
      (fun e he => ⟨(hcall.between e he).takes, firstSwap_none hswap e he⟩) hcur₁
      (Run.along_take _ hready₁') hrun₂
    have hcur₃ : s₃.cur = some a := (hmoved₃.cur (fun k hk => nomatch hk)).trans hcur₂
    rw [if_pos hcur₂] at hthread₃
    have hfreed := hone₃.freed_after hcall.after hthread₃ hcur₃ hready₃ hrun₃ hone'
    unfold Overtaken
    rw [hfreed, hswap]
    simp
  | some p =>
    -- the slot is no longer current, so that the reader has to free it
    obtain ⟨j, rest⟩ := p
    have hreplaced : s₂.cur ≠ some a := hone₁.run_swapped
      (fun e he => (hcall.between e he).takes) hswap hcur₁ (Run.along_take _ hready₁') hrun₂
    rw [if_neg hreplaced] at hthread₃
    obtain ⟨hyes, hno⟩ := hone₃.run_freeing hafter hthread₃ hready₃ hrun₃
    have hfree : SlotStep.free i ∈ after := by
      by_contra hnot
      rw [hno hnot] at hret
      exact absurd hret (by simp)
    have hover : Overtaken between after := Or.inl (by rw [hswap]; rfl)
    exact ⟨fun hnot => absurd (hyes hfree) hnot, fun hnot => absurd hover hnot⟩

/-- One `set_string` replaces the string before the grab, another one only
replaces it after the decrement and has its `free` still to come. -/
theorem getString_live_iff_late :
    ∃ outs₀ s₀ a outs s', Run.run SlotState.step (SlotState.start World.empty [97] 2)
        [.alloc 1 [98], .swap 1, .free 1] = some (outs₀, s₀) ∧ s₀.cur = some a
      ∧ Run.run SlotState.step (SlotState.start World.empty [97] 2)
          (getSteps 0 [.alloc 1 [98], .swap 1, .free 1] [.alloc 1 [99]] [.swap 1]) = some (outs, s')
      ∧ (s'.threads[0]? = some .idle → (a ∉ s'.w.freed ↔ ¬ Overtaken [.alloc 1 [99]] [.swap 1])) :=
  getString_live_iff (by intro a ha; exact absurd ha (by simp [World.empty])) [97] 2
    ⟨by simp [SlotStep.Sets], by simp [SlotStep.Sets], by simp [SlotStep.Sets]⟩ (by decide)

/-- A `set_string` replaces the string while `get_string` holds its slot: the
slot is freed before its address is returned. -/
theorem getString_returns_freed :
    ∃ outs₀ s₀ a outs s', GetCall 0 [] [.alloc 1 [98], .swap 1] [.free 0]
      ∧ Run.Along SlotState.step SlotState.Ready (SlotState.start World.empty [97] 2)
          (getSteps 0 [] [.alloc 1 [98], .swap 1] [.free 0])
      ∧ Run.run SlotState.step (SlotState.start World.empty [97] 2) [] = some (outs₀, s₀)
      ∧ s₀.cur = some a
      ∧ Run.run SlotState.step (SlotState.start World.empty [97] 2)
          (getSteps 0 [] [.alloc 1 [98], .swap 1] [.free 0]) = some (outs, s')
      ∧ s'.threads[0]? = some .idle ∧ a ∈ s'.w.freed := by
  have hend : (Run.run SlotState.step (SlotState.start World.empty [97] 2)
      (getSteps 0 [] [.alloc 1 [98], .swap 1] [.free 0])).map (fun x =>
        (x.2.threads[0]?, x.2.w.freed)) = some (some .idle, [2]) := by decide
  obtain ⟨⟨outs, s'⟩, hrun, hend⟩ := Option.map_eq_some_iff.mp hend
  simp only [Prod.mk.injEq] at hend
  refine ⟨[], _, 2, outs, s', ⟨by simp, by simp [SlotStep.Sets], by simp⟩, by decide, rfl, by decide,
    hrun, hend.1, ?_⟩
  rw [hend.2]
  exact List.mem_cons_self

end LightTable
