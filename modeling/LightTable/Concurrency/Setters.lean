/-
  LightTable.Concurrency.Setters
  ──────────────────────────────
  Threads that run setter calls on one table.

  A call of `set_number`, `set_boolean` or `set_ud` is one step.  `set_string`
  is two: its search, and then the locked `_insert_table` or `_update_string`
  that the search decided on.  The building of the new lstring between the two
  is part of the second step.

  A call takes effect at its last step.  So a run is the run of its calls, one
  at a time, in the order of their last steps, as long as no `set_string` acts
  on a search that has become wrong (`SetterState.Calm`).
-/
import LightTable.Table.FailedSet

namespace LightTable

variable {w w₀ : World} {t : Addr} {tb : Table} {m : LMap}

/-! ## §1. The two steps of a call. -/

/-- How far the first step of a call gets: it returns, or it is `set_string`
and goes on with what the search left in `tmp`. -/
inductive First where
  | returns (r : Int)
  | goesOn (tmp : Value)

/-- The first step of a call. -/
def World.first (w : World) (t : Addr) (c : SetCall) : Option (First × World) :=
  match c.arg with
  | .string _ => do
      let (tmp, w) ← w.searchTable t c.key c.tmp
      if tmp.type ≠ .string ∧ tmp.type ≠ .nil then return (.returns 1, w)
      else return (.goesOn tmp, w)
  | _ => do
      let (r, w) ← w.set t c
      return (.returns r, w)

/-- The second step of `set_string`: `_update_string` if the search found a
string, `_insert_table` of a new one if it found nothing. -/
def World.second (w : World) (t : Addr) (c : SetCall) (tmp : Value) : Option (Int × World) :=
  match c.arg with
  | .string str =>
      if tmp.type = .string then (w.updateString tmp.v str).map (fun w => (0, w))
      else w.insertString t c.key tmp str
  | _ => none

/-- A call whose steps follow each other is the call of `LightTable.Table.Def`. -/
theorem World.set_eq_steps (w : World) (t : Addr) (c : SetCall) :
    w.set t c = (w.first t c).bind (fun q =>
      match q.1 with
      | .returns r => some (r, q.2)
      | .goesOn tmp => q.2.second t c tmp) := by
  unfold World.first World.second
  cases harg : c.arg with
  | number n => cases w.set t c <;> rfl
  | boolean b => cases w.set t c <;> rfl
  | ud u => cases w.set t c <;> rfl
  | string str =>
    have hset : w.set t c = w.setString t c.key c.tmp str := by
      unfold World.set
      rw [harg]
    rw [hset]
    unfold World.setString
    cases w.searchTable t c.key c.tmp with
    | none => rfl
    | some q =>
      simp only [Option.bind_eq_bind, Option.bind_some, Option.pure_def]
      by_cases hs : q.1.type = .string
      · simp only [hs, if_true, ne_eq, not_true_eq_false, false_and, if_false, Option.bind_some]
        cases q.2.updateString q.1.v str <;> rfl
      · by_cases hn : q.1.type = .nil <;> simp [hs, hn]

/-! ## §2. The transition system. -/

/-- A thread: the calls to come, what the search of the first of them left if
it has been made, and the calls that returned, with their codes. -/
structure Caller where
  todo : List SetCall
  found : Option Value
  done : List (SetCall × Int)

/-- The world and the threads. -/
structure SetterState where
  w : World
  callers : List Caller

/-- The programs of the threads, before any step. -/
def SetterState.start (w : World) (progs : List (List SetCall)) : SetterState :=
  { w := w, callers := progs.map (fun p => { todo := p, found := none, done := [] }) }

/-- A call returned: the thread, the call and its code. -/
abbrev Return := Nat × SetCall × Int

/-- The thread `i` goes on after the return of its call. -/
def Caller.returned (x : Caller) (c : SetCall) (r : Int) : Caller :=
  { todo := x.todo.tail, found := none, done := x.done ++ [(c, r)] }

/-- One step of thread `i`; the output is the call that returned, if any. -/
def SetterState.step (t : Addr) (s : SetterState) (i : Nat) :
    Option (Option Return × SetterState) := do
  let x ← s.callers[i]?
  let c ← x.todo.head?
  match x.found with
  | none => do
      let (f, w) ← s.w.first t c
      match f with
      | .returns r =>
          return (some (i, c, r), { w := w, callers := s.callers.set i (x.returned c r) })
      | .goesOn tmp =>
          return (none, { w := w, callers := s.callers.set i { x with found := some tmp } })
  | some tmp => do
      let (r, w) ← s.w.second t c tmp
      return (some (i, c, r), { w := w, callers := s.callers.set i (x.returned c r) })

/-! ## §3. A serial order of the calls. -/

/-- The calls of thread `i` that returned, with their codes. -/
def SetterState.done (s : SetterState) (i : Nat) : List (SetCall × Int) :=
  (s.callers[i]?.map Caller.done).getD []

/-- What thread `i` has still to call. -/
def SetterState.todo (s : SetterState) (i : Nat) : List SetCall :=
  (s.callers[i]?.map Caller.todo).getD []

/-- The calls of thread `i` in a list of returns, in its order. -/
def returnsOf (log : List Return) (i : Nat) : List (SetCall × Int) :=
  (log.filter (fun e => e.1 == i)).map Prod.snd

/-- Some order of the calls that returned, which keeps each thread's own, gives
their codes when they are run one at a time, and the type and value of every
key. -/
def SetterState.Serial (t : Addr) (w₀ : World) (progs : List (List SetCall))
    (s : SetterState) : Prop :=
  ∃ (log : List Return) (w' : World),
    w₀.setAll t (log.map (fun e => e.2.1)) = some (log.map (fun e => e.2.2), w')
      ∧ (∀ i, returnsOf log i = s.done i)
      ∧ (∀ i, (s.done i).map Prod.fst ++ s.todo i = progs.getD i [])
      ∧ ∀ key, w'.readBack t key = s.w.readBack t key

/-- The call of thread `i` that is between its two steps, with the result of
its search. -/
def SetterState.pending (s : SetterState) (i : Nat) : Option (SetCall × Value) := do
  let x ← s.callers[i]?
  let c ← x.todo.head?
  let tmp ← x.found
  return (c, tmp)

/-- What `set_string` reads of a search: the type, and the lstring if there is
one. -/
def Value.decides (v : Value) : LType × Word := (v.type, if v.type = .string then v.v else 0)

/-- If thread `i` comes to the second step of a `set_string`, then its search,
made again, would decide the same. -/
def SetterState.Calm (t : Addr) (s : SetterState) (i : Nat) : Prop :=
  ∀ p ∈ s.pending i,
    (s.w.searchTable t p.1.key p.1.tmp).map (fun q => q.1.decides) = some p.2.decides

instance SetterState.decidableCalm (t : Addr) (s : SetterState) (i : Nat) :
    Decidable (s.Calm t i) :=
  inferInstanceAs (Decidable (∀ p ∈ s.pending i, _ = _))

/-! ## §4. One step. -/

/-- A call whose first step returns is complete. -/
theorem World.set_of_returns {c : SetCall} {r : Int} {w' : World}
    (h : w.first t c = some (.returns r, w')) : w.set t c = some (r, w') := by
  rw [World.set_eq_steps, h]
  rfl

/-- Only a `set_string` that found a string or nothing goes on, and its search
left the world as it was. -/
theorem World.Sound.of_goesOn (h : w.Sound t tb m) {c : SetCall} {tmp : Value} {w' : World}
    (hx : w.first t c = some (.goesOn tmp, w')) :
    w' = w ∧ c.arg.type = .string
      ∧ (tmp.type = .string ∨ tmp = { c.tmp with type := .nil }) := by
  by_cases hc : c.arg.type = .string
  · obtain ⟨str, hstr⟩ := Arg.eq_string hc
    unfold World.first at hx
    rw [hstr] at hx
    simp only [h.toOwns.searchTable h.wf, Option.bind_eq_bind, Option.bind_some] at hx
    split at hx
    · exact absurd hx (by simp)
    next hgo =>
      simp only [Option.pure_def, Option.some.injEq, Prod.mk.injEq, First.goesOn.injEq] at hx
      obtain ⟨htmp, hw⟩ := hx
      refine ⟨hw.symm, hc, ?_⟩
      -- a node holds a value, so what was found is a string or nothing
      rw [htmp] at hgo
      cases hf : m.find c.key with
      | none =>
        right
        rw [← htmp, LMap.result_absent hf]
      | some n =>
        left
        have hn : tmp = n.v := by rw [← htmp, LMap.result_found hf]
        have htype := h.wf.type n (LMap.find_mem hf).1
        rw [← hn] at htype
        by_contra hs
        exact hgo ⟨hs, htype⟩
  · -- the other setters have one part only
    have hplain : w.first t c
        = (w.set t c).bind (fun q => some (First.returns q.1, q.2)) := by
      unfold World.first
      cases harg : c.arg with
      | string str => rw [harg] at hc; exact absurd rfl hc
      | number n => rfl
      | boolean b => rfl
      | ud u => rfl
    rw [hplain] at hx
    obtain ⟨q, -, hq⟩ := Option.bind_eq_some_iff.mp hx
    exact absurd hq (by simp)

/-- When the search, made again, would decide the same, then the second step
does what the whole call would do now. -/
theorem World.Sound.second_eq (h : w.Sound t tb m) {c : SetCall} {tmp : Value}
    (hc : c.arg.type = .string) (htmp : tmp.type = .string ∨ tmp = { c.tmp with type := .nil })
    (hcalm : (w.searchTable t c.key c.tmp).map (fun q => q.1.decides) = some tmp.decides) :
    w.second t c tmp = w.set t c := by
  obtain ⟨str, hstr⟩ := Arg.eq_string hc
  have hset : w.set t c = w.setString t c.key c.tmp str := by
    unfold World.set
    rw [hstr]
  have hsecond : w.second t c tmp
      = if tmp.type = .string then (w.updateString tmp.v str).map (fun w => (0, w))
        else w.insertString t c.key tmp str := by
    unfold World.second
    rw [hstr]
  rw [h.toOwns.searchTable h.wf] at hcalm
  simp only [Option.map_some, Option.some.injEq, Value.decides, Prod.mk.injEq] at hcalm
  obtain ⟨htype, hword⟩ := hcalm
  rw [hset, hsecond]
  unfold World.setString
  rw [h.toOwns.searchTable h.wf]
  simp only [Option.bind_eq_bind, Option.bind_some]
  rcases htmp with hs | hn
  · -- a string: the search now finds the same lstring
    rw [hs] at htype
    rw [if_pos htype, if_pos hs] at hword
    rw [if_pos hs, if_pos htype, hword]
    cases w.updateString tmp.v str <;> rfl
  · -- nothing: the search now finds nothing either
    have hnil : tmp.type = .nil := by rw [hn]
    rw [hnil] at htype
    have hf : m.find c.key = none := by
      cases hf : m.find c.key with
      | none => rfl
      | some n =>
        rw [LMap.result_found hf] at htype
        exact absurd htype (h.wf.type n (LMap.find_mem hf).1)
    rw [LMap.result_absent hf, ← hn, hnil]
    simp

/-- The log of the calls that returned: run one at a time they lead to the
world that is there, and a search that is pending is one its call made. -/
structure SetterState.Logged (t : Addr) (w₀ : World) (progs : List (List SetCall))
    (log : List Return) (s : SetterState) : Prop where
  sound : ∃ tb m, s.w.Sound t tb m
  run : w₀.setAll t (log.map (fun e => e.2.1)) = some (log.map (fun e => e.2.2), s.w)
  done : ∀ i, returnsOf log i = s.done i
  progs : ∀ i, (s.done i).map Prod.fst ++ s.todo i = progs.getD i []
  found : ∀ i c tmp, s.pending i = some (c, tmp) →
    c.arg.type = .string ∧ (tmp.type = .string ∨ tmp = { c.tmp with type := .nil })

theorem returnsOf_snoc (log : List Return) (i j : Nat) (c : SetCall) (r : Int) :
    returnsOf (log ++ [(i, c, r)]) j = returnsOf log j ++ if i = j then [(c, r)] else [] := by
  unfold returnsOf
  rw [List.filter_append, List.map_append]
  by_cases h : i = j <;> simp [h]

theorem SetterState.pending_some {s : SetterState} {i : Nat} {c : SetCall} {tmp : Value} :
    s.pending i = some (c, tmp)
      ↔ ∃ x, s.callers[i]? = some x ∧ x.todo.head? = some c ∧ x.found = some tmp := by
  unfold SetterState.pending
  constructor
  · intro h
    obtain ⟨x, hx, h⟩ := Option.bind_eq_some_iff.mp h
    obtain ⟨c', hc, h⟩ := Option.bind_eq_some_iff.mp h
    obtain ⟨tmp', htmp, h⟩ := Option.bind_eq_some_iff.mp h
    simp only [Option.pure_def, Option.some.injEq, Prod.mk.injEq] at h
    obtain ⟨rfl, rfl⟩ := h
    exact ⟨x, hx, hc, htmp⟩
  · rintro ⟨x, hx, hc, htmp⟩
    rw [hx]
    simp [hc, htmp]

variable {progs : List (List SetCall)} {log : List Return} {s : SetterState}

/-- A call returns: it is the next one of the serial run. -/
theorem SetterState.Logged.returned (h : s.Logged t w₀ progs log) {i : Nat} {x : Caller}
    (hx : s.callers[i]? = some x) {c : SetCall} (hc : x.todo.head? = some c) {r : Int} {w' : World}
    (hset : s.w.set t c = some (r, w')) :
    SetterState.Logged t w₀ progs (log ++ [(i, c, r)])
      { w := w', callers := s.callers.set i (x.returned c r) } := by
  obtain ⟨tb, m, hsound⟩ := h.sound
  have hi : i < s.callers.length := (List.getElem?_eq_some_iff.mp hx).1
  have hself : (s.callers.set i (x.returned c r))[i]? = some (x.returned c r) :=
    List.getElem?_set_self hi
  have hother : ∀ j, i ≠ j → (s.callers.set i (x.returned c r))[j]? = s.callers[j]? :=
    fun j hj => List.getElem?_set_ne hj
  have hdone : s.done i = x.done := by
    unfold SetterState.done
    rw [hx]
    rfl
  refine ⟨hsound.set hset, ?_, ?_, ?_, ?_⟩
  · -- the serial run takes the call as its next one
    rw [List.map_append, List.map_append]
    exact (Run.run_snoc_some _).mpr ⟨_, s.w, r, h.run, hset, rfl⟩
  · intro j
    rw [returnsOf_snoc, h.done]
    by_cases hj : i = j
    · subst hj
      rw [if_pos rfl, hdone]
      unfold SetterState.done
      rw [hself]
      rfl
    · rw [if_neg hj, List.append_nil]
      unfold SetterState.done
      rw [hother j hj]
  · intro j
    -- what is done and what is to do is still the program
    have hprog := h.progs j
    unfold SetterState.done SetterState.todo at hprog ⊢
    by_cases hj : i = j
    · subst hj
      have htodo : x.todo = c :: x.todo.tail := (List.cons_head?_tail hc).symm
      rw [hx, Option.map_some, Option.map_some, Option.getD_some, Option.getD_some,
        htodo] at hprog
      rw [hself, Option.map_some, Option.map_some, Option.getD_some, Option.getD_some, ← hprog]
      simp [Caller.returned]
    · rw [hother j hj]
      exact hprog
  · intro j c' tmp' hp
    -- the caller that returned has nothing found any more
    obtain ⟨y, hy, hc', htmp'⟩ := SetterState.pending_some.mp hp
    by_cases hj : i = j
    · subst hj
      rw [hself, Option.some.injEq] at hy
      rw [← hy] at htmp'
      exact absurd htmp' (by simp [Caller.returned])
    · rw [hother j hj] at hy
      exact h.found j c' tmp' (SetterState.pending_some.mpr ⟨y, hy, hc', htmp'⟩)

/-- A search changes nothing but its own thread. -/
theorem SetterState.Logged.searched (h : s.Logged t w₀ progs log) {i : Nat} {x : Caller}
    (hx : s.callers[i]? = some x) {c : SetCall} (hc : x.todo.head? = some c) {tmp : Value}
    (hstr : c.arg.type = .string)
    (htmp : tmp.type = .string ∨ tmp = { c.tmp with type := .nil }) :
    SetterState.Logged t w₀ progs log
      { w := s.w, callers := s.callers.set i { x with found := some tmp } } := by
  have hi : i < s.callers.length := (List.getElem?_eq_some_iff.mp hx).1
  have hself : (s.callers.set i { x with found := some tmp })[i]?
      = some { x with found := some tmp } := List.getElem?_set_self hi
  have hother : ∀ j, i ≠ j →
      (s.callers.set i { x with found := some tmp })[j]? = s.callers[j]? :=
    fun j hj => List.getElem?_set_ne hj
  refine ⟨h.sound, h.run, ?_, ?_, ?_⟩
  · intro j
    rw [h.done]
    unfold SetterState.done
    by_cases hj : i = j
    · subst hj
      rw [hself, hx]
      rfl
    · rw [hother j hj]
  · intro j
    have hprog := h.progs j
    unfold SetterState.done SetterState.todo at hprog ⊢
    by_cases hj : i = j
    · subst hj
      rw [hx] at hprog
      rw [hself]
      exact hprog
    · rw [hother j hj]
      exact hprog
  · intro j c' tmp' hp
    -- only this caller has something new
    obtain ⟨y, hy, hc', htmp'⟩ := SetterState.pending_some.mp hp
    by_cases hj : i = j
    · subst hj
      rw [hself, Option.some.injEq] at hy
      subst hy
      have hcc : c' = c := Option.some.inj (hc'.symm.trans hc)
      have htt : tmp' = tmp := (Option.some.inj htmp').symm
      rw [hcc, htt]
      exact ⟨hstr, htmp⟩
    · rw [hother j hj] at hy
      exact h.found j c' tmp' (SetterState.pending_some.mpr ⟨y, hy, hc', htmp'⟩)

/-- A calm step keeps the log, or adds the call that returned. -/
theorem SetterState.Logged.step (h : s.Logged t w₀ progs log) {i : Nat} (hcalm : s.Calm t i)
    {o : Option Return} {s' : SetterState} (hx : s.step t i = some (o, s')) :
    ∃ log', s'.Logged t w₀ progs log' := by
  obtain ⟨tb, m, hsound⟩ := h.sound
  unfold SetterState.step at hx
  obtain ⟨x, hcaller, hx⟩ := Option.bind_eq_some_iff.mp hx
  obtain ⟨c, hc, hx⟩ := Option.bind_eq_some_iff.mp hx
  cases hfound : x.found with
  | none =>
    -- the first part: a return, or a search that goes on
    simp only [hfound] at hx
    obtain ⟨⟨f, w'⟩, hfirst, hx⟩ := Option.bind_eq_some_iff.mp hx
    cases f with
    | returns r =>
      simp only [Option.pure_def, Option.some.injEq, Prod.mk.injEq] at hx
      rw [← hx.2]
      exact ⟨_, h.returned hcaller hc (World.set_of_returns hfirst)⟩
    | goesOn tmp =>
      simp only [Option.pure_def, Option.some.injEq, Prod.mk.injEq] at hx
      obtain ⟨rfl, hstr, htmp⟩ := hsound.of_goesOn hfirst
      rw [← hx.2]
      exact ⟨log, h.searched hcaller hc hstr htmp⟩
  | some tmp =>
    simp only [hfound] at hx
    obtain ⟨⟨r, w'⟩, hsecond, hx⟩ := Option.bind_eq_some_iff.mp hx
    simp only [Option.pure_def, Option.some.injEq, Prod.mk.injEq] at hx
    -- calm: the search would find the same again, so both parts are one call
    have hpending := SetterState.pending_some.mpr ⟨x, hcaller, hc, hfound⟩
    obtain ⟨hstr, htmp⟩ := h.found i c tmp hpending
    rw [hsound.second_eq hstr htmp (hcalm (c, tmp) hpending)] at hsecond
    rw [← hx.2]
    exact ⟨_, h.returned hcaller hc hsecond⟩

/-! ## §5. Whole runs. -/

theorem SetterState.start_logged (h : w₀.Sound t tb m) (progs : List (List SetCall)) :
    (SetterState.start w₀ progs).Logged t w₀ progs [] := by
  have hcallers : ∀ i, (SetterState.start w₀ progs).callers[i]?
      = progs[i]?.map (fun p => (⟨p, none, []⟩ : Caller)) :=
    fun i => List.getElem?_map ..
  have hdone : ∀ i, (SetterState.start w₀ progs).done i = [] := by
    intro i
    unfold SetterState.done
    rw [hcallers]
    cases progs[i]? <;> rfl
  refine ⟨⟨tb, m, h⟩, rfl, ?_, ?_, ?_⟩
  · intro i
    rw [hdone]
    rfl
  · intro i
    rw [hdone]
    unfold SetterState.todo
    rw [hcallers, List.getD_eq_getElem?_getD]
    cases progs[i]? <;> rfl
  · intro i c tmp hp
    obtain ⟨x, hx, -, htmp⟩ := SetterState.pending_some.mp hp
    rw [hcallers] at hx
    obtain ⟨p, -, rfl⟩ := Option.map_eq_some_iff.mp hx
    exact absurd htmp (by simp)

/-- Whatever the interleaving, as long as no `set_string` acts on a search that
has become wrong, the calls that returned are those of a serial run. -/
theorem setters_serial (hw : w.Tidy) (hnew : w.newTable = some (t, w₀))
    {progs : List (List SetCall)} {steps : List Nat}
    (hcalm : Run.Along (SetterState.step t) (SetterState.Calm t) (SetterState.start w₀ progs) steps)
    {outs : List (Option Return)} {s' : SetterState}
    (hrun : Run.run (SetterState.step t) (SetterState.start w₀ progs) steps = some (outs, s')) :
    s'.Serial t w₀ progs := by
  obtain ⟨tb, hsound⟩ := World.Sound.newTable hw hnew
  have hstep : ∀ s i o s', (∃ log, SetterState.Logged t w₀ progs log s) → s.Calm t i →
      s.step t i = some (o, s') → ∃ log, s'.Logged t w₀ progs log := by
    intro s i o s' ⟨log, h⟩ hc hx
    exact h.step hc hx
  obtain ⟨log, h⟩ := Run.run_inv_along _ hstep ⟨[], SetterState.start_logged hsound progs⟩ hcalm hrun
  exact ⟨log, s'.w, h.run, h.done, h.progs, fun _ => rfl⟩

/-- Two threads on one key: the string is set, then the number is refused. -/
theorem setters_serial_two :
    ∃ t w₀ outs s', World.empty.newTable = some (t, w₀)
      ∧ Run.run (SetterState.step t)
          (SetterState.start w₀ [[⟨.str [97], .string [120], .blank⟩, ⟨.num 1, .ud 7, .blank⟩],
            [⟨.str [97], .number 5, .blank⟩]]) [0, 0, 1, 0] = some (outs, s')
      ∧ s'.Serial t w₀ [[⟨.str [97], .string [120], .blank⟩, ⟨.num 1, .ud 7, .blank⟩],
            [⟨.str [97], .number 5, .blank⟩]] := by
  have hgo : (World.empty.newTable.bind (fun q => Run.run (SetterState.step q.1)
      (SetterState.start q.2 [[⟨.str [97], .string [120], .blank⟩, ⟨.num 1, .ud 7, .blank⟩],
        [⟨.str [97], .number 5, .blank⟩]]) [0, 0, 1, 0])).isSome = true := by decide
  have hcalm : World.empty.newTable.map (fun q => decide (Run.Along (SetterState.step q.1)
      (SetterState.Calm q.1)
      (SetterState.start q.2 [[⟨.str [97], .string [120], .blank⟩, ⟨.num 1, .ud 7, .blank⟩],
        [⟨.str [97], .number 5, .blank⟩]]) [0, 0, 1, 0])) = some true := by decide
  obtain ⟨⟨outs, s'⟩, hgo⟩ := Option.isSome_iff_exists.mp hgo
  obtain ⟨⟨t, w₀⟩, hnew, hrun⟩ := Option.bind_eq_some_iff.mp hgo
  rw [hnew, Option.map_some, Option.some.injEq, decide_eq_true_eq] at hcalm
  exact ⟨t, w₀, outs, s', hnew, hrun,
    setters_serial (by intro a slot ha; exact absurd ha (by simp [World.empty])) hnew hcalm hrun⟩

/-- A log with one call of each of two threads has the one or the other
first. -/
theorem returnsOf_two {log : List Return} {a b : SetCall × Int} (h₀ : returnsOf log 0 = [a])
    (h₁ : returnsOf log 1 = [b]) (hrest : ∀ i, 2 ≤ i → returnsOf log i = []) :
    log = [(0, a), (1, b)] ∨ log = [(1, b), (0, a)] := by
  have hmem : ∀ e ∈ log, e.1 = 0 ∨ e.1 = 1 := by
    intro e he
    have hin : e.2 ∈ returnsOf log e.1 :=
      List.mem_map.mpr ⟨e, List.mem_filter.mpr ⟨he, beq_self_eq_true _⟩, rfl⟩
    by_contra hne
    rw [hrest e.1 (by omega)] at hin
    exact absurd hin (by simp)
  rcases log with _ | ⟨⟨i, c⟩, _ | ⟨⟨j, d⟩, _ | ⟨⟨k, e⟩, log⟩⟩⟩
  · exact absurd h₀ (by simp [returnsOf])
  · rcases hmem (i, c) (by simp) with rfl | rfl
    · exact absurd h₁ (by simp [returnsOf])
    · exact absurd h₀ (by simp [returnsOf])
  · rcases hmem (i, c) (by simp) with rfl | rfl <;> rcases hmem (j, d) (by simp) with rfl | rfl
    · exact absurd h₁ (by simp [returnsOf])
    · left
      simp only [returnsOf, List.filter_cons] at h₀ h₁
      simp at h₀ h₁
      rw [h₀, h₁]
    · right
      simp only [returnsOf, List.filter_cons] at h₀ h₁
      simp at h₀ h₁
      rw [h₀, h₁]
    · exact absurd h₀ (by simp [returnsOf])
  · -- three calls are one too many for some thread
    rcases hmem (i, c) (by simp) with rfl | rfl <;> rcases hmem (j, d) (by simp) with rfl | rfl <;>
      rcases hmem (k, e) (by simp) with rfl | rfl <;>
      simp [returnsOf] at h₀ h₁

/-- The search of `set_string` finds nothing, `set_number` puts a number under
the key, and the insert of the string overwrites it: both calls return 0, which
no order of the two gives. -/
theorem setters_race :
    ∃ t w₀ outs s', World.empty.newTable = some (t, w₀)
      ∧ Run.run (SetterState.step t)
          (SetterState.start w₀ [[⟨.str [97], .string [120], .blank⟩],
            [⟨.str [97], .number 5, .blank⟩]]) [0, 1, 0] = some (outs, s')
      ∧ ¬ s'.Serial t w₀ [[⟨.str [97], .string [120], .blank⟩],
            [⟨.str [97], .number 5, .blank⟩]] := by
  have hgo : (World.empty.newTable.bind (fun q => Run.run (SetterState.step q.1)
      (SetterState.start q.2 [[⟨.str [97], .string [120], .blank⟩],
        [⟨.str [97], .number 5, .blank⟩]]) [0, 1, 0])).isSome = true := by decide
  have hcodes : World.empty.newTable.bind (fun q => (Run.run (SetterState.step q.1)
      (SetterState.start q.2 [[⟨.str [97], .string [120], .blank⟩],
        [⟨.str [97], .number 5, .blank⟩]]) [0, 1, 0]).map
          (fun r => r.2.callers.map (fun x => x.done)))
      = some [[(⟨.str [97], .string [120], .blank⟩, 0)],
          [(⟨.str [97], .number 5, .blank⟩, 0)]] := by decide
  have hfirst : World.empty.newTable.bind (fun q => (q.2.setAll q.1
      [⟨.str [97], .string [120], .blank⟩, ⟨.str [97], .number 5, .blank⟩]).map Prod.fst)
      = some [0, 1] := by decide
  have hsecond : World.empty.newTable.bind (fun q => (q.2.setAll q.1
      [⟨.str [97], .number 5, .blank⟩, ⟨.str [97], .string [120], .blank⟩]).map Prod.fst)
      = some [0, 1] := by decide
  obtain ⟨⟨outs, s'⟩, hgo⟩ := Option.isSome_iff_exists.mp hgo
  obtain ⟨⟨t, w₀⟩, hnew, hrun⟩ := Option.bind_eq_some_iff.mp hgo
  rw [hnew, Option.bind_some] at hcodes hfirst hsecond
  have hrun : Run.run (SetterState.step t) (SetterState.start w₀ _) _ = some (outs, s') := hrun
  rw [hrun, Option.map_some, Option.some.injEq] at hcodes
  refine ⟨t, w₀, outs, s', hnew, hrun, ?_⟩
  rintro ⟨log, w', hset, hlog, -, -⟩
  have hdone : ∀ i, s'.done i = ((s'.callers.map (fun x => x.done))[i]?).getD [] := by
    intro i
    rw [List.getElem?_map]
    rfl
  -- the log is one of the two orders, and all its codes are 0
  have hor := returnsOf_two ((hlog 0).trans (by rw [hdone, hcodes]; rfl))
    ((hlog 1).trans (by rw [hdone, hcodes]; rfl))
    (by
      intro i hi
      rw [hlog, hdone, hcodes, List.getElem?_eq_none hi]
      rfl)
  rcases hor with rfl | rfl
  · have hcodes := congrArg (Option.map Prod.fst) hset
    exact absurd (hfirst.symm.trans hcodes) (by simp)
  · have hcodes := congrArg (Option.map Prod.fst) hset
    exact absurd (hsecond.symm.trans hcodes) (by simp)

end LightTable
