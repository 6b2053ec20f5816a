/-
  LightTable.Concurrency.Shared
  ─────────────────────────────
  One table used by many threads at once: searches, enumerations and setters.

  `LightTable.Concurrency.Search` has one writer, who is said to hold the table
  lock.  Here any number of threads call `_insert_table`, and the lock is what
  keeps them apart: the test-and-set of `_table_lock`, the insert, the filling
  of a private map, its swap and the unlock are steps, and the other threads
  run between any two of them.  Searches are those of the one-writer machine;
  an enumeration walks the map it grabbed one node a step.

  The fields of the one-writer machine are a part of this one's state
  (`SharedState.base`), and every step here is one of its steps or none.
-/
import LightTable.Concurrency.Search
import LightTable.Lib.SpinLock
import LightTable.Table.Enumerate

namespace LightTable

open SpinLock

/-! ## §1. The transition system. -/

/-- Where a thread is in `_insert_table`. -/
inductive Writer where
  /-- between calls -/
  | idle
  /-- `while (__sync_lock_test_and_set(&lock, 1)) {}` -/
  | lock (key : Key) (v : Value)
  /-- `map->_insert_value` -/
  | insert (key : Key) (v : Value)
  /-- `_expand_hash`, up to the end of `_copy_map` -/
  | fill
  /-- `_update_map` -/
  | swap
  /-- `__sync_lock_release(&lock)` -/
  | unlock
  deriving DecidableEq

/-- The thread has the table lock. -/
def Writer.inside : Writer → Bool
  | .insert _ _ => true
  | .fill => true
  | .swap => true
  | .unlock => true
  | _ => false

/-- Where an enumeration is. -/
inductive WalkPhase where
  /-- before `_grab_map` -/
  | grab
  /-- at the `j`-th pointer of the `i`-th chain of the map `m` -/
  | walk (m : Addr) (i j : Nat)
  /-- before `_release_map` -/
  | release (m : Addr)
  deriving DecidableEq

/-- A call of `keys`: its limit `cap - 1`, its array, and how many records it
wrote so far. -/
structure Walker where
  limit : Nat
  vv : List TableKey
  count : Nat
  phase : WalkPhase
  deriving DecidableEq

/-- The records in front of the array. -/
def Walker.records (r : Walker) : List TableKey := r.vv.take r.count

/-- The maps with the searches, the table lock, the setters, and the
enumerations; `none` is a thread between calls of `keys`. -/
structure SharedState where
  base : SearchState
  lock : Bool
  writers : List Writer
  walkers : List (Option Walker)

/-- What a call returns: a search its type and union, an enumeration its
records. -/
inductive Returned where
  | search (i : Nat) (a : LType × Word)
  | keys (i : Nat) (records : List TableKey)
  deriving DecidableEq

/-- A step: thread `i` calls `_search_map`, or takes the next step of its
search; it calls `_insert_table`, or goes on with it; it calls `keys`, or goes
on with it. -/
inductive SharedStep where
  | search (i : Nat) (key : Key) (result : Value)
  | read (i : Nat)
  | set (i : Nat) (key : Key) (v : Value)
  | next (i : Nat)
  | keys (i : Nat) (cap : Nat)
  | walk (i : Nat)

/-- A step of the one-writer machine. -/
def SharedState.within (s : SharedState) (e : SearchStep) :
    Option (Option Returned × SharedState) := do
  let (o, base) ← s.base.step e
  return (o.map (fun a => .search a.1 a.2), { s with base := base })

/-- Thread `i` goes on at `x`. -/
def SharedState.goto (s : SharedState) (i : Nat) (x : Writer) : SharedState :=
  { s with writers := s.writers.set i x }

/-- The next step of `_insert_table`. -/
def SharedState.exec (s : SharedState) (i : Nat) :
    Writer → Option (Option Returned × SharedState)
  | .idle => none
  | .lock key v =>
      if s.lock then some (none, s)
      else some (none, { s with lock := true }.goto i (.insert key v))
  | .insert key v => do
      let m ← s.base.maps s.base.cur
      let r ← m.insertValue s.base.brk key v 0
      let (o, s) ← s.within (.write key v)
      return (o, s.goto i (if maxHashDepth ≤ r.depth then .fill else .unlock))
  | .fill => do
      let (o, s) ← s.within .fill
      return (o, s.goto i .swap)
  | .swap => do
      let (o, s) ← s.within .swap
      return (o, s.goto i .unlock)
  | .unlock => some (none, { s with lock := false }.goto i .idle)

/-- The next step of `keys`: what it returns, if it does, and the walker after
it.  The index of the record is the `int` of the count. -/
def SharedState.advance (s : SharedState) (r : Walker) :
    Option (Option (List TableKey) × Option Walker) :=
  match r.phase with
  | .grab => some (none, some { r with phase := .walk s.base.cur 0 0 })
  | .walk m i j => do
      let lm ← s.base.maps m
      if i < lm.size.toNat then
        let chain ← lm.data[i]?
        match chain[j]? with
        | some n =>
            if r.limit ≤ r.count then return (none, some { r with phase := .release m })
            else
              let vv ← writeRecord r.vv (asInt r.count) n.record
              return (none, some { r with
                vv := vv, count := r.count + 1, phase := .walk m i (j + 1) })
        | none => return (none, some { r with phase := .walk m (i + 1) 0 })
      else return (none, some { r with phase := .release m })
  | .release _ => some (some r.records, none)

/-- A call of `keys` with an array of `cap` records. -/
def Walker.call (cap : Nat) : Walker := ⟨keysLimit cap, List.replicate cap .blank, 0, .grab⟩

/-- One step, with what returned. -/
def SharedState.step (s : SharedState) : SharedStep → Option (Option Returned × SharedState)
  | .search i key result => s.within (.call i key result)
  | .read i => s.within (.read i)
  | .set i key v => some (none, s.goto i (.lock key v))
  | .next i => do
      let x ← s.writers[i]?
      s.exec i x
  | .keys i cap => some (none, { s with walkers := s.walkers.set i (some (Walker.call cap)) })
  | .walk i => do
      let r ← s.walkers[i]?
      let r ← r
      let (out, r) ← s.advance r
      return (out.map (.keys i), { s with walkers := s.walkers.set i r })

/-- The thread is at the point of its program where the step comes next, and
setters are called with values of the four types under keys below 2^31. -/
def SharedState.Ready (s : SharedState) : SharedStep → Prop
  | .search i _ _ => s.base.readers[i]? = some none
  | .read i => (s.base.readers[i]?.bind id).isSome
  | .set i key v => s.writers[i]? = some .idle ∧ key.Short ∧ v.type ≠ .nil
  | .next i => s.writers[i]? ≠ none ∧ s.writers[i]? ≠ some .idle
  | .keys i _ => s.walkers[i]? = some none
  | .walk i => (s.walkers[i]?.bind id).isSome

instance SharedState.decidableReady (s : SharedState) : ∀ e : SharedStep, Decidable (s.Ready e)
  | .search i _ _ => decidable_of_iff ((s.base.readers[i]?.map Option.isNone) = some true) (by
      show _ ↔ s.base.readers[i]? = some none
      cases s.base.readers[i]? with
      | none => simp
      | some r => cases r <;> simp)
  | .read _ => inferInstanceAs (Decidable (_ = _))
  | .set _ key v => inferInstanceAs (Decidable (_ ∧ key.Short ∧ v.type ≠ .nil))
  | .next _ => inferInstanceAs (Decidable (_ ∧ _))
  | .keys _ _ => inferInstanceAs (Decidable (_ = _))
  | .walk _ => inferInstanceAs (Decidable (_ = _))

/-- A fresh table, with its map at `a`, and `n` threads. -/
def SharedState.start (a : Addr) (n : Nat) : SharedState :=
  { base := SearchState.start a n, lock := false, writers := List.replicate n .idle,
    walkers := List.replicate n none }

/-- The search that returned. -/
def Returned.searched : Option Returned → List (Nat × LType × Word)
  | some (.search i a) => [(i, a)]
  | _ => []

/-! ## §2. The lock. -/

variable {s s' : SharedState} {i : Nat} {x y : Writer} {out : Option Returned}

/-- A setter carries a key below 2^31 and a value of the four types. -/
def Writer.Proper : Writer → Prop
  | .lock key v => key.Short ∧ v.type ≠ .nil
  | .insert key v => key.Short ∧ v.type ≠ .nil
  | _ => True

/-- The setter has filled a private map. -/
def Writer.filled : Writer → Bool
  | .swap => true
  | _ => false

/-- Between the steps: at most one setter is inside, and a private map is one
that it filled. -/
structure SharedState.Inv (s : SharedState) : Prop where
  base : s.base.Inv
  lock : Exclusive Writer.inside s.lock s.writers
  proper : ∀ x ∈ s.writers, x.Proper
  filled : s.base.filled.isSome ↔ ∃ x ∈ s.writers, x.filled = true

theorem Writer.inside_of_filled (h : x.filled = true) : x.inside = true := by
  cases x <;> first | rfl | exact absurd h Bool.false_ne_true

/-- A step of the one-writer machine leaves the setters and enumerations. -/
theorem SharedState.of_within {e : SearchStep} (hx : s.within e = some (out, s')) :
    ∃ o base, s.base.step e = some (o, base) ∧ s' = { s with base := base }
      ∧ out = o.map (fun a => .search a.1 a.2) := by
  unfold SharedState.within at hx
  obtain ⟨⟨o, base⟩, hstep, hx⟩ := Option.bind_eq_some_iff.mp hx
  simp only [Option.pure_def, Option.some.injEq, Prod.mk.injEq] at hx
  exact ⟨o, base, hstep, hx.2.symm, hx.1.symm⟩

/-- What a step keeps, and the steps of the one-writer machine that it is. -/
def SharedState.Steps (s : SharedState) (out : Option Returned) (s' : SharedState) : Prop :=
  ∃ es os, Run.Along SearchState.step (fun _ e => e.Proper) s.base es
    ∧ Run.run SearchState.step s.base es = some (os, s'.base)
    ∧ os.flatMap Option.toList = Returned.searched out ∧ s'.Inv

/-- No step of the one-writer machine. -/
theorem SharedState.Inv.steps_none (h : s'.Inv) (hbase : s'.base = s.base)
    (hout : Returned.searched out = []) : s.Steps out s' :=
  ⟨[], [], trivial, by rw [hbase]; rfl, hout.symm, h⟩

/-- One of them. -/
theorem SharedState.Inv.steps_one (h : s'.Inv) {e : SearchStep} (hp : e.Proper)
    {o : Option (Nat × LType × Word)} (hx : s.base.step e = some (o, s'.base))
    (hout : Returned.searched out = o.toList) : s.Steps out s' := by
  refine ⟨[e], [o], ⟨hp, fun _ _ _ => trivial⟩, (Run.run_cons_some _).mpr ⟨o, _, [], hx, rfl, rfl⟩,
    ?_, h⟩
  rw [hout]
  exact List.append_nil _

/-- A setter goes on from `x` to `y` and leaves the maps alone. -/
theorem SharedState.Inv.go (h : s.Inv) (hi : s.writers[i]? = some x) {lock : Bool}
    (hlock : Exclusive Writer.inside lock (s.writers.set i y)) (hy : y.Proper)
    (hxf : x.filled = false) (hyf : y.filled = false) :
    SharedState.Inv ({ s with lock := lock }.goto i y) where
  base := h.base
  lock := hlock
  proper := by
    intro z hz
    rcases List.mem_or_eq_of_mem_set hz with hz | rfl
    · exact h.proper z hz
    · exact hy
  filled := h.filled.trans (exists_move_iff Writer.filled hi hxf hyf).symm

/-- A setter that is inside goes on, and the maps change. -/
theorem SharedState.Inv.work (h : s.Inv) (hi : s.writers[i]? = some x) (hx : x.inside = true)
    (hyin : y.inside = true) (hy : y.Proper) {base : SearchState} (hbase : base.Inv)
    (hfilled : base.filled.isSome ↔ y.filled = true) :
    SharedState.Inv ({ s with base := base }.goto i y) where
  base := hbase
  lock := h.lock.stay hi (by rw [hyin, hx])
  proper := by
    intro z hz
    rcases List.mem_or_eq_of_mem_set hz with hz | rfl
    · exact h.proper z hz
    · exact hy
  filled := by
    refine hfilled.trans ?_
    have hlt : i < s.writers.length := (List.getElem?_eq_some_iff.mp hi).1
    constructor
    · exact fun hyf => ⟨y, List.mem_of_getElem? (List.getElem?_set_self hlt), hyf⟩
    · rintro ⟨z, hz, hzf⟩
      rcases h.lock.others hi hx hz with rfl | hout
      · exact hzf
      · exact absurd (Writer.inside_of_filled hzf) (by rw [hout]; exact Bool.false_ne_true)

/-- The setter that is inside, and has not filled a private map, finds none. -/
theorem SharedState.Inv.unfilled (h : s.Inv) (hi : s.writers[i]? = some x) (hx : x.inside = true)
    (hxf : x.filled = false) : s.base.filled = none := by
  cases hf : s.base.filled with
  | none => rfl
  | some a =>
    obtain ⟨z, hz, hzf⟩ := h.filled.mp (by rw [hf]; rfl)
    obtain ⟨j, hj⟩ := List.getElem?_of_mem hz
    have hij := h.lock.unique hi hx hj (Writer.inside_of_filled hzf)
    rw [← hij, hi, Option.some.injEq] at hj
    rw [hj, hzf] at hxf
    exact absurd hxf (Ne.symm Bool.false_ne_true)

theorem SearchState.write_filled {b b' : SearchState} {key : Key} {v : Value}
    {o : Option (Nat × LType × Word)} (hx : b.step (.write key v) = some (o, b')) :
    o = none ∧ b.filled = none ∧ b'.filled = none := by
  simp only [SearchState.step] at hx
  split at hx
  · exact absurd hx (by simp)
  next hf =>
    obtain ⟨m, -, hx⟩ := Option.bind_eq_some_iff.mp hx
    obtain ⟨r, -, hx⟩ := Option.bind_eq_some_iff.mp hx
    simp only [Option.pure_def, Option.some.injEq, Prod.mk.injEq] at hx
    obtain ⟨rfl, rfl⟩ := hx
    have hnone : b.filled = none := by simpa using hf
    exact ⟨rfl, hnone, hnone⟩

theorem SearchState.fill_filled {b b' : SearchState} {o : Option (Nat × LType × Word)}
    (hx : b.step .fill = some (o, b')) : o = none ∧ b'.filled.isSome := by
  simp only [SearchState.step] at hx
  split at hx
  · exact absurd hx (by simp)
  · obtain ⟨old, -, hx⟩ := Option.bind_eq_some_iff.mp hx
    have hx : (if asSize old.newSize < 1152921504606846976 then
        (old.doubled (b.brk + 1)).bind (fun p => some (none, { b with
          maps := Function.update (Function.update b.maps b.cur (some p.2.1)) b.brk (some p.1),
          brk := p.2.2, filled := some b.brk }))
        else none) = some (o, b') := hx
    split at hx
    · obtain ⟨p, -, hx⟩ := Option.bind_eq_some_iff.mp hx
      simp only [Option.some.injEq, Prod.mk.injEq] at hx
      rw [← hx.1, ← hx.2]
      exact ⟨rfl, rfl⟩
    · exact absurd hx (by simp)

theorem SearchState.swap_filled {b b' : SearchState} {o : Option (Nat × LType × Word)}
    (hx : b.step .swap = some (o, b')) : o = none ∧ b'.filled = none := by
  unfold SearchState.step at hx
  obtain ⟨a, -, hx⟩ := Option.bind_eq_some_iff.mp hx
  simp only [Option.pure_def, Option.some.injEq, Prod.mk.injEq] at hx
  rw [← hx.1, ← hx.2]
  exact ⟨rfl, rfl⟩

/-- A search moves only itself. -/
theorem SearchState.reader_filled {b b' : SearchState} {e : SearchStep}
    {o : Option (Nat × LType × Word)}
    (he : (∃ i key result, e = .call i key result) ∨ ∃ i, e = .read i)
    (hx : b.step e = some (o, b')) : b'.filled = b.filled ∧ b'.maps = b.maps ∧ b'.cur = b.cur
      ∧ b'.brk = b.brk := by
  rcases he with ⟨i, key, result, rfl⟩ | ⟨i, rfl⟩
  · unfold SearchState.step at hx
    obtain ⟨r, -, hx⟩ := Option.bind_eq_some_iff.mp hx
    split at hx
    · exact absurd hx (by simp)
    · simp only [Option.pure_def, Option.some.injEq, Prod.mk.injEq] at hx
      rw [← hx.2]
      exact ⟨rfl, rfl, rfl, rfl⟩
  · unfold SearchState.step at hx
    obtain ⟨r, -, hx⟩ := Option.bind_eq_some_iff.mp hx
    obtain ⟨r, -, hx⟩ := Option.bind_eq_some_iff.mp hx
    obtain ⟨q, -, hx⟩ := Option.bind_eq_some_iff.mp hx
    simp only [Option.pure_def, Option.some.injEq, Prod.mk.injEq] at hx
    rw [← hx.2]
    exact ⟨rfl, rfl, rfl, rfl⟩

/-! ## §3. Every step is one of the one-writer machine's, or none. -/

theorem Returned.searched_map (o : Option (Nat × LType × Word)) :
    Returned.searched (o.map (fun a => Returned.search a.1 a.2)) = o.toList := by
  cases o <;> rfl

/-- A search. -/
theorem SharedState.Inv.reader (h : s.Inv) {e : SearchStep}
    (he : (∃ i key result, e = .call i key result) ∨ ∃ i, e = .read i)
    (hx : s.within e = some (out, s')) : s.Steps out s' := by
  obtain ⟨o, base, hstep, rfl, rfl⟩ := SharedState.of_within hx
  have hp : e.Proper := by rcases he with ⟨i, key, result, rfl⟩ | ⟨i, rfl⟩ <;> trivial
  obtain ⟨hinv, -⟩ := h.base.step hp hstep
  refine SharedState.Inv.steps_one ⟨hinv, h.lock, h.proper, ?_⟩ hp hstep (Returned.searched_map o)
  show base.filled.isSome ↔ _
  rw [(SearchState.reader_filled he hstep).1]
  exact h.filled

/-- The next step of a setter. -/
theorem SharedState.Inv.exec (h : s.Inv) (hi : s.writers[i]? = some x)
    (hx : s.exec i x = some (out, s')) : s.Steps out s' := by
  have hproper := h.proper x (List.mem_of_getElem? hi)
  cases x with
  | idle => exact absurd hx (by simp [SharedState.exec])
  | lock key v =>
    unfold SharedState.exec at hx
    cases hl : s.lock with
    | true =>
      rw [hl] at hx
      cases hx
      exact h.steps_none rfl rfl
    | false =>
      rw [hl] at hx
      cases hx
      have hlock := h.lock
      rw [hl] at hlock
      exact (h.go (y := .insert key v) hi (hlock.acquire hi rfl) hproper rfl rfl).steps_none rfl rfl
  | insert key v =>
    obtain ⟨m, -, hx⟩ := Option.bind_eq_some_iff.mp hx
    obtain ⟨r, -, hx⟩ := Option.bind_eq_some_iff.mp hx
    obtain ⟨⟨o', s₁⟩, hw, hx⟩ := Option.bind_eq_some_iff.mp hx
    obtain ⟨o, base, hstep, rfl, rfl⟩ := SharedState.of_within hw
    simp only [Option.pure_def, Option.some.injEq, Prod.mk.injEq] at hx
    obtain ⟨rfl, rfl⟩ := hx
    obtain ⟨ho, -, hf⟩ := SearchState.write_filled hstep
    subst ho
    obtain ⟨hinv, -⟩ := h.base.step (e := .write key v) hproper hstep
    -- it goes on with an expansion or with the unlock
    have hgo : ∀ y : Writer, y.inside = true → y.Proper → y.filled = false →
        SharedState.Inv ({ s with base := base }.goto i y) := by
      intro y hyin hy hyf
      refine h.work hi rfl hyin hy hinv ?_
      rw [hf, hyf]
      exact ⟨fun hf => absurd hf (by simp), fun hf => absurd hf Bool.false_ne_true⟩
    split
    · exact (hgo .fill rfl trivial rfl).steps_one (e := .write key v) hproper hstep rfl
    · exact (hgo .unlock rfl trivial rfl).steps_one (e := .write key v) hproper hstep rfl
  | fill =>
    obtain ⟨⟨o', s₁⟩, hw, hx⟩ := Option.bind_eq_some_iff.mp hx
    obtain ⟨o, base, hstep, rfl, rfl⟩ := SharedState.of_within hw
    simp only [Option.pure_def, Option.some.injEq, Prod.mk.injEq] at hx
    obtain ⟨rfl, rfl⟩ := hx
    obtain ⟨ho, hf⟩ := SearchState.fill_filled hstep
    subst ho
    obtain ⟨hinv, -⟩ := h.base.step (e := .fill) trivial hstep
    exact (h.work (y := .swap) hi rfl rfl trivial hinv ⟨fun _ => rfl, fun _ => hf⟩).steps_one
      (e := .fill) trivial hstep rfl
  | swap =>
    obtain ⟨⟨o', s₁⟩, hw, hx⟩ := Option.bind_eq_some_iff.mp hx
    obtain ⟨o, base, hstep, rfl, rfl⟩ := SharedState.of_within hw
    simp only [Option.pure_def, Option.some.injEq, Prod.mk.injEq] at hx
    obtain ⟨rfl, rfl⟩ := hx
    obtain ⟨ho, hf⟩ := SearchState.swap_filled hstep
    subst ho
    obtain ⟨hinv, -⟩ := h.base.step (e := .swap) trivial hstep
    have hiff : base.filled.isSome ↔ Writer.unlock.filled = true := by
      rw [hf]
      exact ⟨fun hf => absurd hf (by simp), fun hf => absurd hf Bool.false_ne_true⟩
    exact (h.work (y := .unlock) hi rfl rfl trivial hinv hiff).steps_one (e := .swap) trivial hstep
      rfl
  | unlock =>
    obtain ⟨rfl, rfl⟩ := Option.some.inj hx |> Prod.mk.inj
    exact (h.go (y := .idle) hi (h.lock.release hi rfl rfl) trivial rfl rfl).steps_none rfl rfl

/-- One step. -/
theorem SharedState.Inv.step (h : s.Inv) {e : SharedStep} (hready : s.Ready e)
    (hx : s.step e = some (out, s')) : s.Steps out s' := by
  cases e with
  | search i key result => exact h.reader (Or.inl ⟨i, key, result, rfl⟩) hx
  | read i => exact h.reader (Or.inr ⟨i, rfl⟩) hx
  | set i key v =>
    obtain ⟨hi, hproper⟩ : s.writers[i]? = some .idle ∧ _ := hready
    obtain ⟨rfl, rfl⟩ := Option.some.inj hx |> Prod.mk.inj
    exact (h.go (y := .lock key v) hi (h.lock.stay hi rfl) hproper rfl rfl).steps_none rfl rfl
  | next i =>
    obtain ⟨x, hi, hx⟩ := Option.bind_eq_some_iff.mp hx
    exact h.exec hi hx
  | keys i cap =>
    obtain ⟨rfl, rfl⟩ := Option.some.inj hx |> Prod.mk.inj
    exact SharedState.Inv.steps_none ⟨h.base, h.lock, h.proper, h.filled⟩ rfl rfl
  | walk i =>
    obtain ⟨r, -, hx⟩ := Option.bind_eq_some_iff.mp hx
    obtain ⟨r, -, hx⟩ := Option.bind_eq_some_iff.mp hx
    obtain ⟨⟨o, r'⟩, -, hx⟩ := Option.bind_eq_some_iff.mp hx
    simp only [Option.pure_def, Option.some.injEq, Prod.mk.injEq] at hx
    obtain ⟨rfl, rfl⟩ := hx
    exact SharedState.Inv.steps_none ⟨h.base, h.lock, h.proper, h.filled⟩ rfl (by cases o <;> rfl)

theorem SharedState.start_inv (a : Addr) (n : Nat) : (SharedState.start a n).Inv where
  base := SearchState.start_inv a n
  lock := Exclusive.start (fun x hx => by rw [List.eq_of_mem_replicate hx]; rfl)
  proper := fun x hx => by rw [List.eq_of_mem_replicate hx]; trivial
  filled := by
    constructor
    · exact fun hf => absurd hf (by simp [SharedState.start, SearchState.start])
    · rintro ⟨x, hx, hxf⟩
      rw [List.eq_of_mem_replicate hx] at hxf
      exact absurd hxf Bool.false_ne_true

/-- However many threads set, search and enumerate, every run is one of the
one-writer machine: the same maps, and the same answers to the searches. -/
theorem shared_serial {a : Addr} {n : Nat} {steps : List SharedStep}
    {outs : List (Option Returned)}
    (hrun : Run.run SharedState.step (SharedState.start a n) steps = some (outs, s))
    (hready : Run.Along SharedState.step SharedState.Ready (SharedState.start a n) steps) :
    Exclusive Writer.inside s.lock s.writers
      ∧ ∃ es os, (∀ e ∈ es, e.Proper)
        ∧ Run.run SearchState.step (SearchState.start a n) es = some (os, s.base)
        ∧ os.flatMap Option.toList = outs.flatMap Returned.searched
        ∧ s.base.holds = contents es := by
  obtain ⟨es, os, t, halong, hrun', hout, rfl, hinv⟩ :=
    Run.run_follow SharedState.step SearchState.step (f := Returned.searched) (g := Option.toList)
      (R := fun s t => s.base = t ∧ s.Inv) (H := fun _ e => e.Proper)
      (by
        rintro s t e out s' ⟨rfl, hs⟩ hr hx
        obtain ⟨es, os, halong, hrun, hout, hinv⟩ := hs.step hr hx
        exact ⟨es, os, s'.base, halong, hrun, hout, rfl, hinv⟩)
      ⟨rfl, SharedState.start_inv a n⟩ hready hrun
  have hproper := Run.mem_of_along SearchState.step halong hrun'
  exact ⟨hinv.lock, es, os, hproper, hrun', hout, (SearchState.run_holds hproper hrun').2⟩

/-- Two setters that meet at the lock, and a search that the second one
overtakes. -/
theorem shared_serial_two :
    ∃ s : SharedState, Exclusive Writer.inside s.lock s.writers
      ∧ ∃ es os, (∀ e ∈ es, e.Proper)
        ∧ Run.run SearchState.step (SearchState.start 0 2) es = some (os, s.base)
        ∧ os.flatMap Option.toList = [(0, .number, 5)]
        ∧ s.base.holds = contents es := by
  have hgo : (Run.run SharedState.step (SharedState.start 0 2)
      [.set 0 (.num 1) ⟨0, .number, 5⟩, .set 1 (.num 1) ⟨0, .number, 6⟩, .next 1, .next 0, .next 1,
        .search 0 (.num 1) .blank, .read 0, .next 1, .next 0, .read 0, .next 0, .read 0, .read 0,
        .next 0, .read 0]).map (fun p => p.1.flatMap Returned.searched)
      = some [(0, .number, 5)] := by decide
  obtain ⟨⟨outs, s⟩, hrun, hout⟩ := Option.map_eq_some_iff.mp hgo
  have hout : outs.flatMap Returned.searched = [(0, .number, 5)] := hout
  rw [← hout]
  exact ⟨s, shared_serial hrun (by decide)⟩

end LightTable
