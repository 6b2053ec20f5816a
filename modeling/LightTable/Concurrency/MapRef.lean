/-
  LightTable.Concurrency.MapRef
  ─────────────────────────────
  The counts of the map objects under concurrent readers and one resizer.

  Each call of `_grab_map`, `_release_map` and `_update_map` is one step, on
  the table of `LightTable.Table.Def`; the state adds which thread holds which
  map.  `_update_map` counts the old map down in a local variable only, and
  `_release_map` writes the count of the released map into the current one.
  So the counts stay right exactly as long as no update falls on a map that a
  reader holds.
-/
import LightTable.Table.Def
import LightTable.Lib.RefCount

namespace LightTable

open RefCount

/-! ## §1. The transition system. -/

/-- The table, the outstanding grabs as pairs of a thread and a map, and the
next free address. -/
structure RefState where
  tb : Table
  held : List (Nat × Addr)
  brk : Addr

/-- A step: thread `i` grabs the current map; thread `i` releases `a`; the
resizer makes `m` current. -/
inductive RefStep where
  | grab (i : Nat)
  | release (i : Nat) (a : Addr)
  | update (m : LMap)

/-- One step; the output is the map deleted by it.  A new map comes from its
constructor with the count 1. -/
def RefState.step (s : RefState) : RefStep → Option (Option Addr × RefState)
  | .grab i => do
      let (a, tb) ← s.tb.grabMap
      return (none, { s with tb := tb, held := (i, a) :: s.held })
  | .release i a => do
      let (dead, tb) ← s.tb.releaseMap a
      return (dead.map (fun _ => a), { s with tb := tb, held := s.held.erase (i, a) })
  | .update m => do
      let (dead, tb) ← (s.tb.putMap s.brk { m with ref := 1 }).updateMap s.brk
      return (dead.map (fun _ => s.tb.map), { s with tb := tb, brk := s.brk + 1 })

/-- The table after its constructor: one map of `n` buckets at `a`. -/
def RefState.init (a : Addr) (n : Nat) : RefState :=
  { tb := Table.putMap { ref := 1, map := a, maps := fun _ => none } a (LMap.new n),
    held := [], brk := a + 1 }

/-- A thread releases only what it grabbed. -/
def RefState.Owned (s : RefState) : RefStep → Prop
  | .release i a => (i, a) ∈ s.held
  | _ => True

instance RefState.decidableOwned (s : RefState) : ∀ e : RefStep, Decidable (s.Owned e)
  | .release i a => inferInstanceAs (Decidable ((i, a) ∈ s.held))
  | .grab _ => isTrue trivial
  | .update _ => isTrue trivial

/-! ## §2. References and counts. -/

/-- The count field of each map object. -/
def RefState.live (s : RefState) (a : Addr) : Option Int := (s.tb.maps a).map LMap.ref

/-- The map of an outstanding grab. -/
def heldMap (h : Nat × Addr) : Option Addr := some h.2

@[simp] theorem heldMap_eq (i : Nat) (m a : Addr) : heldMap (i, m) = some a ↔ m = a :=
  Option.some_inj

/-- The outstanding grabs of a map, plus one for the current map. -/
def RefState.refs (s : RefState) (a : Addr) : Nat :=
  RefCount.refs heldMap s.tb.map s.held a

/-- The counts are right, and addresses not handed out hold nothing. -/
structure RefState.Sound (s : RefState) : Prop where
  counts : Counts s.live s.refs
  fresh : ∀ a, s.brk ≤ a → s.refs a = 0

/-- The step goes through, keeps the counts right, and deletes a map exactly
when its references go to zero. -/
def RefState.StepSound (s : RefState) (e : RefStep) : Prop :=
  ∃ dead s', s.step e = some (dead, s') ∧ s'.Sound
    ∧ ∀ a, dead = some a ↔ 0 < s.refs a ∧ s'.refs a = 0

/-- What a step needs: an update falls on a map nobody holds, and a grab finds
room in the 32-bit count. -/
def RefState.Calm (s : RefState) : RefStep → Prop
  | .grab _ => s.refs s.tb.map < 2147483647
  | .release _ _ => True
  | .update _ => s.refs s.tb.map = 1

/-- The invariant of calm runs: besides the counts, every map that is held is
the current one, and its count fits an `int`. -/
structure RefState.Inv (s : RefState) : Prop extends s.Sound where
  current : ∀ h ∈ s.held, h.2 = s.tb.map
  bound : s.refs s.tb.map ≤ 2147483647

/-! ## §3. One step. -/

variable {s : RefState}

theorem RefState.refs_cur_pos (s : RefState) : 0 < s.refs s.tb.map := by
  unfold RefState.refs RefCount.refs
  rw [if_pos rfl]
  omega

/-- The current map is there, and its count is its references. -/
theorem RefState.Sound.cur (h : s.Sound) :
    ∃ m, s.tb.maps s.tb.map = some m ∧ m.ref = s.refs s.tb.map := by
  have hlive := h.counts.of_pos s.refs_cur_pos
  obtain ⟨m, hm, href⟩ := Option.map_eq_some_iff.mp hlive
  exact ⟨m, hm, href⟩

theorem RefState.Sound.brk_ne (h : s.Sound) : s.tb.map ≠ s.brk := by
  intro heq
  have h0 := h.fresh s.brk (Nat.le_refl _)
  have hpos := s.refs_cur_pos
  rw [heq] at hpos
  omega

/-- `_grab_map` needs room for one more in the count. -/
theorem RefState.Inv.grab_iff (h : s.Inv) (i : Nat) :
    s.StepSound (.grab i) ↔ s.Calm (.grab i) := by
  obtain ⟨m, hm, href⟩ := h.toSound.cur
  have hpos := s.refs_cur_pos
  have hb := h.bound
  show _ ↔ s.refs s.tb.map < 2147483647
  by_cases hroom : s.refs s.tb.map < 2147483647
  · have hasInt : asInt (m.ref + 1) = (s.refs s.tb.map : Int) + 1 := by
      rw [href]
      exact asInt_of_small (by omega) (by omega)
    set s' : RefState := { s with
      tb := s.tb.putMap s.tb.map { m with ref := asInt (m.ref + 1) },
      held := (i, s.tb.map) :: s.held } with hs'
    have hstep : s.step (.grab i) = some (none, s') := by
      unfold RefState.step Table.grabMap
      simp only [hm, Option.bind_eq_bind, Option.bind_some, hasInt]
      rw [if_pos (by omega)]
      simp only [hs', hasInt]
      rfl
    have hrefs : ∀ a, s'.refs a = s.refs a + if s.tb.map = a then 1 else 0 := by
      intro a
      show holders heldMap ((i, s.tb.map) :: s.held) a + _ = _
      rw [holders_cons]
      simp only [heldMap_eq]
      show holders heldMap s.held a + (if s.tb.map = a then 1 else 0)
          + (if a = s.tb.map then 1 else 0)
        = holders heldMap s.held a + (if a = s.tb.map then 1 else 0)
          + if s.tb.map = a then 1 else 0
      omega
    refine ⟨fun _ => hroom, fun _ => ⟨none, s', hstep, ⟨?_, ?_⟩, ?_⟩⟩
    · refine h.counts.step s.tb.map ?_ ?_ ?_
      · intro b hne
        rw [hrefs, if_neg hne.symm]
        rfl
      · intro b hne
        show (Function.update s.tb.maps s.tb.map _ b).map LMap.ref = (s.tb.maps b).map LMap.ref
        rw [Function.update_of_ne hne]
      · show (Function.update s.tb.maps s.tb.map _ s.tb.map).map LMap.ref = _
        rw [Function.update_self, hrefs, if_pos rfl, if_neg (by omega)]
        show some (asInt (m.ref + 1)) = _
        rw [hasInt]
        rfl
    · intro a ha
      have h0 := h.fresh a ha
      rw [hrefs, h0, if_neg (fun heq => by rw [← heq] at h0; omega)]
    · intro a
      rw [hrefs]
      constructor
      · intro hnone
        exact absurd hnone (by simp)
      · rintro ⟨h1, h2⟩
        omega
  · -- the count would wrap, and the assertion fails
    refine ⟨fun ⟨_, _, hstep, _⟩ => ?_, fun hr => absurd hr hroom⟩
    have hasInt : asInt (m.ref + 1) = -2147483648 := by
      rw [href]
      unfold asInt
      omega
    unfold RefState.step Table.grabMap at hstep
    simp only [hm, Option.bind_eq_bind, Option.bind_some, hasInt] at hstep
    rw [if_neg (by decide)] at hstep
    exact absurd hstep (by simp)

/-- `_release_map` of the current map is right. -/
theorem RefState.Inv.release_sound (h : s.Inv) {i : Nat} {a : Addr} (hown : (i, a) ∈ s.held) :
    s.StepSound (.release i a) := by
  obtain ⟨m, hm, href⟩ := h.toSound.cur
  have hb := h.bound
  have ha : a = s.tb.map := h.current (i, a) hown
  subst ha
  have hholder : 0 < holders heldMap s.held s.tb.map := holders_pos heldMap hown rfl
  -- the table and this holder count
  have hge : 2 ≤ s.refs s.tb.map := by
    unfold RefState.refs RefCount.refs
    rw [if_pos rfl]
    omega
  have hasInt : asInt (m.ref - 1) = (s.refs s.tb.map : Int) - 1 := by
    rw [href]
    exact asInt_of_small (by omega) (by omega)
  set s' : RefState := { s with
    tb := s.tb.putMap s.tb.map { m with ref := (s.refs s.tb.map : Int) - 1 },
    held := s.held.erase (i, s.tb.map) } with hs'
  have hstep : s.step (.release i s.tb.map) = some (none, s') := by
    unfold RefState.step Table.releaseMap
    simp only [hm, Option.bind_eq_bind, Option.bind_some, hasInt]
    rw [if_pos (by omega)]
    rfl
  -- one holder of the current map less
  have hrefs : ∀ b, s'.refs b + (if s.tb.map = b then 1 else 0) = s.refs b := by
    intro b
    have herase : holders heldMap (s.held.erase (i, s.tb.map)) b
        + (if s.tb.map = b then 1 else 0) = holders heldMap s.held b := by
      have := holders_erase heldMap hown b
      simp only [heldMap_eq] at this
      exact this
    show holders heldMap (s.held.erase (i, s.tb.map)) b + (if b = s.tb.map then 1 else 0)
        + (if s.tb.map = b then 1 else 0)
      = holders heldMap s.held b + if b = s.tb.map then 1 else 0
    omega
  have hself := hrefs s.tb.map
  rw [if_pos rfl] at hself
  refine ⟨none, s', hstep, ⟨?_, ?_⟩, ?_⟩
  · refine h.counts.step s.tb.map ?_ ?_ ?_
    · intro b hne
      have := hrefs b
      rw [if_neg hne.symm] at this
      exact this
    · intro b hne
      show (Function.update s.tb.maps s.tb.map _ b).map LMap.ref = (s.tb.maps b).map LMap.ref
      rw [Function.update_of_ne hne]
    · show (Function.update s.tb.maps s.tb.map _ s.tb.map).map LMap.ref = _
      rw [Function.update_self, if_neg (by omega)]
      show some ((s.refs s.tb.map : Int) - 1) = some ((s'.refs s.tb.map : Nat) : Int)
      congr 1
      omega
  · intro b hge'
    have h0 := h.fresh b hge'
    have := hrefs b
    omega
  · intro b
    constructor
    · intro hnone
      exact absurd hnone (by simp)
    · rintro ⟨h1, h2⟩
      have hb' := hrefs b
      by_cases heq : s.tb.map = b
      · subst heq
        omega
      · rw [if_neg heq] at hb'
        omega

/-- `_update_map` is right exactly when nobody holds the old map. -/
theorem RefState.Inv.update_iff (h : s.Inv) (m : LMap) :
    s.StepSound (.update m) ↔ s.Calm (.update m) := by
  obtain ⟨old, hold, href⟩ := h.toSound.cur
  have hne := h.toSound.brk_ne
  have hpos := s.refs_cur_pos
  have hb := h.bound
  have hfresh := h.fresh s.brk (Nat.le_refl _)
  have hcur : (s.tb.putMap s.brk { m with ref := 1 }).maps s.tb.map = some old := by
    show Function.update s.tb.maps s.brk _ s.tb.map = _
    rw [Function.update_of_ne hne]
    exact hold
  have hasInt : asInt (old.ref - 1) = (s.refs s.tb.map : Int) - 1 := by
    rw [href]
    exact asInt_of_small (by omega) (by omega)
  show _ ↔ s.refs s.tb.map = 1
  -- the references after the swap, whoever holds the old map
  have hrefs : ∀ tb' : Table, tb'.map = s.brk → ∀ b,
      ({ s with tb := tb', brk := s.brk + 1 } : RefState).refs b + (if b = s.tb.map then 1 else 0)
        = s.refs b + if b = s.brk then 1 else 0 := by
    intro tb' htb b
    show holders heldMap s.held b + (if b = tb'.map then 1 else 0)
        + (if b = s.tb.map then 1 else 0)
      = holders heldMap s.held b + (if b = s.tb.map then 1 else 0) + if b = s.brk then 1 else 0
    rw [htb]
    omega
  by_cases hone : s.refs s.tb.map = 1
  · set tb' : Table := { (s.tb.putMap s.brk { m with ref := 1 }).dropMap s.tb.map with
      map := s.brk } with htb'
    have hstep : s.step (.update m)
        = some (some s.tb.map, { s with tb := tb', brk := s.brk + 1 }) := by
      have hmap : (s.tb.putMap s.brk { m with ref := 1 }).map = s.tb.map := rfl
      unfold RefState.step Table.updateMap
      simp only [hmap, hcur, Option.bind_eq_bind, Option.bind_some, hasInt]
      rw [if_pos (by omega)]
      rfl
    have hr := hrefs tb' rfl
    have hrold := hr s.tb.map
    rw [if_pos rfl, if_neg hne] at hrold
    have hrnew := hr s.brk
    rw [if_neg (Ne.symm hne), if_pos rfl] at hrnew
    have hrother : ∀ b, b ≠ s.tb.map → b ≠ s.brk →
        ({ s with tb := tb', brk := s.brk + 1 } : RefState).refs b = s.refs b := by
      intro b h1 h2
      have := hr b
      rw [if_neg h1, if_neg h2] at this
      exact this
    refine ⟨fun _ => hone, fun _ => ⟨_, _, hstep, ⟨?_, ?_⟩, ?_⟩⟩
    · intro b
      show (Function.update (Function.update s.tb.maps s.brk _) s.tb.map none b).map LMap.ref = _
      by_cases h1 : b = s.tb.map
      · subst h1
        rw [Function.update_self, if_pos (by omega)]
        rfl
      · rw [Function.update_of_ne h1]
        by_cases h2 : b = s.brk
        · subst h2
          rw [Function.update_self, if_neg (by omega)]
          show some (1 : Int) = _
          congr 1
          omega
        · rw [Function.update_of_ne h2, hrother b h1 h2]
          exact h.counts b
    · intro b hge
      have hge : s.brk + 1 ≤ b := hge
      have h2 : b ≠ s.brk := Nat.ne_of_gt hge
      have h0 := h.fresh b (Nat.le_of_succ_le hge)
      have h1 : b ≠ s.tb.map := by
        intro heq
        rw [heq] at h0
        omega
      rw [hrother b h1 h2]
      exact h0
    · intro b
      constructor
      · intro hb'
        rw [Option.some.injEq] at hb'
        subst hb'
        exact ⟨hpos, by omega⟩
      · rintro ⟨h1, h2⟩
        by_cases heq : b = s.tb.map
        · rw [heq]
        · by_cases hbrk : b = s.brk
          · subst hbrk
            omega
          · rw [hrother b heq hbrk] at h2
            omega
  · -- the old map keeps a count that is one too high
    refine ⟨fun ⟨_, s', hstep, hsound, _⟩ => ?_, fun h1 => absurd h1 hone⟩
    have hmap : (s.tb.putMap s.brk { m with ref := 1 }).map = s.tb.map := rfl
    unfold RefState.step Table.updateMap at hstep
    simp only [hmap, hcur, Option.bind_eq_bind, Option.bind_some, hasInt] at hstep
    rw [if_neg (by omega)] at hstep
    simp only [Option.pure_def, Option.bind_some, Option.some.injEq, Prod.mk.injEq] at hstep
    set tb' : Table := { s.tb.putMap s.brk { m with ref := 1 } with map := s.brk } with htb'
    have hs' : s' = { s with tb := tb', brk := s.brk + 1 } := hstep.2.symm
    subst hs'
    have hr := hrefs tb' rfl s.tb.map
    rw [if_pos rfl, if_neg hne] at hr
    have hlive := hsound.counts.of_pos (a := s.tb.map) (by omega)
    have hfield : ({ s with tb := tb', brk := s.brk + 1 } : RefState).live s.tb.map
        = some (s.refs s.tb.map : Int) := by
      show ((s.tb.putMap s.brk { m with ref := 1 }).maps s.tb.map).map LMap.ref = _
      rw [hcur, Option.map_some, href]
    have heq : (s.refs s.tb.map : Int) = _ := Option.some.inj (hfield.symm.trans hlive)
    omega

/-! ## §4. Whole runs. -/

/-- The current map after a step. -/
def RefState.curAfter (s : RefState) : RefStep → Addr
  | .update _ => s.brk
  | _ => s.tb.map

/-- The outstanding grabs after a step. -/
def RefState.heldAfter (s : RefState) : RefStep → List (Nat × Addr)
  | .grab i => (i, s.tb.map) :: s.held
  | .release i a => s.held.erase (i, a)
  | .update _ => s.held

theorem Table.releaseMap_map {tb tb' : Table} {a : Addr} {d : Option LMap}
    (h : tb.releaseMap a = some (d, tb')) : tb'.map = tb.map := by
  unfold Table.releaseMap at h
  obtain ⟨rel, hrel, h⟩ := Option.bind_eq_some_iff.mp h
  obtain ⟨cur, hcur, h⟩ := Option.bind_eq_some_iff.mp h
  simp only [Option.pure_def] at h
  split at h
  · simp only [Option.some.injEq, Prod.mk.injEq] at h
    rw [← h.2]
    rfl
  · obtain ⟨m, hm, h⟩ := Option.bind_eq_some_iff.mp h
    simp only [Option.some.injEq, Prod.mk.injEq] at h
    rw [← h.2]
    rfl

theorem Table.updateMap_map {tb tb' : Table} {a : Addr} {d : Option LMap}
    (h : tb.updateMap a = some (d, tb')) : tb'.map = a := by
  unfold Table.updateMap at h
  obtain ⟨old, hold, h⟩ := Option.bind_eq_some_iff.mp h
  simp only [Option.pure_def] at h
  split at h
  · simp only [Option.some.injEq, Prod.mk.injEq] at h
    rw [← h.2]
  · simp only [Option.some.injEq, Prod.mk.injEq] at h
    rw [← h.2]

/-- What a step does to the references. -/
theorem RefState.step_refs {e : RefStep} {dead : Option Addr} {s' : RefState}
    (h : s.step e = some (dead, s')) :
    s'.tb.map = s.curAfter e ∧ s'.held = s.heldAfter e := by
  unfold RefState.step at h
  cases e with
  | grab i =>
    obtain ⟨⟨a, tb⟩, hg, hs⟩ := Option.bind_eq_some_iff.mp h
    unfold Table.grabMap at hg
    obtain ⟨m, hm, hg⟩ := Option.bind_eq_some_iff.mp hg
    by_cases href : 1 < asInt (m.ref + 1)
    · simp only [href, if_true, Option.pure_def, Option.some.injEq, Prod.mk.injEq] at hg hs
      obtain ⟨rfl, rfl⟩ := hg
      rw [← hs.2]
      exact ⟨rfl, rfl⟩
    · simp [href] at hg
  | release i a =>
    obtain ⟨⟨d, tb⟩, hr, hs⟩ := Option.bind_eq_some_iff.mp h
    simp only [Option.pure_def, Option.some.injEq, Prod.mk.injEq] at hs
    have hmap := Table.releaseMap_map hr
    rw [← hs.2]
    exact ⟨hmap, rfl⟩
  | update m =>
    obtain ⟨⟨d, tb⟩, hu, hs⟩ := Option.bind_eq_some_iff.mp h
    simp only [Option.pure_def, Option.some.injEq, Prod.mk.injEq] at hs
    have hmap := Table.updateMap_map hu
    rw [← hs.2]
    exact ⟨hmap, rfl⟩

/-- A step is sound exactly when it is calm. -/
theorem RefState.Inv.step_iff (h : s.Inv) {e : RefStep} (hown : s.Owned e) :
    s.StepSound e ↔ s.Calm e := by
  cases e with
  | grab i => exact h.grab_iff i
  | release i a => exact ⟨fun _ => trivial, fun _ => h.release_sound hown⟩
  | update m => exact h.update_iff m

/-- A sound step keeps the invariant. -/
theorem RefState.Inv.step (h : s.Inv) {e : RefStep} (hp : s.StepSound e) {dead : Option Addr}
    {s' : RefState} (hstep : s.step e = some (dead, s')) : s'.Inv := by
  have hsound : s'.Sound := by
    obtain ⟨dead', s'', hstep', hsound, -⟩ := hp
    rw [hstep] at hstep'
    simp only [Option.some.injEq, Prod.mk.injEq] at hstep'
    rw [hstep'.2]
    exact hsound
  obtain ⟨hmap, hheld⟩ := RefState.step_refs hstep
  have hb := h.bound
  cases e with
  | grab i =>
    have hroom : s.refs s.tb.map < 2147483647 := (h.grab_iff i).mp hp
    have hmap : s'.tb.map = s.tb.map := hmap
    have hheld : s'.held = (i, s.tb.map) :: s.held := hheld
    refine ⟨hsound, ?_, ?_⟩
    · intro x hx
      rw [hheld] at hx
      rw [hmap]
      rcases List.mem_cons.mp hx with rfl | hx
      · rfl
      · exact h.current x hx
    · unfold RefState.refs RefCount.refs at *
      rw [if_pos rfl] at hroom
      rw [hmap, hheld, holders_cons]
      simp only [heldMap_eq, if_true]
      omega
  | release i a =>
    have hmap : s'.tb.map = s.tb.map := hmap
    have hheld : s'.held = s.held.erase (i, a) := hheld
    refine ⟨hsound, ?_, ?_⟩
    · intro x hx
      rw [hheld] at hx
      rw [hmap]
      exact h.current x (List.mem_of_mem_erase hx)
    · have hle : holders heldMap (s.held.erase (i, a)) s.tb.map
          ≤ holders heldMap s.held s.tb.map := List.erase_sublist.countP_le
      unfold RefState.refs RefCount.refs at *
      rw [hmap, hheld]
      omega
  | update m =>
    -- a sound update finds only the table holding the old map
    have hone : s.refs s.tb.map = 1 := (h.update_iff m).mp hp
    have hheld : s'.held = s.held := hheld
    have hnone : s.held = [] := by
      unfold RefState.refs RefCount.refs at hone
      rw [if_pos rfl] at hone
      cases hh : s.held with
      | nil => rfl
      | cons x rest =>
        have hx : x ∈ s.held := by rw [hh]; simp
        have := holders_pos heldMap hx rfl
        rw [h.current x hx] at this
        omega
    rw [hnone] at hheld
    refine ⟨hsound, ?_, ?_⟩
    · intro x hx
      rw [hheld] at hx
      exact absurd hx (by simp)
    · unfold RefState.refs RefCount.refs
      rw [hheld]
      show 0 + _ ≤ _
      split <;> omega

/-- The table after its constructor is in order. -/
theorem RefState.init_inv (a : Addr) (n : Nat) : (RefState.init a n).Inv where
  counts := by
    intro b
    show (Function.update (fun _ => none) a (some (LMap.new n)) b).map LMap.ref = _
    have hrefs : (RefState.init a n).refs b = if b = a then 1 else 0 := Nat.zero_add _
    rw [hrefs, Function.update_apply]
    by_cases hb : b = a <;> simp [hb, LMap.new]
  fresh := by
    intro b hb
    have hb : a + 1 ≤ b := hb
    have hne : b ≠ a := Nat.ne_of_gt hb
    show 0 + (if b = a then 1 else 0) = 0
    rw [if_neg hne]
  current := fun x hx => absurd hx (by simp [RefState.init])
  bound := by
    show 0 + (if a = a then 1 else 0) ≤ 2147483647
    rw [if_pos rfl]
    omega

/-- `new table` builds the table that the runs start from. -/
theorem newTable_init {w w₀ : World} {t : Addr} (h : w.newTable = some (t, w₀)) :
    w₀.tables t = some (RefState.init (w.brk + 1) 29).tb := by
  unfold World.newTable at h
  rw [nextPrime_default] at h
  simp only [Option.bind_eq_bind, Option.bind_some, Option.pure_def, Option.some.injEq,
    Prod.mk.injEq] at h
  obtain ⟨rfl, rfl⟩ := h
  exact Function.update_self ..

/-- In a run in which threads release what they grabbed, every step is sound
exactly when every step is calm: no update falls on a map that is held, and no
grab on a count that is full. -/
theorem mapRefs_sound_iff {a : Addr} {n : Nat} {steps : List RefStep}
    (hown : Run.Along RefState.step RefState.Owned (RefState.init a n) steps) :
    Run.Along RefState.step RefState.StepSound (RefState.init a n) steps
      ↔ Run.Along RefState.step RefState.Calm (RefState.init a n) steps := by
  refine Run.along_iff RefState.step (I := RefState.Inv) ?_ ?_ (RefState.init_inv a n) hown
  · intro s e h hv
    exact h.step_iff hv
  · intro s e dead s' h _ hp hstep
    exact h.step hp hstep

/-- A grab, its release, then an update. -/
theorem mapRefs_sound_iff_calm :
    Run.Along RefState.step RefState.StepSound (RefState.init 0 29)
        [.grab 1, .release 1 0, .update (LMap.new 58)]
      ↔ Run.Along RefState.step RefState.Calm (RefState.init 0 29)
        [.grab 1, .release 1 0, .update (LMap.new 58)] :=
  mapRefs_sound_iff (by decide)

/-- An update between a grab and its release: the old map 0 keeps the count 2
after its last reader let go, and is never deleted. -/
theorem update_leaks_map :
    Run.Along RefState.step RefState.Owned (RefState.init 0 29)
        [.grab 1, .update (LMap.new 58), .release 1 0]
      ∧ (Run.run RefState.step (RefState.init 0 29)
          [.grab 1, .update (LMap.new 58), .release 1 0]).map
            (fun q => (q.1, q.2.refs 0, q.2.live 0)) = some ([none, none, none], 0, some 2)
      ∧ ¬ Run.Along RefState.step RefState.StepSound (RefState.init 0 29)
          [.grab 1, .update (LMap.new 58), .release 1 0] := by
  have hrun : (Run.run RefState.step (RefState.init 0 29) [.grab 1, .update (LMap.new 58)]).map
      (fun q => (q.2.refs 0, q.2.live 0)) = some (1, some 2) := by decide
  refine ⟨by decide, by decide, ?_⟩
  rintro ⟨⟨dead₁, s₁, h₁, -, -⟩, htail⟩
  obtain ⟨⟨dead₂, s₂, h₂, hsound, -⟩, -⟩ := htail dead₁ s₁ h₁
  have hrun₂ : Run.run RefState.step (RefState.init 0 29) [.grab 1, .update (LMap.new 58)]
      = some ([dead₁, dead₂], s₂) :=
    (Run.run_cons_some _).mpr ⟨dead₁, s₁, [dead₂], h₁,
      (Run.run_cons_some _).mpr ⟨dead₂, s₂, [], h₂, rfl, rfl⟩, rfl⟩
  rw [hrun₂] at hrun
  simp only [Option.map_some, Option.some.injEq, Prod.mk.injEq] at hrun
  have hcount := hsound.counts 0
  rw [hrun.1, hrun.2] at hcount
  exact absurd hcount (by decide)

end LightTable
